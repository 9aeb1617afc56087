import Patchwork.Proofs.Pyramid
import Patchwork.Proofs.Raster.Halving

/-!
# The closed form of a pyramid

The loop that builds a pyramid carries three images from level to level: the picture of the level,
the blurred image below it, and the mask.  Written out, level `k` depends on two chains only.  The
blurred images are halved from one another and keep their coverage; the pictures between which the
bands are taken are the same images without it.  Everything is an equality of rasters, cell by cell
and bit by bit, and no step of the loop leaves the coordinate range when the first blur does not.

## Main definitions

* `Placed.less`, `Placed.times` — subtract a coarser level and multiply by a mask, without the
  checks.
* `Pyramid.levelAt` — a level from the pictures and the masks of all resolutions.
* `Pyramid.high` — the pictures that belong to a chain of blurred images.
* `Pyramid.Fitting.low`, `Pyramid.Fitting.weight`, `Pyramid.Fitting.closed` — the two chains, and
  the pyramid written out.
* `Pyramid.ClosedForm` — what the levels of a pyramid are, one by one.

## Main statements

* `Pyramid.answers_bands_eq`, `Pyramid.answers_build_closed` — the loop makes the levels of the
  closed form.
* `Pyramid.builds_closed_form` — when a pyramid is built, and what it is then.
-/

namespace Patchwork

open Outcome Coordinate
open Raster (Blurrable Room)
open Rect (half)

variable {κ α : Type} [Channel κ] {format : Format} {E : Failure → Prop}

/-! ## Steps in range -/

namespace Placed

section Cell

variable [Cell κ α]

/-- The image less a coarser one brought to its resolution, without the checks. -/
def less (p coarse : Placed α) : Placed α :=
  ⟨p.raster.zipWith (· - ·) (coarse.raster.stretch coarse.frame p.frame), p.frame, p.columns,
    p.rows, p.fills⟩

omit [Channel κ] in
/-- Every cell times the cell of a mask of the same size. -/
def times (p : Placed α) (mask : Placed κ) : Placed α :=
  ⟨p.raster.zipWith scale mask.raster, p.frame, p.columns, p.rows, p.fills⟩

theorem answers_halved (hslim : Cell.Slim α) {p : Placed α} (h : Blurrable α p.frame) :
    Ends E (· = p.halved) p.reduce :=
  (h.answers_coarseFrame hslim).bind_eq rfl

theorem answers_less (hslim : Cell.Slim α) {p coarse : Placed α} (h : Blurrable α p.frame)
    (hcoarse : coarse.frame = half p.frame) :
    Ends E (· = p.less coarse) (p.minusExpanded coarse) := by
  have hexpand : Ends E (· = coarse.raster.stretch coarse.frame p.frame)
      (coarse.raster.expand coarse.frame p.frame) := by
    rw [hcoarse]
    exact h.answers_expand hslim _
  exact hexpand.bind_eq rfl

/-- Multiplying place by place is multiplying cell by cell when image and mask lie together. -/
theorem tabulate_scale_eq_zipWith {r : Raster α} {mask : Raster κ} {frame : Rect}
    (hr : r.Fills frame) (hmask : mask.Fills frame) :
    Raster.tabulate r.width r.height (fun x y => scale (r.peek x y) (mask.peek x y)) =
      r.zipWith scale mask := by
  have hsame : mask.width = r.width ∧ mask.height = r.height :=
    ⟨hmask.1.symm.trans hr.1, hmask.2.symm.trans hr.2⟩
  refine Raster.ext_peek (by simp) (by simp) fun x y hhas => ?_
  have hr' : r.Has x y := hhas
  have hmask' : mask.Has x y := by
    rw [Raster.Has, hsame.1, hsame.2]
    exact hr'
  rw [Raster.peek_tabulate_int hhas, Raster.peek_zipWith hr' hmask' hsame.1,
    Int.toNat_of_nonneg hr'.1, Int.toNat_of_nonneg hr'.2.2.1]

theorem answers_times {p : Placed α} {mask : Placed κ} (h : Blurrable α p.frame)
    (hmask : mask.frame = p.frame) : Ends E (· = p.times mask) (p.masked mask) := by
  have hzero : Ends E (· = 0) (checked 0) := answers_checked (by decide)
  have hraster := tabulate_scale_eq_zipWith p.fills (hmask ▸ mask.fills)
  unfold masked
  rw [hmask, Int.sub_self, Int.sub_self]
  refine hzero.bind_eq ?_
  refine hzero.bind_eq ?_
  have hresult : Ends E (· = p.times mask) (pure (f := Outcome)
      ⟨Raster.tabulate p.raster.width p.raster.height fun x y =>
        scale (p.raster.peek x y) (mask.raster.peek (x + 0) (y + 0)), p.frame, p.columns, p.rows,
        p.fills⟩) := by
    simp only [Int.add_zero, ends_pure, times, ← hraster]
  by_cases hcells : p.raster.width ≠ 0 ∧ p.raster.height ≠ 0
  · rw [if_pos hcells]
    rw [← p.fills.1, ← p.fills.2] at hcells
    have hne : ¬ p.frame.IsEmpty := by
      simp only [Rect.columns, Rect.rows, Rect.IsEmpty] at hcells ⊢
      omega
    obtain ⟨⟨hcolumns, -⟩, hrows, -⟩ := (h.clear hne).sides hne
    have hrun : ∀ count : Nat, count ≤ 2147483648 →
        Ends E (fun _ => True) (Coordinate.run 0 count) := fun count hcount =>
      (ends_require _ _).mono (fun _ hc => absurd (.inr (by
        simp only [Fits, lowest, highest]
        omega)) hc.2) fun _ _ => trivial
    refine (hrun _ (p.fills.1 ▸ hcolumns)).bind fun _ _ => ?_
    exact (hrun _ (p.fills.2 ▸ hrows)).bind fun _ _ => hresult
  · rw [if_neg hcells]
    exact hresult

end Cell

end Placed

/-! ## The loop -/

namespace Pyramid

/-- The level of a resolution, from the pictures and the masks of all resolutions. -/
def levelAt (picture : Nat → Placed (Pixel format κ)) (mask : Nat → Placed κ) (levels k : Nat) :
    Level format κ :=
  ⟨(if k + 1 < levels then (picture k).less (picture (k + 1)) else picture k).times (mask k),
    mask k⟩

section Level

variable (picture : Nat → Placed (Pixel format κ)) (mask : Nat → Placed κ) (levels k : Nat)

@[simp] theorem frame_levelAt :
    (levelAt picture mask levels k).image.frame = (picture k).frame := by
  rw [levelAt]
  split <;> rfl

@[simp] theorem columns_levelAt :
    (levelAt picture mask levels k).image.columns = (picture k).columns := by
  rw [levelAt]
  split <;> rfl

@[simp] theorem rows_levelAt : (levelAt picture mask levels k).image.rows = (picture k).rows := by
  rw [levelAt]
  split <;> rfl

@[simp] theorem mask_levelAt : (levelAt picture mask levels k).mask = mask k := rfl

end Level

/-- The levels that the loop makes, all of them written out. -/
theorem answers_bands_eq {coarser : Nat} {image blurred : Placed (Pixel format κ)}
    {mask : Placed κ} (himage : Blurrable (Pixel format κ) image.frame)
    (hblurred : blurred.frame = half image.frame) (hmask : mask.frame = image.frame) :
    Ends E (· = (List.range (coarser + 1)).map
        (levelAt (pictures image blurred) (fun k => Placed.halved^[k] mask) (coarser + 1)))
      (bands coarser image blurred mask) := by
  induction coarser generalizing image blurred mask with
  | zero => exact (Placed.answers_times himage hmask).bind_eq rfl
  | succ coarser ih =>
    have hnext : Blurrable (Pixel format κ) blurred.frame :=
      hblurred ▸ himage.half Pixel.slim
    have hplane : Blurrable κ mask.frame := hmask ▸ himage.plane
    have hdetail : Ends E (· = image.less blurred.unpremultiply)
        (image.minusExpanded blurred.unpremultiply) :=
      Placed.answers_less Pixel.slim himage hblurred
    have hband : Ends E (· = (image.less blurred.unpremultiply).times mask)
        ((image.less blurred.unpremultiply).masked mask) :=
      Placed.answers_times himage hmask
    have hmask' : mask.halved.frame = blurred.unpremultiply.frame := by
      rw [Placed.frame_halved, Placed.frame_unpremultiply, hmask, hblurred]
    have hrest := @ih blurred.unpremultiply blurred.halved mask.halved hnext rfl hmask'
    refine (Placed.answers_halved Pixel.slim hnext).bind_eq ?_
    refine hdetail.bind_eq ?_
    refine hband.bind_eq ?_
    refine (Placed.answers_halved Channel.slim hplane).bind_eq ?_
    refine hrest.bind_eq ?_
    -- the pictures and masks of the rest are those of the whole, one level on
    rw [List.range_succ_eq_map, List.map_cons, List.map_map]
    refine congrArg₂ List.cons ?_ (List.map_congr_left fun k _ => ?_)
    · simp [levelAt, pictures]
    · simp only [levelAt, Function.comp_apply, Nat.succ_eq_add_one, pictures_succ,
        Function.iterate_succ_apply, Nat.add_lt_add_iff_right]

/-! ## The closed form -/

/-- The pictures that belong to a chain of blurred images: the first image as it is, the others
without their coverage. -/
def high (low : Nat → Placed (Pixel format κ)) : Nat → Placed (Pixel format κ)
  | 0 => low 0
  | k + 1 => (low (k + 1)).unpremultiply

theorem pictures_eq_high (image : Placed (Pixel format κ)) :
    pictures image image.halved = high fun k => Placed.halved^[k] image := by
  funext k
  cases k <;> simp [pictures, high]

/-- What the levels of a pyramid are.  `low` are the images of all resolutions as they are blurred
from one another, `weight` the masks. -/
structure ClosedForm (pyramid : Pyramid format κ) (placement : Rect) (columns rows levels : Nat)
    (low : Nat → Placed (Pixel format κ)) (weight : Nat → Placed κ) : Prop where
  /-- As many as were asked for. -/
  length : pyramid.levels.length = levels
  /-- Each image is halved from the one before. -/
  low_succ : ∀ k, k < levels → (low k).reduce = .ok (low (k + 1))
  /-- So is each mask. -/
  weight_succ : ∀ k, k + 1 < levels → (weight k).reduce = .ok (weight (k + 1))
  /-- A level keeps its mask. -/
  mask_eq : ∀ (k : Nat) (level : Level format κ), pyramid.levels[k]? = some level →
    level.mask = weight k
  /-- A level but the last is the picture less the next picture, doubled over the same rectangle,
  times the mask. -/
  band : ∀ (k : Nat) (level : Level format κ), pyramid.levels[k]? = some level → k + 1 < levels →
    ∃ up, (high low (k + 1)).raster.expand (high low (k + 1)).frame (high low k).frame = .ok up ∧
      level.image.raster = ((high low k).raster.zipWith (· - ·) up).zipWith scale (weight k).raster
  /-- The last level is the picture times the mask. -/
  rest : ∀ (k : Nat) (level : Level format κ), pyramid.levels[k]? = some level → k + 1 = levels →
    level.image.raster = (high low k).raster.zipWith scale (weight k).raster
  /-- Band and mask lie at the reduced placement. -/
  frame : ∀ (k : Nat) (level : Level format κ), pyramid.levels[k]? = some level →
    placement.reducedBy k = .ok level.image.frame ∧ placement.reducedBy k = .ok level.mask.frame
  /-- Their rasters fill it. -/
  fills : ∀ level ∈ pyramid.levels,
    level.image.raster.Fills level.image.frame ∧ level.mask.raster.Fills level.mask.frame
  /-- The canvas is halved as often, rounding up. -/
  canvas : ∀ (k : Nat) (level : Level format κ), pyramid.levels[k]? = some level →
    (level.image.columns = (fun n => (n + 1) / 2)^[k] columns ∧
      level.image.rows = (fun n => (n + 1) / 2)^[k] rows) ∧
    level.mask.columns = (fun n => (n + 1) / 2)^[k] columns ∧
      level.mask.rows = (fun n => (n + 1) / 2)^[k] rows

/-! ## The two chains -/

theorem canvas_halved_iterate [Cell κ α] (p : Placed α) (k : Nat) :
    (Placed.halved^[k] p).columns = (fun n => (n + 1) / 2)^[k] p.columns ∧
      (Placed.halved^[k] p).rows = (fun n => (n + 1) / 2)^[k] p.rows := by
  induction k generalizing p with
  | zero => exact ⟨rfl, rfl⟩
  | succ k ih => exact ih p.halved

theorem reduce_halved_iterate [Cell κ α] (hslim : Cell.Slim α) {p : Placed α}
    (h : Blurrable α p.frame) (k : Nat) :
    (Placed.halved^[k] p).reduce = .ok (Placed.halved^[k + 1] p) := by
  rw [Function.iterate_succ_apply']
  refine (Placed.answers_halved hslim ?_).eq_ok
  rw [Placed.frame_halved_iterate]
  exact h.half_iterate hslim k

/-- Leaving out the coverage changes only the cells. -/
theorem same_place_high (low : Nat → Placed (Pixel format κ)) (k : Nat) :
    (high low k).frame = (low k).frame ∧ (high low k).columns = (low k).columns ∧
      (high low k).rows = (low k).rows := by
  cases k <;> exact ⟨rfl, rfl, rfl⟩

namespace Fitting

variable {source : Raster (Pixel format κ)} {placement : Rect} {mask : Raster κ}
  {columns rows levels : Nat} {fillHoles : Bool}

/-- The images of all resolutions as they are blurred from one another. -/
def low (h : Fitting source placement mask levels) (columns rows : Nat) (fillHoles : Bool)
    (k : Nat) : Placed (Pixel format κ) :=
  Placed.halved^[k] ⟨if fillHoles then source.map Pixel.unpremultiply else source, placement,
    columns, rows, by cases fillHoles <;> exact h.source_fills⟩

/-- The masks of all resolutions. -/
def weight (h : Fitting source placement mask levels) (columns rows k : Nat) : Placed κ :=
  Placed.halved^[k] ⟨mask, placement, columns, rows, h.mask_fills⟩

/-- The pyramid that is built from them, written out. -/
def closed (h : Fitting source placement mask levels) (columns rows : Nat) (fillHoles : Bool) :
    Pyramid format κ :=
  ⟨(List.range levels).map
    (levelAt (high (h.low columns rows fillHoles)) (h.weight columns rows) levels)⟩

variable (h : Fitting source placement mask levels)

theorem frame_low (k : Nat) : (h.low columns rows fillHoles k).frame = half^[k] placement :=
  Placed.frame_halved_iterate _ k

theorem frame_weight (k : Nat) : (h.weight columns rows k).frame = half^[k] placement :=
  Placed.frame_halved_iterate _ k

theorem levels_closed {k : Nat} {level : Level format κ}
    (hk : (h.closed columns rows fillHoles).levels[k]? = some level) :
    k < levels ∧
      level = levelAt (high (h.low columns rows fillHoles)) (h.weight columns rows) levels k := by
  obtain ⟨j, hj, rfl⟩ := Option.map_eq_some_iff.mp (List.getElem?_map .. ▸ hk)
  obtain ⟨hlt, rfl⟩ := List.getElem?_eq_some_iff.mp hj
  simpa using hlt

/-- What is written out has the closed form: halving and doubling answer at every resolution. -/
theorem closedForm (hblur : Blurrable (Pixel format κ) placement) :
    (h.closed columns rows fillHoles).ClosedForm placement columns rows levels
      (h.low columns rows fillHoles) (h.weight columns rows) := by
  have hframe : ∀ k, (high (h.low columns rows fillHoles) k).frame = half^[k] placement :=
    fun k => (same_place_high _ k).1.trans (h.frame_low k)
  have hplaced : ∀ k, placement.reducedBy k = .ok (half^[k] placement) := fun k =>
    (hblur.answers_reducedBy Pixel.slim k).eq_ok
  refine ⟨by simp [closed], fun k _ => ?_, fun k _ => ?_, fun k level hk => ?_,
    fun k level hk hlt => ?_, fun k level hk hlast => ?_, fun k level hk => ?_, fun level _ => ?_,
    fun k level hk => ?_⟩
  · exact reduce_halved_iterate Pixel.slim hblur k
  · exact reduce_halved_iterate Channel.slim hblur.plane k
  · obtain ⟨-, rfl⟩ := h.levels_closed hk
    rfl
  · obtain ⟨-, rfl⟩ := h.levels_closed hk
    refine ⟨_, ?_, by rw [levelAt, if_pos hlt]; rfl⟩
    rw [hframe, hframe, Function.iterate_succ_apply']
    exact ((hblur.half_iterate Pixel.slim k).answers_expand Pixel.slim _).eq_ok
  · obtain ⟨-, rfl⟩ := h.levels_closed hk
    rw [levelAt, if_neg (by omega)]
    rfl
  · obtain ⟨-, rfl⟩ := h.levels_closed hk
    rw [frame_levelAt, mask_levelAt, hframe, h.frame_weight]
    exact ⟨hplaced k, hplaced k⟩
  · exact ⟨level.image.fills, level.mask.fills⟩
  · obtain ⟨-, rfl⟩ := h.levels_closed hk
    rw [columns_levelAt, rows_levelAt, mask_levelAt, (same_place_high _ k).2.1,
      (same_place_high _ k).2.2]
    exact ⟨canvas_halved_iterate _ k, canvas_halved_iterate _ k⟩

end Fitting

/-! ## Building -/

variable {source : Raster (Pixel format κ)} {placement : Rect} {mask : Raster κ}
  {columns rows levels : Nat} {fillHoles : Bool}

/-- When everything fits, the first blur and the loop are all there is to building. -/
theorem build_of_fitting (h : Fitting source placement mask levels) :
    build source placement columns rows mask levels fillHoles = (do
      let blurred ← (h.low columns rows fillHoles 0).reduce
      return ⟨← bands (levels - 1) (h.low columns rows fillHoles 0) blurred
        (h.weight columns rows 0)⟩) := by
  have hmask : mask.width = source.width ∧ mask.height = source.height :=
    ⟨h.mask_fills.1.symm.trans h.source_fills.1, h.mask_fills.2.symm.trans h.source_fills.2⟩
  have hpixels := (h.low columns rows fillHoles 0).fills
  have hplace : Placed.place (if fillHoles then source.map Pixel.unpremultiply else source)
      placement columns rows = .ok (h.low columns rows fillHoles 0) := dif_pos hpixels
  have hplace' : Placed.place mask placement columns rows = .ok (h.weight columns rows 0) :=
    dif_pos h.mask_fills
  unfold build
  simp only [Nat.ne_of_gt h.levels_pos, hmask.1, hmask.2, ne_eq, not_true_eq_false, or_self,
    if_false, hplace, hplace']
  rfl

theorem answers_build_closed (h : Fitting source placement mask levels)
    (hblur : Blurrable (Pixel format κ) placement) :
    Ends E (· = h.closed columns rows fillHoles)
      (build source placement columns rows mask levels fillHoles) := by
  rw [build_of_fitting h]
  refine (Placed.answers_halved Pixel.slim hblur).bind_eq ?_
  refine (answers_bands_eq hblur rfl rfl).bind_eq ?_
  rw [Nat.sub_add_cancel h.levels_pos, pictures_eq_high]
  exact rfl

/-- Pixels or a mask of another size than the placement are refused, and so is a pyramid without
levels. -/
theorem refuses_of_not_fitting (h : ¬ Fitting source placement mask levels) :
    ∃ problem, build source placement columns rows mask levels fillHoles =
      .error (.problem problem) := by
  unfold build
  by_cases hzero : levels = 0
  · exact ⟨_, by rw [if_pos hzero]; rfl⟩
  by_cases hsize : mask.width ≠ source.width ∨ mask.height ≠ source.height
  · exact ⟨_, by rw [if_neg hzero, if_pos hsize]; rfl⟩
  have hsource : ¬ Raster.Fills (if fillHoles then source.map Pixel.unpremultiply else source)
      placement := by
    intro hfills
    have hfills' : source.Fills placement := by cases fillHoles <;> exact hfills
    simp only [not_or, not_not] at hsize
    exact h ⟨Nat.pos_of_ne_zero hzero, hfills',
      hfills'.1.trans hsize.1.symm, hfills'.2.trans hsize.2.symm⟩
  have hplace : Placed.place (if fillHoles then source.map Pixel.unpremultiply else source)
      placement columns rows = Outcome.invalid _ := dif_neg hsource
  simp only [if_neg hzero, if_neg hsize, hplace]
  exact ⟨_, rfl⟩

/-- The condition on the coordinates cannot be spared: without it the first blur overflows. -/
theorem overflows_of_not_clear (h : Fitting source placement mask levels)
    (hpixels : ¬ placement.IsEmpty) (hx : lowest ≤ placement.x) (hy : lowest ≤ placement.y)
    (hclear : ¬ placement.Clear) :
    build source placement columns rows mask levels fillHoles = .error (.fault .overflow) := by
  have hframe := Raster.ends_coarseFrame (α := Pixel format κ) hpixels hx hy
  rw [build_of_fitting h, Placed.reduce]
  change (Raster.coarseFrame (Pixel format κ) placement >>= _) >>= _ = _
  cases hcoarse : Raster.coarseFrame (Pixel format κ) placement with
  | ok coarse => exact absurd (hframe.of_ok hcoarse) hclear
  | error cause =>
    rcases hframe.of_error hcoarse with rfl | hc
    · rfl
    · exact absurd hc hclear

/-- **A pyramid in closed form.**  Over a placement at which the first blur stays in the coordinate
range, of pixels that fit memory, a pyramid is built exactly when there is a level to build and the
pixels and the mask fill the placement, and each of its levels is then a fixed function of the two
chains that start with them; everything else is refused. -/
theorem builds_closed_form (source : Raster (Pixel format κ)) (placement : Rect)
    (columns rows : Nat) (mask : Raster κ) (levels : Nat) (fillHoles : Bool)
    (hroom : Room (Pixel format κ) source.width source.height)
    (hclear : ¬ placement.IsEmpty → placement.Clear) :
    (Fitting source placement mask levels → ∃ pyramid low weight,
      build source placement columns rows mask levels fillHoles = .ok pyramid ∧
      pyramid.ClosedForm placement columns rows levels low weight ∧
      (low 0).raster = (if fillHoles then source.map Pixel.unpremultiply else source) ∧
      (low 0).frame = placement ∧ (weight 0).raster = mask ∧ (weight 0).frame = placement) ∧
    (¬ Fitting source placement mask levels → ∃ problem,
      build source placement columns rows mask levels fillHoles = .error (.problem problem)) := by
  refine ⟨fun hfit => ?_, refuses_of_not_fitting⟩
  have hblur : Blurrable (Pixel format κ) placement := by
    refine ⟨?_, hclear⟩
    rw [hfit.source_fills.1, hfit.source_fills.2]
    exact hroom
  exact ⟨_, _, _, (answers_build_closed hfit hblur).eq_ok, hfit.closedForm hblur,
    rfl, rfl, rfl, rfl⟩

/-- Three grey pixels of which one covers nothing. -/
def slit : Raster (Pixel .grayAlpha Float32) :=
  Raster.tabulate 1 3 fun _ y => if y = 1 then 0 else ⟨#v[0.625, 1]⟩

/-- They lie across the corner of the canvas, with a mask and three levels. -/
theorem builds_closed_form_slit : ∃ pyramid low weight,
    build slit ⟨-1, -1, 1, 3⟩ 5 4 (Raster.tabulate 1 3 fun _ _ => 1) 3 true = .ok pyramid ∧
    pyramid.ClosedForm ⟨-1, -1, 1, 3⟩ 5 4 3 low weight ∧
    (low 0).raster = slit.map Pixel.unpremultiply ∧ (low 0).frame = ⟨-1, -1, 1, 3⟩ ∧
    (weight 0).raster = Raster.tabulate 1 3 (fun _ _ => 1) ∧
    (weight 0).frame = ⟨-1, -1, 1, 3⟩ :=
  (builds_closed_form slit ⟨-1, -1, 1, 3⟩ 5 4 (Raster.tabulate 1 3 fun _ _ => 1) 3 true
    (by unfold Room; decide) (fun _ => by decide)).1 ⟨by decide, by decide, by decide⟩

end Pyramid

end Patchwork
