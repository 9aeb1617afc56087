import Patchwork.Pyramid
import Patchwork.Proofs.Patch.Layers

/-!
# What a pyramid holds

`Pyramid.build` runs two chains of images side by side and checks every rectangle on the way.  Here
the images of all resolutions are total functions of what the pyramid was built from, and each level
is described by two of them: a band is the difference between a resolution and the doubled next one,
multiplied by the mask of its resolution.

## Main definitions

* `Placed.halved` — an image one resolution down, without the checks.
* `Pyramid.pictures` — the images between which the bands are taken.
* `Pyramid.Level.Holds` — what the level of a resolution consists of.

## Main statements

* `Pyramid.ends_bands`, `Pyramid.ends_build` — the levels of a pyramid.
-/

namespace Patchwork

open Outcome Coordinate
open Rect (half)

variable {κ α : Type} [Channel κ] [Cell κ α] {format : Format}

/-! ## Placed images without the checks -/

namespace Placed

/-- The image one resolution down. -/
def halved (p : Placed α) : Placed α :=
  ⟨p.raster.shrink p.frame (half p.frame), half p.frame, (p.columns + 1) / 2, (p.rows + 1) / 2,
    rfl, rfl⟩

/-- The value of the image at a point of the canvas, zero outside its rectangle. -/
def sample (p : Placed α) (q : Point) : α := p.raster.cell p.frame q

omit [Channel κ] in
theorem sample_eq_zero {p : Placed α} {q : Point} (h : q ∉ p.frame) : p.sample q = 0 :=
  Raster.cell_eq_zero p.fills h

@[simp] theorem frame_halved (p : Placed α) : p.halved.frame = half p.frame := rfl

theorem frame_halved_iterate (p : Placed α) (k : Nat) :
    (halved^[k] p).frame = half^[k] p.frame := by
  induction k generalizing p with
  | zero => rfl
  | succ k ih => exact ih p.halved

@[simp] theorem frame_unpremultiply (p : Placed (Pixel format κ)) :
    p.unpremultiply.frame = p.frame := rfl

/-- Halving checks that the halved rectangle exists. -/
theorem ends_reduce (p : Placed α) :
    Ends IsRange (fun c => c = p.halved ∧ p.frame.reduced = .ok c.frame) p.reduce := by
  apply (Raster.ends_coarseFrame_reduced p.frame).bind
  intro coarse hcoarse
  have hhalf : coarse = half p.frame := (Rect.ends_reduced p.frame).of_ok hcoarse
  subst hhalf
  exact ⟨rfl, hcoarse⟩

/-- The image less a coarser one, at each point. -/
theorem ends_minusExpanded (p coarse : Placed α) :
    Ends IsRange (fun d => d.frame = p.frame ∧
        ∀ q, q ∈ p.frame → d.sample q = p.sample q - Raster.stretchAt coarse.sample q)
      (p.minusExpanded coarse) := by
  refine ((Raster.ends_expand coarse.raster coarse.frame p.frame).weaken ?_).bind ?_
  · rintro cause (hc | ⟨hc, -⟩)
    · exact .inl hc
    · exact .inr hc
  rintro _ ⟨rfl, -⟩
  refine ⟨rfl, ?_⟩
  intro q hq
  have hup := Raster.fills_stretch coarse.raster coarse.frame p.frame
  exact (Raster.cell_zipWith p.fills hup hq).trans
    (congrArg _ (Raster.cell_stretch coarse.raster coarse.frame hq))

/-- The image times a mask over the same rectangle, at each point. -/
theorem ends_masked (p : Placed α) {mask : Placed κ} (hmask : mask.frame = p.frame) :
    Ends IsRange (fun m => m.frame = p.frame ∧
        ∀ q, q ∈ p.frame → m.sample q = scale (p.sample q) (mask.sample q))
      (p.masked mask) := by
  have hover : ∀ v : Int, Ends IsRange (fun w => w = v) (checked v) := fun v =>
    (ends_checked_eq v).weaken fun _ => IsOverflow.isRange
  have hrun : ∀ (v : Int) (n : Nat), Ends IsRange (fun _ => True) (Coordinate.run v n) :=
    fun v n => (ends_require _ _).mono (fun _ hc => .inl hc.1) fun _ _ => trivial
  refine (hover _).bind_eq ?_
  refine (hover _).bind_eq ?_
  have hsample : ∀ q, q ∈ p.frame →
      (Raster.tabulate p.raster.width p.raster.height fun x y => scale (p.raster.peek x y)
        (mask.raster.peek (x + (p.frame.x - mask.frame.x)) (y + (p.frame.y - mask.frame.y)))).cell
          p.frame q = scale (p.sample q) (mask.sample q) := by
    intro q hq
    rw [← p.fills.1, ← p.fills.2, Raster.cell_tabulate hq]
    have hx : ((q.x - p.frame.x).toNat : Int) = q.x - p.frame.x := by
      rw [Rect.mem_iff] at hq
      omega
    have hy : ((q.y - p.frame.y).toNat : Int) = q.y - p.frame.y := by
      rw [Rect.mem_iff] at hq
      omega
    rw [hx, hy, hmask, Int.sub_self, Int.sub_self, Int.add_zero, Int.add_zero, sample, sample,
      Raster.cell, Raster.cell, hmask]
  by_cases hcells : p.raster.width ≠ 0 ∧ p.raster.height ≠ 0
  · rw [if_pos hcells]
    exact (hrun _ _).bind fun _ _ => (hrun _ _).bind fun _ _ => ⟨rfl, hsample⟩
  · rw [if_neg hcells]
    exact ⟨rfl, hsample⟩

end Placed

/-! ## The levels -/

namespace Pyramid

/-- The images between which bands are taken: the first, then the unpremultiplied ones of the chain
that starts with `blurred`. -/
def pictures (image blurred : Placed (Pixel format κ)) : Nat → Placed (Pixel format κ)
  | 0 => image
  | k + 1 => (Placed.halved^[k] blurred).unpremultiply

/-- The unmasked band of resolution `k` at a point, when `coarser` resolutions follow. -/
def bandAt (picture : Nat → Placed (Pixel format κ)) (k : Nat) : Nat → Point → Pixel format κ
  | 0, q => (picture k).sample q
  | _ + 1, q => (picture k).sample q - Raster.stretchAt (picture (k + 1)).sample q

/-- What the level of a resolution consists of. -/
structure Level.Holds (level : Level format κ) (frame : Rect) (band : Point → Pixel format κ)
    (mask : Placed κ) : Prop where
  /-- The mask of the resolution. -/
  mask_eq : level.mask = mask
  /-- Where the band lies. -/
  frame_eq : level.image.frame = frame
  /-- The band times the mask. -/
  image_sample : ∀ q, q ∈ frame → level.image.sample q = scale (band q) (mask.sample q)

theorem pictures_succ (image blurred : Placed (Pixel format κ)) (k : Nat) :
    pictures image blurred (k + 1) = pictures blurred.unpremultiply blurred.halved k := by
  cases k <;> rfl

theorem bandAt_succ (image blurred : Placed (Pixel format κ)) (k coarser : Nat) :
    bandAt (pictures image blurred) (k + 1) coarser =
      bandAt (pictures blurred.unpremultiply blurred.halved) k coarser := by
  funext q
  cases coarser <;> simp only [bandAt, pictures_succ]

/-- The bands of a source, when the rectangle of `image` is the `start`-fold reduced one of `r`. -/
theorem ends_bands {r : Rect} {start coarser : Nat} {image blurred : Placed (Pixel format κ)}
    {mask : Placed κ} (hstart : r.reducedBy start = .ok image.frame)
    (hblurred : image.frame.reduced = .ok blurred.frame) (hmask : mask.frame = image.frame) :
    Ends IsRange (fun levels => levels.length = coarser + 1 ∧
        ∀ (k : Nat) (level : Level format κ), levels[k]? = some level →
          r.reducedBy (start + k) = .ok (half^[k] image.frame) ∧
          level.Holds (half^[k] image.frame)
            (bandAt (pictures image blurred) k (coarser - k)) (Placed.halved^[k] mask))
      (bands coarser image blurred mask) := by
  induction coarser generalizing start image blurred mask with
  | zero =>
    apply (image.ends_masked hmask).bind
    rintro band ⟨hframe, hband⟩
    refine ⟨rfl, ?_⟩
    intro k level hk
    obtain rfl : k = 0 := by
      have := (List.getElem?_eq_some_iff.mp hk).1
      simpa using this
    simp only [List.getElem?_cons_zero, Option.some.injEq] at hk
    subst hk
    exact ⟨hstart, rfl, hframe, hband⟩
  | succ coarser ih =>
    have hhalf : blurred.frame = half image.frame := (Rect.ends_reduced _).of_ok hblurred
    apply blurred.ends_reduce.bind
    rintro _ ⟨rfl, hnext⟩
    apply (image.ends_minusExpanded blurred.unpremultiply).bind
    rintro detail ⟨hdetailframe, hdetail⟩
    apply (detail.ends_masked (hmask.trans hdetailframe.symm)).bind
    rintro band ⟨hbandframe, hband⟩
    apply mask.ends_reduce.bind
    rintro _ ⟨rfl, -⟩
    have hstart' : r.reducedBy (start + 1) = .ok blurred.unpremultiply.frame :=
      bind_eq_ok_iff.mpr ⟨image.frame, hstart, hblurred⟩
    have hmask' : mask.halved.frame = blurred.unpremultiply.frame := by
      rw [Placed.frame_halved, Placed.frame_unpremultiply, hmask, hhalf]
    apply (ih hstart' hnext hmask').bind
    rintro rest ⟨hlength, hrest⟩
    refine ⟨by simp [hlength], ?_⟩
    intro k level hk
    cases k with
    | zero =>
      simp only [List.getElem?_cons_zero, Option.some.injEq] at hk
      subst hk
      refine ⟨hstart, rfl, hbandframe.trans hdetailframe, ?_⟩
      intro q hq
      rw [hband q (hdetailframe ▸ hq), hdetail q hq]
      rfl
    | succ k =>
      obtain ⟨hreduced, hholds⟩ := hrest k level hk
      have hindex : start + 1 + k = start + (k + 1) := by omega
      rw [hindex, Placed.frame_unpremultiply, hhalf] at hreduced
      rw [Placed.frame_unpremultiply, hhalf] at hholds
      rw [bandAt_succ, Nat.add_sub_add_right]
      exact ⟨hreduced, hholds⟩

/-- What a pyramid is made of fits together. -/
structure Fitting (source : Raster (Pixel format κ)) (placement : Rect) (mask : Raster κ)
    (levels : Nat) : Prop where
  /-- There is a level. -/
  levels_pos : 0 < levels
  /-- The pixels fill the placement. -/
  source_fills : source.Fills placement
  /-- The mask fills it, too. -/
  mask_fills : mask.Fills placement

/-- What a pyramid consists of, for the pixels and the mask it was built from. -/
structure Holds (pyramid : Pyramid format κ) (placement : Rect)
    (image : Placed (Pixel format κ)) (weight : Placed κ) (levels : Nat) : Prop where
  /-- The pixels lie at the placement. -/
  image_frame : image.frame = placement
  /-- So does the mask. -/
  weight_frame : weight.frame = placement
  /-- Each resolution has its level. -/
  length : pyramid.levels.length = levels
  /-- The rectangle of each level is the reduced placement. -/
  reduced : ∀ (k : Nat) (level : Level format κ), pyramid.levels[k]? = some level →
    placement.reducedBy k = .ok (half^[k] placement)
  /-- The levels. -/
  level : ∀ (k : Nat) (level : Level format κ), pyramid.levels[k]? = some level →
    level.Holds (half^[k] placement) (bandAt (pictures image image.halved) k (levels - 1 - k))
      (Placed.halved^[k] weight)

/-- **The levels of a pyramid.**  When the pixels and the mask fit, nothing but a coordinate or a
raster out of range keeps it from being built. -/
theorem ends_build (source : Raster (Pixel format κ)) (placement : Rect) (columns rows : Nat)
    (mask : Raster κ) (levels : Nat) (fillHoles : Bool) :
    Ends (fun cause => IsRange cause ∨ ¬ Fitting source placement mask levels)
      (fun pyramid => Fitting source placement mask levels ∧
        ∃ (image : Placed (Pixel format κ)) (weight : Placed κ),
          image.raster = (if fillHoles then source.map Pixel.unpremultiply else source) ∧
          weight.raster = mask ∧ pyramid.Holds placement image weight levels)
      (build source placement columns rows mask levels fillHoles) := by
  unfold build
  by_cases hzero : levels = 0
  · rw [if_pos hzero]
    exact .inr fun hfit => absurd hzero (Nat.ne_of_gt hfit.levels_pos)
  rw [if_neg hzero]
  by_cases hsize : mask.width ≠ source.width ∨ mask.height ≠ source.height
  · rw [if_pos hsize]
    refine .inr ?_
    intro hfit
    have hw := hfit.mask_fills.1.symm.trans hfit.source_fills.1
    have hh := hfit.mask_fills.2.symm.trans hfit.source_fills.2
    exact hsize.elim (· hw) (· hh)
  rw [if_neg hsize]
  simp only [not_or, not_not] at hsize
  generalize hpixels : (if fillHoles then source.map Pixel.unpremultiply else source) = pixels
  have hfills : pixels.Fills placement ↔ source.Fills placement := by
    subst hpixels
    cases fillHoles <;> exact Iff.rfl
  by_cases hsource : source.Fills placement
  · have hmask : mask.Fills placement :=
      ⟨hsource.1.trans hsize.1.symm, hsource.2.trans hsize.2.symm⟩
    have hfit : Fitting source placement mask levels := ⟨Nat.pos_of_ne_zero hzero, hsource, hmask⟩
    simp only [Placed.place, dif_pos (hfills.mpr hsource), dif_pos hmask]
    refine Ends.bind_eq
      (a := Placed.mk pixels placement columns rows (hfills.mpr hsource)) rfl ?_
    apply ((Placed.ends_reduce _).weaken fun _ => .inl).bind
    rintro _ ⟨rfl, hreduced⟩
    refine Ends.bind_eq (a := Placed.mk mask placement columns rows hmask) rfl ?_
    have hstart : placement.reducedBy 0 = .ok placement := rfl
    apply ((ends_bands hstart hreduced rfl).weaken fun _ => .inl).bind
    rintro bands ⟨hlength, hbands⟩
    refine ⟨hfit, ⟨pixels, placement, columns, rows, hfills.mpr hsource⟩,
      ⟨mask, placement, columns, rows, hmask⟩, rfl, rfl, rfl, rfl, ?_, ?_, ?_⟩
    · rw [hlength, Nat.sub_add_cancel hfit.levels_pos]
    · intro k level hk
      simpa only [Nat.zero_add] using (hbands k level hk).1
    · intro k level hk
      exact (hbands k level hk).2
  · simp only [Placed.place, dif_neg (mt hfills.mp hsource)]
    exact .inr fun hfit => hsource hfit.source_fills

/-- Each level of a built pyramid lies at the reduced placement. -/
theorem reducedBy_of_build {source : Raster (Pixel format κ)} {placement : Rect}
    {columns rows : Nat} {mask : Raster κ} {levels : Nat} {fillHoles : Bool}
    {pyramid : Pyramid format κ}
    (h : build source placement columns rows mask levels fillHoles = .ok pyramid) {k : Nat}
    {level : Level format κ} (hk : pyramid.levels[k]? = some level) :
    placement.reducedBy k = .ok level.image.frame ∧
      placement.reducedBy k = .ok level.mask.frame := by
  obtain ⟨-, image, weight, -, -, hholds⟩ :=
    (ends_build source placement columns rows mask levels fillHoles).of_ok h
  have hlevel := hholds.level k level hk
  have hmask : level.mask.frame = half^[k] placement := by
    rw [hlevel.mask_eq, Placed.frame_halved_iterate, hholds.weight_frame]
  rw [hlevel.frame_eq, hmask]
  exact ⟨hholds.reduced k level hk, hholds.reduced k level hk⟩

end Pyramid

end Patchwork
