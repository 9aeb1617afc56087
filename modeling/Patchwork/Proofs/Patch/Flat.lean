import Mathlib.Algebra.BigOperators.Ring.List
import Mathlib.Data.Set.Finite.List
import Mathlib.Data.Set.Finite.Lemmas
import Mathlib.Order.Interval.Set.Basic
import Patchwork.Proofs.Patch.Coverage

/-!
# Sources of one colour

A sheet is a source of one opaque colour.  Halving darkens it at its edges, since nothing lies
outside, but what is left there is still a multiple of the colour, and freeing it of its coverage
gives the colour back.  So all pictures of a sheet show its colour wherever its mask is positive,
its bands above the coarsest level are zero, and the coarsest level mixes the colours of the sheets
with the masks as weights.  Doubling is a mean as well, so a blended pixel stays between the colours
that have a share in it.

## Main definitions

* `Sheet` — a source of one opaque colour.
* `PatchSource.Plain` — a source that adds its colour at the coarsest level and nothing above it.

## Main statements

* `Sheet.picture_eq` — the pictures of a sheet.
* `Patch.collapseFrom_mem_Icc` — a mixture of colours stays between bounds of these.
* `Patch.keeps_colour_range` — the pixels of a patch of sheets.
-/

namespace Patchwork

open Outcome Channel
open Rect (half)

variable {format : Format}

/-! ## One value of a pixel -/

namespace Pixel

variable {i : Nat} {hi : i < format.channels}

theorem zero_scale (s : ℚ) : scale (0 : Pixel format ℚ) s = 0 := by
  apply ext_getElem
  intro i hi
  rw [getElem_scale, getElem_zero, zero_mul]

theorem getElem_between (f : Int → Pixel format ℚ) (c : Int) :
    (Raster.between f c).channels[i] = Raster.between (fun j => (f j).channels[i]) c := by
  simp only [Raster.between]
  split
  · rfl
  · rw [getElem_scale, getElem_add]
    rfl

theorem getElem_stretchAt (f : Point → Pixel format ℚ) (p : Point) :
    (Raster.stretchAt f p).channels[i] = Raster.stretchAt (fun q => (f q).channels[i]) p := by
  simp only [Raster.stretchAt, getElem_between]

end Pixel

/-! ## Multiples of a colour -/

/-- Adding and scaling do not lead out of a set of cells. -/
structure Raster.Closed {α : Type} [Cell ℚ α] (S : α → Prop) : Prop where
  /-- Zero lies in it. -/
  zero : S 0
  /-- So does the sum of two. -/
  add {a b : α} : S a → S b → S (a + b)
  /-- So does a multiple. -/
  scale {a : α} (v : ℚ) : S a → S (scale a v)

namespace Raster.Closed

variable {α : Type} [Cell ℚ α] {S : α → Prop}

theorem tabulate (hS : Closed S) {f : Nat → Nat → α} (h : ∀ i j, S (f i j)) (w l : Nat)
    (x y : Int) : S ((Raster.tabulate w l f).peek x y) := by
  by_cases hhas : (Raster.tabulate w l f).Has x y
  · rw [peek_tabulate_int hhas]
    exact h _ _
  · rw [peek_eq_zero hhas]
    exact hS.zero

theorem blurred (hS : Closed S) {f : Int → α} (h : ∀ j, S (f j)) (c : Int) :
    S (Raster.blurred f c) :=
  hS.add (hS.add (hS.add hS.zero (hS.scale _ (h _))) (hS.scale _ (h _))) (hS.scale _ (h _))

theorem shrink (hS : Closed S) {source : Raster α} (h : ∀ x y, S (source.peek x y))
    (frame coarse : Rect) (x y : Int) : S ((source.shrink frame coarse).peek x y) := by
  have hrows : ∀ x y, S ((source.shrinkRows frame coarse).peek x y) :=
    hS.tabulate (fun _ _ => hS.blurred (fun _ => h _ _) _) _ _
  rw [Raster.shrink]
  exact hS.tabulate (fun _ _ => hS.blurred (fun _ => hrows _ _) _) _ _ x y

theorem halved (hS : Closed S) {p : Placed α} (h : ∀ x y, S (p.raster.peek x y)) (k : Nat)
    (x y : Int) : S ((Placed.halved^[k] p).raster.peek x y) := by
  induction k generalizing p with
  | zero => exact h x y
  | succ k ih =>
    have hhalved : ∀ x y, S (p.halved.raster.peek x y) := hS.shrink h p.frame (half p.frame)
    rw [Function.iterate_succ_apply]
    exact ih hhalved

end Raster.Closed

namespace Pixel

/-- The pixel is the colour, scaled by the coverage of the pixel. -/
def Tinted (colour p : Pixel format ℚ) : Prop :=
  ∀ (i : Nat) (hi : i < format.channels), p.channels[i] = colour.channels[i] * p.alpha

theorem Tinted.zero (h : format.hasAlpha = true) (colour : Pixel format ℚ) : Tinted colour 0 := by
  intro i hi
  rw [alpha_zero h, getElem_zero, mul_zero]

theorem closed_tinted (h : format.hasAlpha = true) (colour : Pixel format ℚ) :
    Raster.Closed (Tinted colour) where
  zero := Tinted.zero h colour
  add {p q} hp hq := by
    intro i hi
    rw [alpha_add h, getElem_add, hp i hi, hq i hi, mul_add]
  scale {p} v hp := by
    intro i hi
    rw [alpha_scale h, getElem_scale, hp i hi, mul_assoc]

/-- Without its coverage a tinted pixel is the colour. -/
theorem Tinted.unpremultiply (h : format.hasAlpha = true) {colour p : Pixel format ℚ}
    (hp : Tinted colour p) (halpha : 0 < p.alpha) : p.unpremultiply = colour := by
  have hfinite : Channel.isFinite p.alpha = true := rfl
  simp only [Pixel.unpremultiply, h, hfinite, halpha, and_true, if_true]
  apply ext_getElem
  intro i hi
  rw [getElem_scale, hp i hi, mul_one_div, mul_div_cancel_right₀ _ halpha.ne']

end Pixel

/-! ## Sheets -/

/-- A source of one opaque colour. -/
structure Sheet (format : Format) where
  /-- What the sheet covers. -/
  placement : Rect
  /-- Its colour. -/
  colour : Pixel format ℚ
  /-- The pyramid is at hand. -/
  resident : Bool
  /-- The colour covers fully. -/
  full : colour.alpha = 1

/-- The pixels of a sheet. -/
def Sheet.original (s : Sheet format) : Original format ℚ where
  raster := Raster.tabulate s.placement.columns s.placement.rows fun _ _ => s.colour
  placement := s.placement
  resident := s.resident
  fills := ⟨rfl, rfl⟩

namespace Sheet

/-- Sheets as sources. -/
def originals (sheets : List (Sheet format)) : List (Original format ℚ) :=
  sheets.map Sheet.original

variable {s : Sheet format}

theorem peek_original (s : Sheet format) (x y : Int) :
    s.original.raster.peek x y = s.colour ∨ s.original.raster.peek x y = 0 := by
  by_cases hhas : s.original.raster.Has x y
  · exact .inl (Raster.peek_tabulate_int hhas)
  · exact .inr (Raster.peek_eq_zero hhas)

theorem sample_original {p : Point} (hp : p ∈ s.placement) : s.original.sample p = s.colour :=
  Raster.cell_tabulate hp

/-- A sheet shows its colour where it lies. -/
theorem visible_original {p : Point} (hp : p ∈ s.placement) : s.original.visible p = s.colour := by
  have hsample := sample_original hp
  rw [Original.visible, hsample, s.full, if_pos ⟨hp, zero_lt_one⟩]

theorem nonNegative (s : Sheet format) : s.original.NonNegative := by
  intro pixel hpixel
  obtain ⟨k, hk, rfl⟩ := Array.mem_iff_getElem.mp hpixel
  have hcolour : s.original.raster.data[k] = s.colour := Array.getElem_ofFn _
  rw [hcolour, s.full]
  exact zero_le_one

section Pictures

open Pyramid

variable {source : PatchSource Outcome format ℚ} {levels k : Nat}
  {image : Placed (Pixel format ℚ)} {weight : Placed ℚ} {q : Point}

/-- **The pictures of a sheet** show its colour wherever its mask is positive. -/
theorem picture_eq (h : format.hasAlpha = true) (V : source.Veiled levels image weight)
    (himage : image.raster = s.original.raster) (hq : 0 < weightAt weight k q) :
    (pictures image image.halved k).sample q = s.colour := by
  have hpeek : ∀ x y, image.raster.peek x y = s.colour ∨ image.raster.peek x y = 0 :=
    himage ▸ s.peek_original
  cases k with
  | zero =>
    have hcovered : 0 < (image.sample q).alpha := V.covered q hq
    have hsample : image.sample q = s.colour ∨ image.sample q = 0 := hpeek _ _
    refine hsample.resolve_right fun hzero => ?_
    rw [hzero, Pixel.alpha_zero h] at hcovered
    exact lt_irrefl (0 : ℚ) hcovered
  | succ k =>
    -- what the blur leaves of the colour at the edges is still a multiple of it
    have htinted : ∀ x y, (s.colour).Tinted (image.raster.peek x y) := by
      intro x y
      obtain hcolour | hzero := hpeek x y
      · intro i hi
        rw [hcolour, s.full, mul_one]
      · rw [hzero]
        exact Pixel.Tinted.zero h s.colour
    have hblurred : (s.colour).Tinted ((Placed.halved^[k] image.halved).sample q) :=
      (Pixel.closed_tinted h s.colour).halved htinted (k + 1) _ _
    have hopaque := V.opaque_succ h k q hq
    rw [pictures, Placed.alpha_sample_unpremultiply h] at hopaque
    have halpha : 0 < ((Placed.halved^[k] image.halved).sample q).alpha := by
      by_contra hnot
      rw [if_neg hnot] at hopaque
      exact zero_ne_one hopaque
    have hmem : q ∈ (Placed.halved^[k] image.halved).frame := by
      by_contra hout
      rw [Placed.sample_eq_zero hout, Pixel.alpha_zero h] at halpha
      exact lt_irrefl (0 : ℚ) halpha
    have hmap : (pictures image image.halved (k + 1)).sample q =
        ((Placed.halved^[k] image.halved).sample q).unpremultiply :=
      Raster.cell_map (Placed.halved^[k] image.halved).fills hmem
    rw [hmap, hblurred.unpremultiply h halpha]

/-- The bands above the coarsest level are zero under the mask. -/
theorem bandAt_eq_zero (h : format.hasAlpha = true) (V : source.Veiled levels image weight)
    (himage : image.raster = s.original.raster) (coarser : Nat) (hq : 0 < weightAt weight k q) :
    bandAt (pictures image image.halved) k (coarser + 1) q = 0 := by
  apply Pixel.ext_getElem
  intro i hi
  have hcoarse : ∀ r : Point, r.Spreads q →
      ((pictures image image.halved (k + 1)).sample r).channels[i] = s.colour.channels[i] :=
    fun r hr => by rw [picture_eq h V himage (weightAt_pos V.nonneg hq hr)]
  rw [bandAt, Pixel.getElem_sub, Pixel.getElem_stretchAt, stretchAt_of_const hcoarse,
    picture_eq h V himage hq, sub_self, Pixel.getElem_zero]

end Pictures

end Sheet

/-! ## What a sheet adds to a patch -/

/-- The source adds a colour at the coarsest level, as far as its mask reaches, and nothing above
it. -/
structure PatchSource.Plain (source : PatchSource Outcome format ℚ) (levels : Nat)
    (colour : Pixel format ℚ) : Prop where
  /-- Nothing is added to a level above the coarsest. -/
  inner : ∀ k q value, k + 1 < levels → source.addBand k q value = value
  /-- The coarsest level. -/
  last : ∀ k q value, k + 1 = levels →
    source.addBand k q value = value + scale colour (source.maskAt k q)

theorem Sheet.plain (h : format.hasAlpha = true) {s : Sheet format}
    {source : PatchSource Outcome format ℚ} {levels : Nat} {image : Placed (Pixel format ℚ)}
    {weight : Placed ℚ} (V : source.Veiled levels image weight)
    (himage : image.raster = s.original.raster) : source.Plain levels s.colour := by
  constructor
  · intro k q value hk
    obtain ⟨coarser, hcoarser⟩ : ∃ coarser, levels - 1 - k = coarser + 1 :=
      ⟨levels - 2 - k, by omega⟩
    rw [V.addBand_eq (by omega), hcoarser]
    rcases (Pyramid.weightAt_nonneg V.nonneg k q).eq_or_lt with hzero | hpos
    · rw [← hzero, Pixel.scale_zero, Pixel.add_zero_right]
    · rw [s.bandAt_eq_zero h V himage coarser hpos, Pixel.zero_scale, Pixel.add_zero_right]
  · intro k q value hk
    have hindex : levels - 1 - k = 0 := by omega
    rw [V.addBand_eq (by omega), V.maskAt_eq (by omega), hindex, Pyramid.bandAt]
    rcases (Pyramid.weightAt_nonneg V.nonneg k q).eq_or_lt with hzero | hpos
    · rw [← hzero, Pixel.scale_zero, Pixel.scale_zero]
    · rw [s.picture_eq h V himage hpos]

namespace Patch

open Pyramid

/-! ## Mixing colours -/

theorem between_mem_Icc {f : Int → ℚ} {low high : ℚ} {c : Int}
    (h : ∀ j, 2 * j - 1 ≤ c → c ≤ 2 * j + 1 → f j ∈ Set.Icc low high) :
    Raster.between f c ∈ Set.Icc low high := by
  rw [between_eq]
  split
  · exact h _ (by omega) (by omega)
  · obtain ⟨hlow, hhigh⟩ := h (c / 2) (by omega) (by omega)
    obtain ⟨hlow', hhigh'⟩ := h (c / 2 + 1) (by omega) (by omega)
    constructor <;> linarith

/-- A doubling stays between bounds of what it reads. -/
theorem stretchAt_mem_Icc {f : Point → ℚ} {low high : ℚ} {p : Point}
    (h : ∀ q : Point, q.Spreads p → f q ∈ Set.Icc low high) :
    Raster.stretchAt f p ∈ Set.Icc low high :=
  between_mem_Icc fun _ hylow hyhigh => between_mem_Icc fun _ hxlow hxhigh =>
    h _ ⟨hxlow, hxhigh, hylow, hyhigh⟩

/-- A mean stays between bounds of what it is a mean of. -/
theorem mean_mem_Icc {γ : Type} {share weight : γ → ℚ} {low high : ℚ} {l : List γ}
    (h : ∀ c ∈ l, low * weight c ≤ share c ∧ share c ≤ high * weight c)
    (hpos : 0 < (l.map weight).sum) :
    (l.map share).sum / (l.map weight).sum ∈ Set.Icc low high := by
  constructor
  · rw [le_div_iff₀ hpos, ← List.sum_map_mul_left]
    exact List.sum_le_sum fun c hc => (h c hc).1
  · rw [div_le_iff₀ hpos, ← List.sum_map_mul_left]
    exact List.sum_le_sum fun c hc => (h c hc).2

variable {queue : List (PatchSource Outcome format ℚ)} {levels k i : Nat} {q : Point}
  {hi : i < format.channels} {low high : ℚ}

/-- The sources are opaque, each adds one colour, and one value of these lies between bounds. -/
structure PlainBetween (queue : List (PatchSource Outcome format ℚ)) (levels i : Nat)
    (hi : i < format.channels) (low high : ℚ) : Prop where
  /-- The sources are opaque at every level. -/
  full : OpaqueFrom 0 queue levels
  /-- Each adds one colour. -/
  plain : ∀ s ∈ queue, ∃ colour : Pixel format ℚ, s.Plain levels colour ∧
    colour.channels[i] ∈ Set.Icc low high

/-- Levels above the coarsest have nothing to show. -/
theorem PlainBetween.meanAt_inner (B : PlainBetween queue levels i hi low high)
    (hk : k + 1 < levels) (q : Point) : meanAt queue k q = 0 := by
  have hsum : bandSum queue k q = 0 := by
    refine List.foldlRecOn (motive := (· = 0)) queue _ rfl ?_
    rintro _ rfl s hs
    obtain ⟨colour, hplain, -⟩ := B.plain s hs
    exact hplain.inner k q 0 hk
  rw [meanAt, hsum, weightedMean]
  split
  · exact Pixel.zero_scale _
  · rfl

/-- The coarsest level mixes the colours. -/
theorem PlainBetween.meanAt_last (B : PlainBetween queue levels i hi low high)
    (hk : k + 1 = levels) (hq : 0 < weightSum queue k q) :
    (meanAt queue k q).channels[i] ∈ Set.Icc low high := by
  have hshare : ∀ s ∈ queue, ∀ value : Pixel format ℚ,
      (s.addBand k q value).channels[i] =
        value.channels[i] + (s.addBand k q 0).channels[i] := by
    intro s hs value
    obtain ⟨colour, hplain, -⟩ := B.plain s hs
    rw [hplain.last k q value hk, hplain.last k q 0 hk, Pixel.getElem_add, Pixel.getElem_add,
      Pixel.getElem_zero, zero_add]
  have hsum : (bandSum queue k q).channels[i] =
      (queue.map fun s => (s.addBand k q 0).channels[i]).sum :=
    (foldl_eq_sum (fun p : Pixel format ℚ => p.channels[i]) hshare 0).trans
      (by rw [Pixel.getElem_zero, zero_add])
  have hweight := weightSum_eq B.full (by omega : k < levels) q
  have hmean : (meanAt queue k q).channels[i] =
      (queue.map fun s => (s.addBand k q 0).channels[i]).sum /
        (queue.map fun s => s.maskAt k q).sum := by
    rw [meanAt, weightedMean, ratio?_rat, if_pos hq]
    simp only
    rw [Pixel.getElem_scale, hsum, hweight, mul_one_div]
  rw [hmean]
  refine mean_mem_Icc ?_ (hweight ▸ hq)
  intro s hs
  obtain ⟨colour, hplain, hlow, hhigh⟩ := B.plain s hs
  have hmask := maskAt_nonneg B.full (by omega : k < levels) q s hs
  rw [hplain.last k q 0 hk, Pixel.getElem_add, Pixel.getElem_zero, zero_add,
    Pixel.getElem_scale]
  exact ⟨mul_le_mul_of_nonneg_right hlow hmask, mul_le_mul_of_nonneg_right hhigh hmask⟩

/-- **A mixture of colours** stays between bounds of these, under a positive mask. -/
theorem collapseFrom_mem_Icc (B : PlainBetween queue levels i hi low high) {coarser : Nat}
    (hk : k + coarser + 1 = levels) (hq : 0 < weightSum queue k q) :
    (collapseFrom (meanAt queue) coarser k q).channels[i] ∈ Set.Icc low high := by
  induction coarser generalizing k q with
  | zero => exact B.meanAt_last hk hq
  | succ coarser ih =>
    rw [collapseFrom, Pixel.getElem_add, B.meanAt_inner (by omega), Pixel.getElem_zero, zero_add,
      Pixel.getElem_stretchAt]
    apply stretchAt_mem_Icc
    intro r hr
    exact ih (by omega) (weightSum_pos_of_spreads B.full (by omega) hq hr)

/-! ## A patch of sheets -/

variable {sheets : List (Sheet format)} {columns rows : Nat} {p : Point}

/-- A source that is selected for a pixel was made from a sheet that reaches it. -/
theorem Supplied.exists_sheet (h : format.hasAlpha = true)
    (S : Supplied false (Sheet.originals sheets) levels columns rows p)
    {source : PatchSource Outcome format ℚ}
    (hsource : source ∈ queueAt false (Sheet.originals sheets) levels columns rows p) :
    ∃ s ∈ sheets, s.placement.Meets (Footprint.catchment (dot p) levels) ∧
      ∃ image weight, source.Veiled levels image weight ∧
        image.raster = s.original.raster := by
  obtain ⟨hmem, hmeets⟩ := mem_selection.mp hsource
  obtain ⟨index, o, ho, rfl⟩ := Original.mem_sourcesWith.mp hmem
  obtain ⟨s, hs, rfl⟩ := List.mem_map.mp (List.mem_of_getElem? ho)
  obtain ⟨pyramid, hpyramid⟩ := S.pyramids _ hsource
  obtain ⟨image, weight, himage, hmask, hholds⟩ :=
    (Original.ends_pyramidWith S.levels_pos ho).of_ok hpyramid
  have hkept := Original.Kept.of_holds h ho s.nonNegative hpyramid himage hmask hholds
  exact ⟨s, hs, hmeets, image, weight, hkept.veiled, himage⟩

/-- The sources of a pixel are opaque at every level. -/
theorem Supplied.opaqueFrom_sheets (h : format.hasAlpha = true)
    (S : Supplied false (Sheet.originals sheets) levels columns rows p) :
    OpaqueFrom 0 (queueAt false (Sheet.originals sheets) levels columns rows p) levels := by
  intro source hsource
  obtain ⟨s, -, -, image, weight, V, himage⟩ := S.exists_sheet h hsource
  refine ⟨image, weight, V, ?_⟩
  intro k _ q hq
  rw [s.picture_eq h V himage hq, s.full]

/-- The sources of a pixel, when one value of the colours that reach it lies between bounds. -/
theorem Supplied.plainBetween (h : format.hasAlpha = true)
    (S : Supplied false (Sheet.originals sheets) levels columns rows p) (hi : i < format.channels)
    (hbounds : ∀ s ∈ sheets, s.placement.Meets (Footprint.catchment (dot p) levels) →
      s.colour.channels[i] ∈ Set.Icc low high) :
    PlainBetween (queueAt false (Sheet.originals sheets) levels columns rows p) levels i hi low
      high := by
  refine ⟨S.opaqueFrom_sheets h, ?_⟩
  intro source hsource
  obtain ⟨s, hs, hmeets, image, weight, V, himage⟩ := S.exists_sheet h hsource
  exact ⟨s.colour, s.plain h V himage, hbounds s hs hmeets⟩

/-- Each value of the pixel lies between those of two sheets that meet a rectangle. -/
def InRange (sheets : List (Sheet format)) (box : Rect) (pixel : Pixel format ℚ) : Prop :=
  ∀ (i : Nat) (hi : i < format.channels),
    ∃ low ∈ sheets, ∃ high ∈ sheets, low.placement.Meets box ∧ high.placement.Meets box ∧
      low.colour.channels[i] ≤ pixel.channels[i] ∧ pixel.channels[i] ≤ high.colour.channels[i]

/-- A value between all bounds of some values lies between two of these. -/
theorem exists_between {γ : Type} {l : List γ} (hl : l ≠ []) {value : γ → ℚ} {v : ℚ}
    (h : ∀ low high, (∀ c ∈ l, value c ∈ Set.Icc low high) → v ∈ Set.Icc low high) :
    ∃ low ∈ l, ∃ high ∈ l, value low ≤ v ∧ v ≤ value high := by
  have hne : {c | c ∈ l}.Nonempty := List.exists_mem_of_ne_nil l hl
  obtain ⟨low, hlow, hleast⟩ := Set.exists_min_image _ value l.finite_toSet hne
  obtain ⟨high, hhigh, hgreatest⟩ := Set.exists_max_image _ value l.finite_toSet hne
  obtain ⟨habove, hbelow⟩ := h (value low) (value high) fun c hc => ⟨hleast c hc, hgreatest c hc⟩
  exact ⟨low, hlow, high, hhigh, habove, hbelow⟩

/-- **The mixture of sheets** is opaque and in the range of their colours, where one of them
lies. -/
theorem mixture_inRange (h : format.hasAlpha = true)
    (S : Supplied false (Sheet.originals sheets) levels columns rows p)
    (hweight : 0 < weightSum (queueAt false (Sheet.originals sheets) levels columns rows p) 0 p) :
    (collapseFrom (meanAt (queueAt false (Sheet.originals sheets) levels columns rows p))
        (levels - 1) 0 p).alpha = 1 ∧
      InRange sheets (Footprint.catchment (dot p) levels)
        (collapseFrom (meanAt (queueAt false (Sheet.originals sheets) levels columns rows p))
          (levels - 1) 0 p) := by
  have hlevels := S.levels_pos
  have hfull := S.opaqueFrom_sheets h
  constructor
  · rw [alpha_collapseFrom h hfull (Nat.zero_le 0) (by omega)]
    have hdepth : 0 + (levels - 1) < levels := by omega
    simpa using stretchAt_iterate_presence hfull hdepth hweight
  · intro i hi
    let near := sheets.filter fun s => s.placement.Meets (Footprint.catchment (dot p) levels)
    have hmem : ∀ s, s ∈ near ↔
        s ∈ sheets ∧ s.placement.Meets (Footprint.catchment (dot p) levels) := fun s => by
      rw [List.mem_filter, decide_eq_true_iff]
    have hne : near ≠ [] := by
      obtain ⟨source, hsource, -⟩ := (weightSum_pos_iff hfull hlevels).mp hweight
      obtain ⟨s, hs, hmeets, -⟩ := S.exists_sheet h hsource
      exact List.ne_nil_of_mem ((hmem s).mpr ⟨hs, hmeets⟩)
    have hdepth : 0 + (levels - 1) + 1 = levels := by omega
    obtain ⟨low, hlow, high, hhigh, hbetween⟩ := exists_between hne fun low high hbounds =>
      collapseFrom_mem_Icc (S.plainBetween h hi fun s hs hmeets =>
        hbounds s ((hmem s).mpr ⟨hs, hmeets⟩)) hdepth hweight
    obtain ⟨hlow, hlowmeets⟩ := (hmem low).mp hlow
    obtain ⟨hhigh, hhighmeets⟩ := (hmem high).mp hhigh
    exact ⟨low, hlow, high, hhigh, hlowmeets, hhighmeets, hbetween⟩

/-- The coverage that is restored where a sheet lies. -/
theorem coverage_of_mem (h : format.hasAlpha = true) (hlevels : 0 < levels) {s : Sheet format}
    (hs : s ∈ sheets) (hp : p ∈ s.placement) :
    coverage (queueAt false (Sheet.originals sheets) levels columns rows p) p = 1 := by
  have hlargest : Largest (Sheet.originals sheets) p
      (coverage (queueAt false (Sheet.originals sheets) levels columns rows p) p) :=
    largest_coverage h hlevels p
  obtain ⟨hgreatest, hattained⟩ := hlargest
  have hle := hgreatest s.original (List.mem_map_of_mem hs)
  rw [Sheet.visible_original hp, s.full] at hle
  obtain hzero | ⟨o, ho, heq⟩ := hattained
  · rw [hzero] at hle
    exact absurd hle (by norm_num)
  · obtain ⟨s', -, rfl⟩ := List.mem_map.mp ho
    rw [heq] at hle ⊢
    rw [Original.visible] at hle ⊢
    split
    · next hshown => rw [Sheet.sample_original hshown.1, s'.full]
    · next hnot =>
      rw [if_neg hnot, Pixel.alpha_zero h] at hle
      exact absurd hle (by norm_num)

/-- A pixel of a patch of sheets: opaque and in the range of the colours that reach it where a sheet
lies, zero elsewhere. -/
structure Levelled (sheets : List (Sheet format)) (levels : Nat) (p : Point)
    (pixel : Pixel format ℚ) : Prop where
  /-- A covered pixel is opaque. -/
  alpha_eq : (∃ s ∈ sheets, p ∈ s.placement) → pixel.alpha = 1
  /-- Its values stay between those of the sheets that meet the rectangle that sources are selected
  against for this pixel alone. -/
  inRange : (∃ s ∈ sheets, p ∈ s.placement) → ∀ frames box,
    Footprint.levels (dot p) levels = .ok frames → Footprint.padded frames = .ok box →
      InRange sheets box pixel
  /-- Any other pixel is zero. -/
  eq_zero : (¬ ∃ s ∈ sheets, p ∈ s.placement) → pixel = 0

/-- The blended pixel where a sheet lies is the mixture as it stands. -/
theorem blendAt_of_mem (h : format.hasAlpha = true)
    (S : Supplied false (Sheet.originals sheets) levels columns rows p)
    (hp : ∃ s ∈ sheets, p ∈ s.placement) :
    (blendAt ⟨levels, false, columns, rows⟩
        (Original.sourcesWith false (Sheet.originals sheets) levels columns rows) p).alpha = 1 ∧
      InRange sheets (Footprint.catchment (dot p) levels) (blendAt ⟨levels, false, columns, rows⟩
        (Original.sourcesWith false (Sheet.originals sheets) levels columns rows) p) := by
  obtain ⟨s, hs, hp⟩ := hp
  have halpha : 0 < (s.original.sample p).alpha := by
    rw [Sheet.sample_original hp, s.full]
    exact zero_lt_one
  have hweight := (weightSum_selection_pos_iff h S S.levels_pos (mem_dot p)).mpr
    ⟨s.original, List.mem_map_of_mem hs, p, hp, halpha, mem_dot p⟩
  obtain ⟨hfull, hrange⟩ := mixture_inRange h S hweight
  have hself := rescaled_self (hfull ▸ zero_lt_one)
  rw [hfull] at hself
  rw [blendAt_selection S.levels_pos (fun s hs => Original.bandsPlacedWith hs) p]
  simp only [Bool.false_eq_true, if_false]
  rw [coverage_of_mem h S.levels_pos hs hp, hself]
  exact ⟨hfull, hrange⟩

/-- **The blended pixel of sheets.** -/
theorem levelled_blendAt (h : format.hasAlpha = true)
    (S : Supplied false (Sheet.originals sheets) levels columns rows p) :
    Levelled sheets levels p
      (blendAt ⟨levels, false, columns, rows⟩
        (Original.sourcesWith false (Sheet.originals sheets) levels columns rows) p) := by
  refine ⟨fun hp => (blendAt_of_mem h S hp).1, ?_, ?_⟩
  · intro hp frames box hframes hbox
    obtain ⟨rfl, -⟩ := (Footprint.ends_levels (dot p) levels).of_ok hframes
    obtain rfl : box = Footprint.catchment (dot p) levels :=
      (Footprint.ends_padded (dot p) levels).of_ok hbox
    exact (blendAt_of_mem h S hp).2
  · intro hnone
    obtain hzero | ⟨o, ho, hp, -⟩ := (restored_blendAt h S).attained
    · exact hzero
    · obtain ⟨s, hs, rfl⟩ := List.mem_map.mp ho
      exact absurd ⟨s, hs, hp⟩ hnone

/-- **Sheets blend inside the range of their colours.**  In a format with alpha, a pixel of a patch
of opaque sources of one colour each is opaque where one of them lies, and each of its values lies
between those of two of them that meet the rectangle sources are selected against for that pixel
alone; where none lies, the pixel is zero.  Nothing but a coordinate or a raster out of range keeps
the patch from being made. -/
theorem keeps_colour_range (h : format.hasAlpha = true) (sheets : List (Sheet format))
    (hlevels : 0 < levels) {area : Rect} (hsize : area.Sized) (columns rows : Nat) :
    Ends IsRange
      (fun out => out.Fills area ∧ ∀ p, p ∈ area → Levelled sheets levels p (out.cell area p))
      (blend area ⟨levels, false, columns, rows⟩
        (Original.sources (Sheet.originals sheets) levels columns rows)) := by
  rw [← Original.sourcesWith_false]
  apply (ends_blend_sourcesWith hlevels hsize).imp
  intro out hout
  refine ⟨hout.fills, ?_⟩
  intro p hp
  have hnonneg : ∀ o ∈ Sheet.originals sheets, o.NonNegative := by
    intro o ho
    obtain ⟨s, -, rfl⟩ := List.mem_map.mp ho
    exact s.nonNegative
  rw [hout.cell p hp]
  exact levelled_blendAt h (hout.supplied hlevels hnonneg hp)

/-- Two grey sheets that overlap, and a black one further off. -/
def greys : List (Sheet .grayAlpha) :=
  [⟨⟨0, 0, 2, 1⟩, ⟨#v[1 / 4, 1]⟩, false, rfl⟩, ⟨⟨1, 0, 2, 1⟩, ⟨#v[3 / 4, 1]⟩, true, rfl⟩,
    ⟨⟨6, 0, 1, 1⟩, ⟨#v[0, 1]⟩, false, rfl⟩]

/-- The common pixel stays between the two greys, and the gap before the black sheet is empty. -/
theorem keeps_colour_range_greys :
    ∃ out, blend ⟨0, 0, 7, 1⟩ ⟨2, false, 9, 9⟩
        (Original.sources (Sheet.originals greys) 2 9 9) = .ok out ∧
      (out.cell ⟨0, 0, 7, 1⟩ ⟨1, 0⟩).alpha = 1 ∧
      (1 / 4 : ℚ) ≤ (out.cell ⟨0, 0, 7, 1⟩ ⟨1, 0⟩).channels[0] ∧
      (out.cell ⟨0, 0, 7, 1⟩ ⟨1, 0⟩).channels[0] ≤ (3 / 4 : ℚ) ∧
      out.cell ⟨0, 0, 7, 1⟩ ⟨4, 0⟩ = 0 := by
  have hok : (blend ⟨0, 0, 7, 1⟩ ⟨2, false, 9, 9⟩
      (Original.sources (Sheet.originals greys) 2 9 9)).isOk := by
    decide +kernel
  have hgreys : ∀ s ∈ greys, s.placement.Meets ⟨-1, -1, 5, 3⟩ →
      (1 / 4 : ℚ) ≤ s.colour.channels[0] ∧ s.colour.channels[0] ≤ (3 / 4 : ℚ) := by
    decide +kernel
  have hsize : Rect.Sized ⟨0, 0, 7, 1⟩ := by constructor <;> decide
  have hlevels : 0 < 2 := by decide
  have hends := keeps_colour_range (by rfl) greys hlevels hsize 9 9
  obtain ⟨out, hblend⟩ := exists_eq_ok hok
  have hpixels := (hends.of_ok hblend).2
  have hcommon := hpixels ⟨1, 0⟩ (by decide)
  have hgap := hpixels ⟨4, 0⟩ (by decide)
  have hmem : ∃ s ∈ greys, (⟨1, 0⟩ : Point) ∈ s.placement := by decide
  obtain ⟨low, hlow, high, hhigh, hlowmeets, hhighmeets, habove, hbelow⟩ :=
    hcommon.inRange hmem [⟨1, 0, 1, 1⟩, ⟨0, 0, 2, 1⟩] ⟨-1, -1, 5, 3⟩ (by decide) (by decide) 0
      (by decide)
  refine ⟨out, hblend, hcommon.alpha_eq hmem, ?_, ?_, hgap.eq_zero (by decide)⟩
  · exact (hgreys low hlow hlowmeets).1.trans habove
  · exact hbelow.trans (hgreys high hhigh hhighmeets).2

end Patch

end Patchwork
