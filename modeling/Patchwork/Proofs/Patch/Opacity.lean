import Mathlib.Algebra.BigOperators.Group.List.Lemmas
import Mathlib.Algebra.Order.BigOperators.Group.List
import Patchwork.Proofs.Patch.Reach

/-!
# How opaque a mixture is

In a format with alpha, adding, scaling, blurring and doubling pixels do the same to their coverage,
so the coverage of a mixture can be followed through the levels on its own.  At every resolution but
the finest a source is opaque wherever its mask is positive, and so are all coarser pixels that are
read there; the bands in between add no coverage, and the coarsest level adds one wherever any mask
reaches.  What is left of a source's own coverage is decided at the finest level.

## Main definitions

* `Placed.alphaPlane` — the coverage of a placed image.
* `PatchSource.Veiled` — a source whose mask is positive only where it has coverage.
* `Patch.presence` — where some mask reaches.

## Main statements

* `Patch.alpha_collapseFrom` — the coverage of the opaque levels.
* `Patch.alpha_collapseFrom_pos` — the coverage of all levels is positive where a mask is.
-/

namespace Patchwork

open Outcome Channel
open Rect (half)

variable {format : Format}

/-! ## Coverage of sums -/

namespace Pixel

theorem alpha_zero (h : format.hasAlpha = true) : (0 : Pixel format ℚ).alpha = 0 := by
  cases format with
  | gray => cases h
  | rgb => cases h
  | grayAlpha => exact Vector.getElem_replicate _
  | rgba => exact Vector.getElem_replicate _

theorem alpha_add (h : format.hasAlpha = true) (p q : Pixel format ℚ) :
    (p + q).alpha = p.alpha + q.alpha := by
  cases format with
  | gray => cases h
  | rgb => cases h
  | grayAlpha => exact Vector.getElem_zipWith _
  | rgba => exact Vector.getElem_zipWith _

theorem alpha_sub (h : format.hasAlpha = true) (p q : Pixel format ℚ) :
    (p - q).alpha = p.alpha - q.alpha := by
  cases format with
  | gray => cases h
  | rgb => cases h
  | grayAlpha => exact Vector.getElem_zipWith _
  | rgba => exact Vector.getElem_zipWith _

theorem alpha_scale (h : format.hasAlpha = true) (p : Pixel format ℚ) (s : ℚ) :
    (scale p s).alpha = p.alpha * s := by
  cases format with
  | gray => cases h
  | rgb => cases h
  | grayAlpha => exact Vector.getElem_map _ _
  | rgba => exact Vector.getElem_map _ _

/-- Colour without coverage covers fully, unless there was no coverage. -/
theorem alpha_unpremultiply (h : format.hasAlpha = true) (p : Pixel format ℚ) :
    p.unpremultiply.alpha = if 0 < p.alpha then 1 else 0 := by
  have hfinite : Channel.isFinite p.alpha = true := rfl
  simp only [unpremultiply, h, hfinite, and_true, if_true]
  split
  · next hpos =>
    rw [alpha_scale h]
    exact mul_one_div_cancel hpos.ne'
  · exact alpha_zero h

theorem unpremultiply_of_not_pos (h : format.hasAlpha = true) {p : Pixel format ℚ}
    (hp : ¬ 0 < p.alpha) : p.unpremultiply = 0 := by
  simp only [unpremultiply, h, if_true]
  exact if_neg fun hpos => hp hpos.1

end Pixel

namespace Raster

variable (h : format.hasAlpha = true)

include h

theorem alpha_blurred (f : Int → Pixel format ℚ) (c : Int) :
    (blurred f c).alpha = blurred (fun i => (f i).alpha) c := by
  simp only [blurred, Pixel.alpha_add h, Pixel.alpha_scale h, Pixel.alpha_zero h]
  rfl

theorem alpha_between (f : Int → Pixel format ℚ) (c : Int) :
    (between f c).alpha = between (fun i => (f i).alpha) c := by
  simp only [between]
  split
  · rfl
  · rw [Pixel.alpha_scale h, Pixel.alpha_add h]
    rfl

theorem alpha_stretchAt (f : Point → Pixel format ℚ) (p : Point) :
    (stretchAt f p).alpha = stretchAt (fun q => (f q).alpha) p := by
  simp only [stretchAt, alpha_between h]

/-- The coverage at a position, inside the raster or not. -/
theorem peek_alphaPlane (r : Raster (Pixel format ℚ)) (x y : Int) :
    r.alphaPlane.peek x y = (r.peek x y).alpha := by
  by_cases hhas : r.Has x y
  · exact peek_map hhas
  · rw [peek_eq_zero hhas, Pixel.alpha_zero h]
    exact peek_eq_zero (r := r.alphaPlane) hhas

omit h in
theorem alphaPlane_tabulate (width height : Nat) (f : Nat → Nat → Pixel format ℚ) :
    (tabulate width height f).alphaPlane = tabulate width height fun x y => (f x y).alpha := by
  simp [alphaPlane, map, tabulate, Function.comp_def]

/-- Halving a raster halves its coverage. -/
theorem alphaPlane_shrink (r : Raster (Pixel format ℚ)) (frame coarse : Rect) :
    (r.shrink frame coarse).alphaPlane = r.alphaPlane.shrink frame coarse := by
  have hrows : (r.shrinkRows frame coarse).alphaPlane = r.alphaPlane.shrinkRows frame coarse := by
    simp only [shrinkRows, alphaPlane_tabulate, alpha_blurred h, peek_alphaPlane h]
  simp only [shrink, alphaPlane_tabulate, alpha_blurred h, ← hrows, peek_alphaPlane h]

end Raster

namespace Placed

/-- The coverage of a placed image. -/
def alphaPlane (p : Placed (Pixel format ℚ)) : Placed ℚ :=
  ⟨p.raster.alphaPlane, p.frame, p.columns, p.rows, p.fills⟩

theorem sample_alphaPlane (h : format.hasAlpha = true) (p : Placed (Pixel format ℚ)) (q : Point) :
    p.alphaPlane.sample q = (p.sample q).alpha :=
  Raster.peek_alphaPlane h _ _ _

theorem alphaPlane_halved (h : format.hasAlpha = true) (p : Placed (Pixel format ℚ)) :
    p.halved.alphaPlane = p.alphaPlane.halved := by
  simp only [alphaPlane, halved, Raster.alphaPlane_shrink h]

theorem alphaPlane_halved_iterate (h : format.hasAlpha = true) (p : Placed (Pixel format ℚ))
    (k : Nat) : (halved^[k] p).alphaPlane = halved^[k] p.alphaPlane := by
  induction k generalizing p with
  | zero => rfl
  | succ k ih => rw [Function.iterate_succ_apply, Function.iterate_succ_apply, ih,
      alphaPlane_halved h]

/-- The coverage of an image that was freed of it. -/
theorem alpha_sample_unpremultiply (h : format.hasAlpha = true) (p : Placed (Pixel format ℚ))
    (q : Point) :
    (p.unpremultiply.sample q).alpha = if 0 < (p.sample q).alpha then 1 else 0 := by
  by_cases hq : q ∈ p.frame
  · have hmap : p.unpremultiply.sample q = (p.sample q).unpremultiply :=
      Raster.cell_map p.fills hq
    rw [hmap, Pixel.alpha_unpremultiply h]
  · have hout : p.unpremultiply.sample q = 0 := sample_eq_zero hq
    rw [hout, sample_eq_zero hq, Pixel.alpha_zero h, if_neg (lt_irrefl (0 : ℚ))]

end Placed

namespace Pyramid

/-- A coarser picture is opaque where its resolution has coverage. -/
theorem alpha_pictures_succ (h : format.hasAlpha = true) (image : Placed (Pixel format ℚ)) (k : Nat)
    (q : Point) :
    ((pictures image image.halved (k + 1)).sample q).alpha =
      if 0 < weightAt image.alphaPlane (k + 1) q then 1 else 0 := by
  rw [pictures, Placed.alpha_sample_unpremultiply h, ← Placed.sample_alphaPlane h,
    Placed.alphaPlane_halved_iterate h, Placed.alphaPlane_halved h, weightAt,
    Function.iterate_succ_apply]

/-- The picture of a resolution is opaque wherever its mask is positive. -/
def Opaque (image : Placed (Pixel format ℚ)) (weight : Placed ℚ) (k : Nat) : Prop :=
  ∀ q, 0 < weightAt weight k q → ((pictures image image.halved k).sample q).alpha = 1

end Pyramid

/-! ## Sums over the sources -/

/-- A fold that adds a share of each element, seen through one of its values. -/
theorem foldl_eq_sum {β γ : Type} (value : β → ℚ) {f : β → γ → β} {share : γ → ℚ} {l : List γ}
    (h : ∀ c ∈ l, ∀ b, value (f b c) = value b + share c) (b : β) :
    value (l.foldl f b) = value b + (l.map share).sum := by
  induction l generalizing b with
  | nil => simp
  | cons c l ih =>
    rw [List.foldl_cons, ih (fun c' hc' => h c' (List.mem_cons_of_mem _ hc')),
      h c (List.mem_cons_self ..), List.map_cons, List.sum_cons, add_assoc]

/-- A sum of shares that are not negative is positive when one of them is. -/
theorem sum_map_pos_iff {γ : Type} {share : γ → ℚ} {l : List γ} (h : ∀ c ∈ l, 0 ≤ share c) :
    0 < (l.map share).sum ↔ ∃ c ∈ l, 0 < share c := by
  constructor
  · intro hpos
    by_contra hnone
    have hzero : (l.map share).sum = 0 := by
      apply List.sum_eq_zero
      intro v hv
      obtain ⟨c, hc, rfl⟩ := List.mem_map.mp hv
      exact le_antisymm (not_lt.mp fun hpos => hnone ⟨c, hc, hpos⟩) (h c hc)
    exact hpos.ne' hzero
  · rintro ⟨c, hc, hpos⟩
    refine lt_of_lt_of_le hpos (List.single_le_sum ?_ _ (List.mem_map_of_mem hc))
    intro v hv
    obtain ⟨c', hc', rfl⟩ := List.mem_map.mp hv
    exact h c' hc'

namespace PatchSource

open Pyramid

/-- What a source adds to the weight of level `k`. -/
def maskAt (s : PatchSource Outcome format ℚ) (k : Nat) (q : Point) : ℚ := s.addMask k q 0

/-- What a source adds to the coverage of level `k`. -/
def bandAlphaAt (s : PatchSource Outcome format ℚ) (k : Nat) (q : Point) : ℚ :=
  (s.addBand k q 0).alpha

/-- A source with a pyramid whose mask is positive only where the source has coverage. -/
structure Veiled (s : PatchSource Outcome format ℚ) (levels : Nat)
    (image : Placed (Pixel format ℚ)) (weight : Placed ℚ) : Prop where
  /-- The pyramid was made from the image and the mask. -/
  holds : ∃ pyramid, s.pyramid = .ok pyramid ∧ pyramid.Holds s.placement image weight levels
  /-- The mask is nowhere negative. -/
  nonneg : ∀ q, 0 ≤ weight.sample q
  /-- Neither is the coverage. -/
  alpha_nonneg : ∀ q, 0 ≤ (image.sample q).alpha
  /-- What the mask keeps has coverage. -/
  covered : ∀ q, 0 < weight.sample q → 0 < (image.sample q).alpha

namespace Veiled

variable {s : PatchSource Outcome format ℚ} {levels : Nat} {image : Placed (Pixel format ℚ)}
  {weight : Placed ℚ} {k : Nat} {q : Point}

/-- Adding a level of the source adds its mask to the weight. -/
theorem addMask_eq (V : s.Veiled levels image weight) (hk : k < levels) (q : Point) (value : ℚ) :
    s.addMask k q value = value + weightAt weight k q := by
  obtain ⟨pyramid, hpyramid, hholds⟩ := V.holds
  obtain ⟨level, hlevel⟩ : ∃ level, pyramid.levels[k]? = some level :=
    ⟨_, List.getElem?_eq_getElem (hholds.length.symm ▸ hk)⟩
  have hmask := (hholds.level k level hlevel).mask_eq
  simp only [addMask, level?, hpyramid, hlevel, Placed.plus, hmask]
  split
  · rfl
  · next hq => rw [weightAt, Placed.sample_eq_zero hq, add_zero]

/-- It adds the band, as far as the mask keeps it. -/
theorem addBand_eq (V : s.Veiled levels image weight) (hk : k < levels) (q : Point)
    (value : Pixel format ℚ) :
    s.addBand k q value = value +
      scale (bandAt (pictures image image.halved) k (levels - 1 - k) q) (weightAt weight k q) := by
  obtain ⟨pyramid, hpyramid, hholds⟩ := V.holds
  obtain ⟨level, hlevel⟩ : ∃ level, pyramid.levels[k]? = some level :=
    ⟨_, List.getElem?_eq_getElem (hholds.length.symm ▸ hk)⟩
  obtain ⟨-, hframe, himage⟩ := hholds.level k level hlevel
  simp only [addBand, level?, hpyramid, hlevel, Placed.plus, hframe]
  split
  · next hq =>
    rw [← hframe]
    exact congrArg _ (himage q hq)
  · next hq =>
    rw [← hholds.weight_frame, ← Placed.frame_halved_iterate] at hq
    rw [weightAt, Placed.sample_eq_zero hq, Pixel.scale_zero, Pixel.add_zero_right]

/-- In coverage, too. -/
theorem alpha_addBand_eq (h : format.hasAlpha = true) (V : s.Veiled levels image weight)
    (hk : k < levels) (q : Point) (value : Pixel format ℚ) :
    (s.addBand k q value).alpha = value.alpha +
      (bandAt (pictures image image.halved) k (levels - 1 - k) q).alpha * weightAt weight k q := by
  rw [V.addBand_eq hk, Pixel.alpha_add h, Pixel.alpha_scale h]

theorem maskAt_eq (V : s.Veiled levels image weight) (hk : k < levels) (q : Point) :
    s.maskAt k q = weightAt weight k q :=
  (V.addMask_eq hk q 0).trans (zero_add _)

theorem bandAlphaAt_eq (h : format.hasAlpha = true) (V : s.Veiled levels image weight)
    (hk : k < levels) (q : Point) :
    s.bandAlphaAt k q =
      (bandAt (pictures image image.halved) k (levels - 1 - k) q).alpha * weightAt weight k q := by
  rw [bandAlphaAt, V.alpha_addBand_eq h hk, Pixel.alpha_zero h, zero_add]

/-- Below the finest resolution a source is opaque where its mask is positive. -/
theorem opaque_succ (h : format.hasAlpha = true) (V : s.Veiled levels image weight) (k : Nat) :
    Opaque image weight (k + 1) := by
  intro q hq
  obtain ⟨p, hp, hqp⟩ := (weightAt_pos_iff V.nonneg).mp hq
  have halpha : ∀ r, 0 ≤ image.alphaPlane.sample r := fun r =>
    (Placed.sample_alphaPlane h image r).symm ▸ V.alpha_nonneg r
  have hpos : 0 < weightAt image.alphaPlane (k + 1) q := by
    refine (weightAt_pos_iff halpha).mpr ⟨p, ?_, hqp⟩
    rw [Placed.sample_alphaPlane h]
    exact V.covered p hp
  rw [alpha_pictures_succ h, if_pos hpos]

/-- The band of a level above the coarsest lacks the coverage that the next level has in full. -/
theorem alpha_bandAt (h : format.hasAlpha = true) (V : s.Veiled levels image weight)
    (k coarser : Nat) (hq : 0 < weightAt weight k q) :
    (bandAt (pictures image image.halved) k (coarser + 1) q).alpha =
      ((pictures image image.halved k).sample q).alpha - 1 := by
  rw [bandAt, Pixel.alpha_sub h, Raster.alpha_stretchAt h]
  congr 1
  apply stretchAt_of_const
  intro r hr
  exact V.opaque_succ h k r (weightAt_pos V.nonneg hq hr)

/-- An opaque level above the coarsest adds no coverage. -/
theorem bandAlphaAt_inner (h : format.hasAlpha = true) (V : s.Veiled levels image weight)
    (hfull : Opaque image weight k) (hk : k + 1 < levels) (q : Point) : s.bandAlphaAt k q = 0 := by
  obtain ⟨coarser, hcoarser⟩ : ∃ coarser, levels - 1 - k = coarser + 1 :=
    ⟨levels - 2 - k, by omega⟩
  rw [V.bandAlphaAt_eq h (by omega)]
  rcases (weightAt_nonneg V.nonneg k q).eq_or_lt with hzero | hpos
  · rw [← hzero, mul_zero]
  · rw [hcoarser, V.alpha_bandAt h k coarser hpos, hfull q hpos, sub_self, zero_mul]

/-- The coarsest level, when it is opaque, adds as much coverage as weight. -/
theorem bandAlphaAt_last (h : format.hasAlpha = true) (V : s.Veiled levels image weight)
    (hfull : Opaque image weight k) (hk : k + 1 = levels) (q : Point) :
    s.bandAlphaAt k q = s.maskAt k q := by
  have hindex : levels - 1 - k = 0 := by omega
  rw [V.bandAlphaAt_eq h (by omega), V.maskAt_eq (by omega), hindex, bandAt]
  rcases (weightAt_nonneg V.nonneg k q).eq_or_lt with hzero | hpos
  · rw [← hzero, mul_zero]
  · rw [hfull q hpos, one_mul]

/-- What the finest level adds of the source's own coverage, beyond that of the coarser ones. -/
theorem bandAlphaAt_finest (h : format.hasAlpha = true) (V : s.Veiled levels image weight)
    (hlevels : 0 < levels) (q : Point) :
    s.bandAlphaAt 0 q + (if 1 < levels then s.maskAt 0 q else 0) =
      (image.sample q).alpha * weight.sample q := by
  have hweight : weightAt weight 0 q = weight.sample q := rfl
  have hpicture : pictures image image.halved 0 = image := rfl
  rw [V.bandAlphaAt_eq h hlevels, V.maskAt_eq hlevels, hweight]
  rcases (V.nonneg q).eq_or_lt with hzero | hpos
  · rw [← hzero, mul_zero, mul_zero, ite_self, add_zero]
  · split
    · next hmany =>
      obtain ⟨coarser, rfl⟩ : ∃ coarser, levels = coarser + 2 := ⟨levels - 2, by omega⟩
      have hindex : coarser + 2 - 1 - 0 = coarser + 1 := by omega
      rw [hindex, V.alpha_bandAt h 0 coarser hpos, hpicture]
      ring
    · have hindex : levels - 1 - 0 = 0 := by omega
      rw [hindex, bandAt, hpicture, add_zero]

end Veiled

end PatchSource

namespace Patch

open Pyramid

/-! ## The levels of a mixture -/

/-- The sources are veiled, and opaque from level `start` on. -/
def OpaqueFrom (start : Nat) (queue : List (PatchSource Outcome format ℚ)) (levels : Nat) : Prop :=
  ∀ s ∈ queue, ∃ image weight, s.Veiled levels image weight ∧
    ∀ k, start ≤ k → Opaque image weight k

variable {queue : List (PatchSource Outcome format ℚ)} {start levels k : Nat} {q : Point}

theorem weightSum_eq (hqueue : OpaqueFrom start queue levels) (hk : k < levels) (q : Point) :
    weightSum queue k q = (queue.map (·.maskAt k q)).sum := by
  refine (foldl_eq_sum id ?_ 0).trans (zero_add _)
  intro s hs value
  obtain ⟨image, weight, V, -⟩ := hqueue s hs
  simp only [id, V.addMask_eq hk, V.maskAt_eq hk]

theorem alpha_bandSum (h : format.hasAlpha = true) (hqueue : OpaqueFrom start queue levels)
    (hk : k < levels) (q : Point) :
    (bandSum queue k q).alpha = (queue.map (·.bandAlphaAt k q)).sum := by
  have hshare : ∀ s ∈ queue, ∀ value,
      (s.addBand k q value).alpha = value.alpha + s.bandAlphaAt k q := by
    intro s hs value
    obtain ⟨image, weight, V, -⟩ := hqueue s hs
    rw [V.alpha_addBand_eq h hk, V.bandAlphaAt_eq h hk]
  exact (foldl_eq_sum Pixel.alpha hshare 0).trans (by rw [Pixel.alpha_zero h, zero_add])

theorem maskAt_nonneg (hqueue : OpaqueFrom start queue levels) (hk : k < levels) (q : Point) :
    ∀ s ∈ queue, 0 ≤ s.maskAt k q := by
  intro s hs
  obtain ⟨image, weight, V, -⟩ := hqueue s hs
  rw [V.maskAt_eq hk]
  exact weightAt_nonneg V.nonneg k q

theorem weightSum_pos_iff (hqueue : OpaqueFrom start queue levels) (hk : k < levels) :
    0 < weightSum queue k q ↔ ∃ s ∈ queue, 0 < s.maskAt k q := by
  rw [weightSum_eq hqueue hk, sum_map_pos_iff (maskAt_nonneg hqueue hk q)]

/-- A weight stays positive under the coarse points that are read there. -/
theorem weightSum_pos_of_spreads (hqueue : OpaqueFrom start queue levels) (hk : k + 1 < levels)
    (hq : 0 < weightSum queue k q) {r : Point} (hr : r.Spreads q) :
    0 < weightSum queue (k + 1) r := by
  obtain ⟨s, hs, hpos⟩ := (weightSum_pos_iff hqueue (by omega)).mp hq
  obtain ⟨image, weight, V, -⟩ := hqueue s hs
  refine (weightSum_pos_iff hqueue hk).mpr ⟨s, hs, ?_⟩
  rw [V.maskAt_eq (by omega)] at hpos
  rw [V.maskAt_eq hk]
  exact weightAt_pos V.nonneg hpos hr

theorem alpha_weightedMean (h : format.hasAlpha = true) (sum : Pixel format ℚ) (weight : ℚ) :
    (weightedMean sum weight).alpha = if 0 < weight then sum.alpha / weight else 0 := by
  rw [weightedMean, ratio?_rat]
  split
  · next inverse hratio =>
    split at hratio
    · next hpos =>
      rw [if_pos hpos, Pixel.alpha_scale h, ← Option.some.inj hratio, mul_one_div]
    · cases hratio
  · next hratio =>
    split at hratio
    · cases hratio
    · next hzero => rw [if_neg hzero, Pixel.alpha_zero h]

theorem alpha_meanAt_inner (h : format.hasAlpha = true) (hqueue : OpaqueFrom start queue levels)
    (hstart : start ≤ k) (hk : k + 1 < levels) (q : Point) : (meanAt queue k q).alpha = 0 := by
  have hsum : (queue.map (·.bandAlphaAt k q)).sum = 0 := by
    apply List.sum_eq_zero
    intro v hv
    obtain ⟨s, hs, rfl⟩ := List.mem_map.mp hv
    obtain ⟨image, weight, V, hfull⟩ := hqueue s hs
    exact V.bandAlphaAt_inner h (hfull k hstart) hk q
  rw [meanAt, alpha_weightedMean h, alpha_bandSum h hqueue (by omega), hsum, zero_div, ite_self]

/-- One where some mask of a level reaches, zero elsewhere. -/
def presence (queue : List (PatchSource Outcome format ℚ)) (k : Nat) (q : Point) : ℚ :=
  if 0 < weightSum queue k q then 1 else 0

theorem presence_nonneg (queue : List (PatchSource Outcome format ℚ)) (k : Nat) (q : Point) :
    0 ≤ presence queue k q := by
  rw [presence]
  split
  · exact zero_le_one
  · exact le_refl 0

theorem presence_pos_iff : 0 < presence queue k q ↔ 0 < weightSum queue k q := by
  rw [presence]
  split
  · next hpos => simp [hpos]
  · next hzero => simp [hzero]

theorem alpha_meanAt_last (h : format.hasAlpha = true) (hqueue : OpaqueFrom start queue levels)
    (hstart : start ≤ k) (hk : k + 1 = levels) (q : Point) :
    (meanAt queue k q).alpha = presence queue k q := by
  have hsum : queue.map (·.bandAlphaAt k q) = queue.map (·.maskAt k q) := by
    apply List.map_congr_left
    intro s hs
    obtain ⟨image, weight, V, hfull⟩ := hqueue s hs
    exact V.bandAlphaAt_last h (hfull k hstart) hk q
  rw [meanAt, alpha_weightedMean h, alpha_bandSum h hqueue (by omega), hsum,
    ← weightSum_eq hqueue (by omega), presence]
  split
  · next hpos => exact div_self hpos.ne'
  · rfl

/-- **The coverage of the opaque levels** is the coarsest presence, doubled up. -/
theorem alpha_collapseFrom (h : format.hasAlpha = true) (hqueue : OpaqueFrom start queue levels)
    {coarser : Nat} (hstart : start ≤ k) (hk : k + coarser + 1 = levels) (q : Point) :
    (collapseFrom (meanAt queue) coarser k q).alpha =
      Raster.stretchAt^[coarser] (presence queue (levels - 1)) q := by
  induction coarser generalizing k q with
  | zero =>
    obtain rfl : k = levels - 1 := by omega
    exact alpha_meanAt_last h hqueue hstart (by omega) q
  | succ coarser ih =>
    have hbelow : (fun r => (collapseFrom (meanAt queue) coarser (k + 1) r).alpha) =
        Raster.stretchAt^[coarser] (presence queue (levels - 1)) :=
      funext fun r => ih (by omega) (by omega) r
    rw [collapseFrom, Pixel.alpha_add h, alpha_meanAt_inner h hqueue hstart (by omega),
      Raster.alpha_stretchAt h, hbelow, zero_add, Function.iterate_succ_apply']

/-- Presence reaches all coarse points that are read under a positive weight. -/
theorem stretchAt_iterate_presence (hqueue : OpaqueFrom start queue levels) {coarser : Nat}
    (hk : k + coarser < levels) (hq : 0 < weightSum queue k q) :
    Raster.stretchAt^[coarser] (presence queue (k + coarser)) q = 1 := by
  induction coarser generalizing k q with
  | zero => exact if_pos hq
  | succ coarser ih =>
    rw [Function.iterate_succ_apply']
    apply stretchAt_of_const
    intro r hr
    have hindex : k + (coarser + 1) = k + 1 + coarser := by omega
    rw [hindex]
    exact ih (by omega) (weightSum_pos_of_spreads hqueue (by omega) hq hr)

/-- What a pixel under a positive weight reads of the coarser levels covers fully. -/
theorem stretchAt_alpha_collapseFrom (h : format.hasAlpha = true)
    (hqueue : OpaqueFrom 1 queue levels) {coarser : Nat} (hlevels : coarser + 2 = levels)
    (hq : 0 < weightSum queue 0 q) :
    Raster.stretchAt (fun r => (collapseFrom (meanAt queue) coarser 1 r).alpha) q = 1 := by
  apply stretchAt_of_const
  intro r hr
  have hindex : levels - 1 = 1 + coarser := by omega
  rw [alpha_collapseFrom h hqueue (Nat.le_refl 1) (by omega), hindex]
  exact stretchAt_iterate_presence hqueue (by omega)
    (weightSum_pos_of_spreads hqueue (by omega) hq hr)

/-- **The coverage of all levels** is positive where a mask is, when coarser levels are opaque. -/
theorem alpha_collapseFrom_pos (h : format.hasAlpha = true) (hqueue : OpaqueFrom 1 queue levels)
    (hlevels : 0 < levels) (hq : 0 < weightSum queue 0 q) :
    0 < (collapseFrom (meanAt queue) (levels - 1) 0 q).alpha := by
  -- each source adds its own coverage times its mask, beyond what the coarser levels hold
  have hown : ∀ s ∈ queue,
      0 ≤ s.bandAlphaAt 0 q + (if 1 < levels then s.maskAt 0 q else 0) ∧
        (0 < s.maskAt 0 q → 0 < s.bandAlphaAt 0 q + if 1 < levels then s.maskAt 0 q else 0) := by
    intro s hs
    obtain ⟨image, weight, V, -⟩ := hqueue s hs
    rw [V.bandAlphaAt_finest h hlevels, V.maskAt_eq hlevels]
    exact ⟨mul_nonneg (V.alpha_nonneg q) (V.nonneg q), fun hpos => mul_pos (V.covered q hpos) hpos⟩
  obtain ⟨s, hs, hpos⟩ := (weightSum_pos_iff hqueue hlevels).mp hq
  have hsum := (sum_map_pos_iff fun s hs => (hown s hs).1).mpr ⟨s, hs, (hown s hs).2 hpos⟩
  have hmean : (meanAt queue 0 q).alpha =
      (queue.map (·.bandAlphaAt 0 q)).sum / weightSum queue 0 q := by
    rw [meanAt, alpha_weightedMean h, if_pos hq, alpha_bandSum h hqueue hlevels]
  by_cases hmany : 1 < levels
  · obtain ⟨coarser, rfl⟩ : ∃ coarser, levels = coarser + 2 := ⟨levels - 2, by omega⟩
    simp only [hmany, if_true, List.sum_map_add] at hsum
    rw [← weightSum_eq hqueue hlevels] at hsum
    have hindex : coarser + 2 - 1 = coarser + 1 := by omega
    rw [hindex, collapseFrom, Pixel.alpha_add h, Raster.alpha_stretchAt h,
      stretchAt_alpha_collapseFrom h hqueue rfl hq, hmean]
    have hshare : (queue.map (·.bandAlphaAt 0 q)).sum / weightSum queue 0 q + 1 =
        ((queue.map (·.bandAlphaAt 0 q)).sum + weightSum queue 0 q) / weightSum queue 0 q := by
      rw [add_div, div_self hq.ne']
    rw [hshare]
    exact div_pos hsum hq
  · obtain rfl : levels = 1 := by omega
    simp only [hmany, if_false, add_zero] at hsum
    have hindex : 1 - 1 = 0 := rfl
    rw [hindex, collapseFrom, hmean]
    exact div_pos hsum hq

end Patch

end Patchwork
