import Patchwork.Proofs.Channel.Counting
import Patchwork.Proofs.Patch.Blend
import Patchwork.Proofs.Pyramid
import Patchwork.Proofs.Raster.Blur

/-!
# Pyramids in exact arithmetic

Over the rationals the bands of a pyramid can be put together again.  A level's mean over a single
source is the source's band wherever the mask of that level is positive, and the blur keeps a mask
positive at every coarse point that spreads to a positive fine one; so whatever a positive point
reads on the way up is right as well.

## Main definitions

* `Pyramid.weightAt` — the mask of a pyramid at every resolution.

## Main statements

* `Pyramid.weightAt_pos` — a positive mask stays positive under the coarse points it reads.
* `Pyramid.collapseFrom_eq` — the bands of one source give its picture back.
-/

namespace Patchwork

open Outcome Channel
open Rect (half)

variable {format : Format}

/-! ## Rational channels and pixels -/

theorem ratio?_rat {a b : ℚ} : ratio? a b = if 0 < b then some (a / b) else none := by
  have hfinite : ∀ v : ℚ, Channel.isFinite v = true := fun _ => rfl
  simp only [ratio?, hfinite, and_true, if_true]

theorem larger_eq_max (a b : ℚ) : larger a b = max a b := by
  rw [larger, max_def]

namespace Pixel

theorem ext_getElem {p q : Pixel format ℚ}
    (h : ∀ (i : Nat) (hi : i < format.channels), p.channels[i] = q.channels[i]) : p = q := by
  cases p
  cases q
  congr 1
  exact Vector.ext h

theorem sub_add_self (p q : Pixel format ℚ) : p - q + q = p := by
  apply ext_getElem
  intro i hi
  simp only [channels_add, channels_sub, Vector.getElem_zipWith]
  exact sub_add_cancel (p.channels[i] : ℚ) q.channels[i]

theorem scale_scale_one_div (p : Pixel format ℚ) {w : ℚ} (hw : 0 < w) :
    scale (0 + scale p w) (1 / w) = p := by
  apply ext_getElem
  intro i hi
  simp only [channels_add, channels_scale, channels_zero, Vector.getElem_zipWith,
    Vector.getElem_map, Vector.getElem_replicate]
  have hvalue : ∀ v : ℚ, (0 + v * w) * (1 / w) = v := fun v => by
    rw [zero_add, mul_one_div, mul_div_cancel_right₀ v hw.ne']
  exact hvalue _

theorem add_zero_right (p : Pixel format ℚ) : p + 0 = p := by
  apply ext_getElem
  intro i hi
  simp only [channels_add, channels_zero, Vector.getElem_zipWith, Vector.getElem_replicate]
  exact add_zero (p.channels[i] : ℚ)

theorem scale_one (p : Pixel format ℚ) : scale p (1 : ℚ) = p := by
  apply ext_getElem
  intro i hi
  simp only [channels_scale, Vector.getElem_map]
  exact mul_one (p.channels[i] : ℚ)

theorem scale_zero (p : Pixel format ℚ) : scale p (0 : ℚ) = 0 := by
  apply ext_getElem
  intro i hi
  simp only [channels_scale, channels_zero, Vector.getElem_map, Vector.getElem_replicate]
  exact mul_zero (p.channels[i] : ℚ)

theorem layer_zero (p : Pixel format ℚ) : layer 0 p = p := by
  unfold layer
  split
  · apply ext_getElem
    intro i hi
    simp only [channels_add, channels_scale, channels_zero, Vector.getElem_zipWith,
      Vector.getElem_map, Vector.getElem_replicate]
    have hvalue : ∀ v w : ℚ, 0 * w + v = v := fun v w => by rw [zero_mul, zero_add]
    exact hvalue _ _
  · rfl

/-- Every rational is a number. -/
theorem sanitized_eq (p : Pixel format ℚ) : p.sanitized = p := by
  have hfinite : p.isFinite = true := by
    rw [isFinite, Vector.all_eq_true]
    exact fun _ _ => rfl
  rw [sanitized, if_pos hfinite]

end Pixel

/-- Halving a plane blurs it; the rows that it lacks are zero. -/
theorem Placed.sample_halved (p : Placed ℚ) {r : Point} (hr : r ∈ half p.frame) :
    p.halved.sample r = shrinkAt p.sample r :=
  Raster.read_cell_shrink p.fills (0 : Fin 1) hr

/-! ## The mask at every resolution -/

namespace Pyramid

/-- The mask of a pyramid at every resolution, zero where it does not reach. -/
def weightAt (weight : Placed ℚ) (k : Nat) : Point → ℚ := (Placed.halved^[k] weight).sample

theorem weightAt_nonneg {weight : Placed ℚ} (h : ∀ q, 0 ≤ weight.sample q) (k : Nat) (q : Point) :
    0 ≤ weightAt weight k q := by
  induction k generalizing weight with
  | zero => exact h q
  | succ k ih =>
    apply @ih weight.halved
    intro r
    by_cases hr : r ∈ half weight.frame
    · rw [weight.sample_halved hr]
      exact shrinkAt_nonneg h r
    · rw [Placed.sample_eq_zero hr]

theorem mem_of_weightAt_pos {weight : Placed ℚ} {k : Nat} {q : Point}
    (hq : 0 < weightAt weight k q) : q ∈ half^[k] weight.frame := by
  by_contra hmem
  rw [← Placed.frame_halved_iterate] at hmem
  rw [weightAt, Placed.sample_eq_zero hmem] at hq
  exact lt_irrefl (0 : ℚ) hq

/-- A positive mask stays positive at the coarse points that spread to it. -/
theorem weightAt_pos {weight : Placed ℚ} (h : ∀ q, 0 ≤ weight.sample q) {k : Nat} {q r : Point}
    (hq : 0 < weightAt weight k q) (hspreads : r.Spreads q) : 0 < weightAt weight (k + 1) r := by
  have hmem := mem_of_weightAt_pos hq
  rw [← Placed.frame_halved_iterate] at hmem
  rw [weightAt, Function.iterate_succ_apply', Placed.sample_halved _
    (Rect.mem_half_of_spreads hmem hspreads)]
  exact shrinkAt_pos (weightAt_nonneg h k) hq hspreads

/-! ## One source alone -/

section Alone

open Patch

variable {s : PatchSource Outcome format ℚ} {pyramid : Pyramid format ℚ} {placement : Rect}
  {image : Placed (Pixel format ℚ)} {weight : Placed ℚ} {levels : Nat}

/-- Where the mask of a level is positive, the level's mean is its band. -/
theorem meanAt_eq_bandAt (hs : s.pyramid = .ok pyramid)
    (hholds : pyramid.Holds placement image weight levels) {k : Nat} (hk : k < levels) {q : Point}
    (hq : 0 < weightAt weight k q) :
    meanAt [s] k q = bandAt (pictures image image.halved) k (levels - 1 - k) q := by
  have hmem : q ∈ half^[k] placement := hholds.weight_frame ▸ mem_of_weightAt_pos hq
  obtain ⟨level, hlevel⟩ : ∃ level, pyramid.levels[k]? = some level :=
    ⟨_, List.getElem?_eq_getElem (hholds.length.symm ▸ hk)⟩
  obtain ⟨hmask, hframe, himage⟩ := hholds.level k level hlevel
  have hlevel? : s.level? k = some level := by
    simp only [PatchSource.level?, hs, hlevel]
  have hmaskframe : q ∈ level.mask.frame := by
    rw [hmask, Placed.frame_halved_iterate, hholds.weight_frame]
    exact hmem
  have hband : bandSum [s] k q =
      0 + scale (bandAt (pictures image image.halved) k (levels - 1 - k) q)
        (weightAt weight k q) := by
    simp only [bandSum, List.foldl_cons, List.foldl_nil, PatchSource.addBand, hlevel?, Placed.plus]
    rw [if_pos (hframe ▸ hmem)]
    exact congrArg _ (himage q hmem)
  have hweight : weightSum [s] k q = weightAt weight k q := by
    simp only [weightSum, List.foldl_cons, List.foldl_nil, PatchSource.addMask, hlevel?,
      Placed.plus]
    rw [if_pos hmaskframe, hmask]
    exact zero_add (weightAt weight k q)
  rw [meanAt, hband, hweight, weightedMean, ratio?_rat, if_pos hq]
  exact Pixel.scale_scale_one_div _ hq

/-- **The bands of one source** give its picture back wherever its mask is positive. -/
theorem collapseFrom_eq (hs : s.pyramid = .ok pyramid)
    (hholds : pyramid.Holds placement image weight levels) (hweight : ∀ q, 0 ≤ weight.sample q)
    {coarser k : Nat} (hk : k + coarser + 1 = levels) {q : Point}
    (hq : 0 < weightAt weight k q) :
    collapseFrom (meanAt [s]) coarser k q = (pictures image image.halved k).sample q := by
  induction coarser generalizing k q with
  | zero =>
    have hmean := meanAt_eq_bandAt hs hholds (by omega) hq
    have hindex : levels - 1 - k = 0 := by omega
    rwa [hindex] at hmean
  | succ coarser ih =>
    have hmean := meanAt_eq_bandAt hs hholds (by omega) hq
    have hindex : levels - 1 - k = coarser + 1 := by omega
    rw [hindex] at hmean
    -- every coarse value that is read belongs to a positive mask
    have hup : Raster.stretchAt (collapseFrom (meanAt [s]) coarser (k + 1)) q =
        Raster.stretchAt (pictures image image.halved (k + 1)).sample q :=
      Raster.stretchAt_congr fun r hr => ih (by omega) (weightAt_pos hweight hq hr)
    simp only [collapseFrom]
    rw [hmean, bandAt, hup]
    exact Pixel.sub_add_self _ _

end Alone

end Pyramid

end Patchwork
