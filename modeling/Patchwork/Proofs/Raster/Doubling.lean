import Patchwork.Proofs.Raster.Plane
import Patchwork.Proofs.Rect.Sets

/-!
# Doubling reads nearby

A doubled pixel is made of the coarse pixels that spread to it.  So doubling onto a part of a
rectangle gives that part of what doubling onto the rectangle gives, and of the coarse raster only
the halved part counts: cutting it out first, with zeros where the raster ends, changes no bit.

Whether a raster can be doubled onto a rectangle is decided by a list of coordinates and by memory.
Both are easier on a part, and easier again after cutting.

## Main definitions

* `Raster.expandSteps` — the coordinates that doubling onto a rectangle computes.
* `Raster.Stretchable` — they exist, and memory suffices.

## Main statements

* `Raster.expand_eq_ok_iff` — when doubling answers, and what.
* `Raster.expand_part` — doubling onto a part, and from what is near it.
-/

namespace Patchwork.Raster

open Outcome Coordinate
open Rect (half)

variable {κ α : Type} [Cell κ α]

/-! ## When doubling answers -/

/-- The far row of the target and the coarse row past it, how many coarse rows there are, the last
column, and the outermost coarse positions, counted from the corner of the coarse raster. -/
def expandSteps (frame target : Rect) : List Int :=
  [target.y + target.height, (target.y + target.height) / 2 + 1,
    (target.y + target.height) / 2 + 1 - firstCoarseRow target, target.x + target.width - 1,
    target.x / 2 - frame.x, (target.x + target.width - 1 + 1) / 2 - frame.x,
    firstCoarseRow target - frame.y, (target.y + target.height) / 2 + 1 - 1 - frame.y]

/-- A raster over `frame` can be doubled onto `target`. -/
structure Stretchable (α : Type) [Cell κ α] (frame target : Rect) : Prop where
  /-- The coordinates that are computed exist. -/
  steps : ∀ v ∈ expandSteps frame target, Fits v
  /-- Memory can hold the rasters that are made. -/
  room : StretchRoom α target

variable {frame target whole part : Rect}

theorem expandable_eq_ok_iff (hne : ¬ target.IsEmpty) :
    expandable α frame target = .ok () ↔ Stretchable α frame target := by
  have hrows : target.rows ≠ 0 := fun h => hne (Rect.isEmpty_iff_sides.mpr (.inr h))
  have hcount : ((target.y + target.height) / 2 + 1 - firstCoarseRow target).toNat =
      coarseRows target := by
    simp only [coarseRows, hrows, if_false]
  have hallocate : ∀ w h : Nat, allocate α w h = .ok () ↔ Room α w h := fun _ _ =>
    require_eq_ok_iff
  simp only [expandable, Rect.maxY, bind_eq_ok_iff, checked_eq_ok_iff, and_assoc, exists_eq_left',
    exists_and_left, exists_const, hallocate, hcount]
  constructor
  · rintro ⟨hbottom, hpast, hcount, hrows, hright, hleft, hlast, hfirst, hend, hresult⟩
    refine ⟨?_, hrows, hresult⟩
    simp only [expandSteps, List.forall_mem_cons, List.not_mem_nil, false_imp_iff, implies_true,
      and_true]
    exact ⟨hbottom, hpast, hcount, hright, hleft, hlast, hfirst, hend⟩
  · rintro ⟨hsteps, hrows, hresult⟩
    simp only [expandSteps, List.forall_mem_cons] at hsteps
    obtain ⟨hbottom, hpast, hcount, hright, hleft, hlast, hfirst, hend, -⟩ := hsteps
    exact ⟨hbottom, hpast, hcount, hrows, hright, hleft, hlast, hfirst, hend, hresult⟩

namespace Stretchable

/-- What holds of a rectangle holds of its parts with pixels. -/
theorem of_subset (h : Stretchable α frame whole) (hne : ¬ part.IsEmpty) (hsub : part ⊆ whole)
    (hx : lowest ≤ whole.x) (hy : lowest ≤ whole.y) : Stretchable α frame part := by
  refine ⟨?_, h.room.mono hne hsub⟩
  obtain ⟨_, _, _, _⟩ := Rect.within_of_subset hne hsub
  have hsteps := h.steps
  simp only [expandSteps, List.forall_mem_cons, List.not_mem_nil, false_imp_iff, implies_true,
    and_true, Fits, lowest, highest, firstCoarseRow, Rect.IsEmpty] at *
  omega

/-- Counted from the corner of the halved rectangle, nothing is far away. -/
theorem half (h : Stretchable α frame part) (hne : ¬ part.IsEmpty)
    (hhalf : part.reduced = .ok (Rect.half part)) : Stretchable α (Rect.half part) part := by
  refine ⟨?_, h.room⟩
  rw [Rect.reduced_eq, stepwise_eq_ok_iff, Rect.reducedSteps, if_neg hne] at hhalf
  have hreduced := hhalf.1
  have hsteps := h.steps
  rw [Rect.half_of_not_isEmpty hne]
  simp only [expandSteps, List.forall_mem_cons, List.not_mem_nil, false_imp_iff, implies_true,
    and_true, Fits, lowest, highest, firstCoarseRow, Rect.IsEmpty] at *
  omega

end Stretchable

variable [Channel κ]

/-- Doubling onto a rectangle with pixels answers exactly when it is possible: no row is looked up
that is not at hand. -/
theorem expand_eq_ok_iff {coarse up : Raster α} (hne : ¬ target.IsEmpty) :
    coarse.expand frame target = .ok up ↔
      Stretchable α frame target ∧ up = coarse.stretch frame target := by
  have hpixels := mt Rect.isEmpty_iff_sides.mpr hne
  constructor
  · intro hup
    have hstretch := ((ends_expand coarse frame target).of_ok hup).1
    rw [expand, if_neg hpixels, bind_eq_ok_iff] at hup
    obtain ⟨_, hexpandable, -⟩ := hup
    exact ⟨(expandable_eq_ok_iff hne).mp hexpandable, hstretch⟩
  · rintro ⟨hable, rfl⟩
    have hcount : (coarseRows target : Int) ≤ highest := by
      have hfits := hable.steps ((target.y + target.height) / 2 + 1 - firstCoarseRow target)
        (by simp [expandSteps])
      simp only [coarseRows, firstCoarseRow, Rect.IsEmpty, Fits] at *
      split <;> omega
    rw [expand, if_neg hpixels, (expandable_eq_ok_iff hne).mpr hable]
    refine Ends.eq_ok ((ends_stretchRows coarse frame target).bind_eq ?_)
    exact ends_compute fun i hi j hj => ends_betweenRows coarse frame hi hj (.inr hcount)

/-- Where doubling does not answer, a coordinate overflowed or memory was short. -/
theorem ends_expand_stretchable (coarse : Raster α) (frame target : Rect) :
    Ends (fun cause => IsRange cause ∧ ¬ Stretchable α frame target) (·.Fills target)
      (coarse.expand frame target) := by
  have hends := ends_expand coarse frame target
  cases hup : coarse.expand frame target with
  | ok up =>
    rw [hup] at hends
    rw [hends.1]
    exact fills_stretch coarse frame target
  | error cause =>
    refine ⟨(hends.of_error hup).imp id And.left, fun hable => ?_⟩
    by_cases hempty : target.IsEmpty
    · rw [expand_of_isEmpty coarse frame hempty] at hup
      cases hup
    · rw [(expand_eq_ok_iff hempty).mpr ⟨hable, rfl⟩] at hup
      cases hup

/-! ## Parts and cuts -/

/-- Doubling onto a part gives that part. -/
theorem stretch_eq_cut (coarse : Raster α) (hsub : part ⊆ whole) :
    coarse.stretch frame part = (coarse.stretch frame whole).cut (part.seenFrom whole) := by
  refine ext_cell (fills_stretch ..) (fills_cut _ (part.seenFrom whole)) fun p hp => ?_
  rw [cell_stretch coarse frame hp, cell_cut hp, cell_stretch coarse frame (hsub p hp)]

/-- Only the halved rectangle counts. -/
theorem stretch_cut_half (coarse : Raster α) (part : Rect) :
    (coarse.cut ((half part).seenFrom frame)).stretch (half part) part =
      coarse.stretch frame part := by
  refine ext_cell (fills_stretch ..) (fills_stretch ..) fun p hp => ?_
  rw [cell_stretch _ _ hp, cell_stretch _ _ hp]
  refine stretchAt_congr fun q hq => ?_
  exact cell_cut (Rect.mem_half_of_spreads hp hq)

/-- **Doubling is local, bit for bit.**  Where a raster can be doubled onto a rectangle, it can be
doubled onto every part of it that has pixels, and gives that part; and the part of the raster over
the halved rectangle, with zeros where the raster ends, gives the same.  Doubling onto any
rectangle answers unless a coordinate overflows or memory is short: it never looks up a row that is
not at hand. -/
theorem expand_part (coarse : Raster α) {big : Raster α} (hne : ¬ part.IsEmpty)
    (hsub : part ⊆ whole) (hx : lowest ≤ whole.x) (hy : lowest ≤ whole.y)
    (hbig : coarse.expand frame whole = .ok big) :
    coarse.expand frame part = .ok (big.cut (part.seenFrom whole)) ∧
      (∀ near, part.reduced = .ok near →
        (coarse.cut (near.seenFrom frame)).expand near part =
          .ok (big.cut (part.seenFrom whole))) ∧
      ∀ target, Ends (fun cause => IsRange cause ∧ ¬ Stretchable α frame target)
        (·.Fills target) (coarse.expand frame target) := by
  have hwhole : ¬ whole.IsEmpty := fun he =>
    hne (Rect.isEmpty_iff.mpr fun p hp => Rect.not_mem_of_isEmpty he p (hsub p hp))
  obtain ⟨hable, rfl⟩ := (expand_eq_ok_iff hwhole).mp hbig
  have hpart := hable.of_subset hne hsub hx hy
  rw [← stretch_eq_cut coarse hsub]
  refine ⟨(expand_eq_ok_iff hne).mpr ⟨hpart, rfl⟩, fun near hnear => ?_,
    coarse.ends_expand_stretchable frame⟩
  obtain rfl := (Rect.ends_reduced part).of_ok hnear
  exact (expand_eq_ok_iff hne).mpr ⟨hpart.half hne hnear, (stretch_cut_half coarse part).symm⟩

/-- Four samples from the left of the origin on. -/
def crossed : Raster Float32 := tabulate 2 2 fun x y => if x = y then 1 else 0.5

/-- They are doubled onto a rectangle that reaches past them, and onto a part of it with odd
edges, the first pixel of which is the mean of all four. -/
theorem expand_part_odd :
    ∃ big small, crossed.expand ⟨-1, 0, 2, 2⟩ ⟨-3, -1, 6, 5⟩ = .ok big ∧
      crossed.expand ⟨-1, 0, 2, 2⟩ ⟨-1, 1, 3, 2⟩ = .ok small ∧ small = big.cut ⟨2, 2, 3, 2⟩ ∧
      small.peek 0 0 = 0.75 ∧
      (crossed.cut ⟨0, 0, 3, 2⟩).expand ⟨-1, 0, 3, 2⟩ ⟨-1, 1, 3, 2⟩ = .ok small := by
  have hwhole : ¬ (⟨-3, -1, 6, 5⟩ : Rect).IsEmpty := by decide
  have hpart : ¬ (⟨-1, 1, 3, 2⟩ : Rect).IsEmpty := by decide
  have hable : Stretchable Float32 ⟨-1, 0, 2, 2⟩ ⟨-3, -1, 6, 5⟩ :=
    ⟨by decide, Nat.le_of_ble_eq_true rfl, Nat.le_of_ble_eq_true rfl⟩
  have hbig : crossed.expand ⟨-1, 0, 2, 2⟩ ⟨-3, -1, 6, 5⟩ =
      .ok (crossed.stretch ⟨-1, 0, 2, 2⟩ ⟨-3, -1, 6, 5⟩) :=
    (expand_eq_ok_iff hwhole).mpr ⟨hable, rfl⟩
  obtain ⟨hsmall, hnear, -⟩ := expand_part crossed hpart (by decide) (by decide) (by decide) hbig
  have hcut : Rect.seenFrom ⟨-1, 1, 3, 2⟩ ⟨-3, -1, 6, 5⟩ = ⟨2, 2, 3, 2⟩ := rfl
  have hcorner : Rect.seenFrom ⟨-1, 0, 3, 2⟩ ⟨-1, 0, 2, 2⟩ = ⟨0, 0, 3, 2⟩ := rfl
  have hsame := hnear ⟨-1, 0, 3, 2⟩ rfl
  rw [hcorner] at hsame
  rw [hcut] at hsmall hsame
  refine ⟨_, _, hbig, hsmall, rfl, ?_, hsame⟩
  decide +kernel

end Patchwork.Raster
