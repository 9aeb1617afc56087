import Mathlib.Data.List.Basic
import Patchwork.Patch.Footprint
import Patchwork.Proofs.Rect.Exact

/-!
# Which sources a patch depends on

The rectangles of a patch are the iterated halves of its own, and the rectangle its sources are
selected against is the smallest one around their iterated doubles.  A source that meets the patch
at any resolution meets that rectangle, so selecting against it misses nothing; and a smaller patch
selects no source that a larger one does not.

## Main definitions

* `Footprint.halves` — the rectangle of a patch at every level.
* `Footprint.catchment` — the smallest rectangle around all of them, mapped up to the finest level.

## Main statements

* `Footprint.ends_levels`, `Footprint.ends_padded` — what the checked computations give.
* `Footprint.meets_catchment` — a source that meets some level is selected.
* `Footprint.catchment_subset_catchment` — a part of a patch needs no more than the whole.
-/

namespace Patchwork.Footprint

open Outcome Coordinate Rect

/-! ## The levels -/

/-- The rectangle of a patch at `count` levels, finest first. -/
def halves (r : Rect) (count : Nat) : List Rect := (List.range count).map fun k => half^[k] r

@[simp] theorem length_halves (r : Rect) (count : Nat) : (halves r count).length = count := by
  simp [halves]

theorem halves_succ (r : Rect) (count : Nat) :
    halves r (count + 1) = r :: halves (half r) count := by
  simp only [halves, List.range_succ_eq_map, List.map_cons, List.map_map]
  rfl

theorem getElem?_halves {r : Rect} {count k : Nat} (hk : k < count) :
    (halves r count)[k]? = some (half^[k] r) := by
  simp [halves, hk]

theorem halves_of_fixed {r : Rect} (h : half r = r) (count : Nat) :
    halves r count = List.replicate count r := by
  induction count with
  | zero => rfl
  | succ count ih => rw [halves_succ, h, ih, List.replicate_succ]

/-- The far edge computed from the size agrees with the one computed from the corners. -/
theorem ends_farEdge {start size : Int} (hsize : 0 < size) :
    Ends IsOverflow (· = (start + size) / 2 + 1) (farEdge start size) := by
  refine (ends_checked_eq _).bind_eq ?_
  refine (ends_checked_eq _).bind_eq ?_
  apply (ends_checked _).imp
  rintro _ ⟨rfl, -⟩
  have hspare : 0 ≤ size + start % 2 := by omega
  rw [Int.tdiv_eq_ediv_of_nonneg hspare]
  omega

theorem ends_next (r : Rect) : Ends IsOverflow (· = half r) (next r) := by
  refine (ends_reduced r).bind_eq ?_
  by_cases h : r.IsEmpty
  · simp [h]
  have hcoarse := half_of_not_isEmpty h
  simp only [h, not_false_eq_true, if_true]
  simp only [Rect.IsEmpty, not_or, Int.not_le] at h
  refine (ends_maxX _).bind_eq ?_
  refine (ends_farEdge h.1).bind_eq ?_
  refine ((ends_require _ _).weaken fun _ hne => absurd ?_ hne.2).bind ?_
  · simp only [hcoarse]
    omega
  intro _ _
  refine (ends_maxY _).bind_eq ?_
  refine (ends_farEdge h.2).bind_eq ?_
  refine ((ends_require _ _).weaken fun _ hne => absurd ?_ hne.2).bind fun _ _ => rfl
  simp only [hcoarse]
  omega

theorem ends_chain (r : Rect) (count : Nat) :
    Ends IsOverflow (· = halves r count) (chain r count) := by
  induction count generalizing r with
  | zero => exact rfl
  | succ count ih =>
    refine (ends_next r).bind_eq ?_
    by_cases h : half r = r
    · simp [h, halves_of_fixed h]
    simp only [h, if_false]
    refine (ih (half r)).bind_eq ?_
    simp [halves_succ]

/-- The list of this many rectangles fits one block of memory. -/
def LevelRoom (count : Nat) : Prop := 16 * count ≤ blockMax

theorem ends_levels (r : Rect) (count : Nat) :
    Ends (fun cause => IsOverflow cause ∨ cause = .fault .capacity ∧ ¬ LevelRoom count)
      (fun frames => frames = halves r count ∧ LevelRoom count) (levels r count) := by
  apply ((ends_require _ _).weaken fun _ => .inr).bind
  intro _ hroom
  exact (ends_chain r count).mono (fun _ => .inl) fun _ h => ⟨h, hroom⟩

/-! ## The union of the levels -/

theorem ends_raised (r : Rect) (k : Nat) : Ends IsOverflow (· = double^[k] r) (raised r k) := by
  induction k generalizing r with
  | zero => exact rfl
  | succ k ih =>
    refine (ends_expanded r).bind_eq ?_
    exact ih _

/-- A rectangle grown by those of the levels from `level` on, each doubled up to the finest. -/
def around (union : Rect) (level : Nat) : List Rect → Rect
  | [] => union
  | r :: coarser => around (join union (double^[level] r)) (level + 1) coarser

theorem ends_reach (union : Rect) (level : Nat) (rects : List Rect) :
    Ends IsOverflow (· = around union level rects) (reach union level rects) := by
  induction rects generalizing union level with
  | nil => exact rfl
  | cons r coarser ih =>
    refine (ends_raised r level).bind_eq ?_
    refine (ends_grow _ _).bind_eq ?_
    exact ih _ _

theorem subset_around (union : Rect) (level : Nat) (rects : List Rect) :
    union ⊆ around union level rects := by
  induction rects generalizing union level with
  | nil => exact fun _ h => h
  | cons r coarser ih => exact fun p hp => ih _ _ p (subset_join_left _ _ p hp)

/-- Every level lies inside the union once it is doubled up. -/
theorem double_subset_around {union r : Rect} {level k : Nat} {rects : List Rect}
    (hr : rects[k]? = some r) : double^[level + k] r ⊆ around union level rects := by
  induction rects generalizing union level k with
  | nil => simp at hr
  | cons s coarser ih =>
    cases k with
    | zero =>
      simp only [List.getElem?_cons_zero, Option.some.injEq] at hr
      subst hr
      exact fun p hp => subset_around (join union _) _ _ p (subset_join_right _ _ p hp)
    | succ k =>
      have := @ih (join union (double^[level] s)) (level + 1) k hr
      rwa [Nat.add_right_comm] at this

/-- The union is the smallest rectangle around the doubled levels. -/
theorem around_subset {union c : Rect} {level : Nat} {rects : List Rect} (hu : union ⊆ c)
    (hr : ∀ k r, rects[k]? = some r → double^[level + k] r ⊆ c) :
    around union level rects ⊆ c := by
  induction rects generalizing union level with
  | nil => exact hu
  | cons s coarser ih =>
    apply ih (join_subset hu (hr 0 s rfl))
    intro k r hk
    have := hr (k + 1) r hk
    rwa [← Nat.add_assoc, Nat.add_right_comm] at this

/-- The smallest rectangle around all levels of a patch, each doubled up to the finest. -/
def catchment (r : Rect) (count : Nat) : Rect := around Rect.none 0 (halves r count)

theorem ends_padded (r : Rect) (count : Nat) :
    Ends IsOverflow (· = catchment r count) (padded (halves r count)) :=
  ends_reach _ _ _

theorem double_half_subset_catchment (r : Rect) {count k : Nat} (hk : k < count) :
    double^[k] (half^[k] r) ⊆ catchment r count := by
  have := @double_subset_around Rect.none _ 0 _ _ (getElem?_halves (r := r) hk)
  rwa [Nat.zero_add] at this

theorem subset_catchment (r : Rect) {count : Nat} (hcount : 0 < count) : r ⊆ catchment r count :=
  double_half_subset_catchment r hcount

/-- **Selection is complete.**  A source that meets the patch at some level, reduced to that level,
meets the catchment. -/
theorem meets_catchment {placement r : Rect} {count k : Nat} (hk : k < count)
    (h : Meets (half^[k] placement) (half^[k] r)) : Meets placement (catchment r count) := by
  obtain ⟨p, hp, hp'⟩ := meets_double_iterate h
  exact ⟨p, hp, double_half_subset_catchment r hk p hp'⟩

/-- A part of a patch needs no more sources than the whole. -/
theorem catchment_subset_catchment {a b : Rect} (ha : ¬ a.IsEmpty) (hab : a ⊆ b) (count : Nat) :
    catchment a count ⊆ catchment b count := by
  apply around_subset (fun p hp => absurd hp (not_mem_of_isEmpty (.inl (Int.le_refl 0)) p))
  intro k r hk
  have hcount : k < count := by
    have := (List.getElem?_eq_some_iff.mp hk).1
    rwa [length_halves] at this
  rw [getElem?_halves hcount, Option.some.injEq] at hk
  subst hk
  rw [Nat.zero_add]
  intro p hp
  refine double_half_subset_catchment b hcount p ?_
  exact double_iterate_subset (not_isEmpty_half_iterate ha k) (half_iterate_subset ha hab k) k p hp

end Patchwork.Footprint
