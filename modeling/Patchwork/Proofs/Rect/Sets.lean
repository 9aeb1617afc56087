import Patchwork.Proofs.Rect.Exact

/-!
# Rectangles as sets of pixels

Each operation on rectangles is an operation on the sets of pixels they stand for, as long as the
coordinates that it computes are in range.

## Main definitions

* `Rect.containsSteps`, `Rect.containsRectSteps` — what deciding a membership or an inclusion
  computes.
* `Rect.ActsOnPixels` — the operations, by the pixels of their answers.

## Main statements

* `Rect.acts_on_pixels` — every operation does so.
-/

namespace Patchwork

open Outcome Coordinate

namespace Rect

/-! ## Membership -/

/-- The coordinates that decide whether a point lies inside.  The far edges are needed only for a
point past the near ones. -/
def containsSteps (r : Rect) (p : Point) : List Int :=
  if p.x < r.x then []
  else if r.x + r.width ≤ p.x ∨ p.y < r.y then [r.x + r.width]
  else [r.x + r.width, r.y + r.height]

theorem contains_eq (r : Rect) (p : Point) :
    r.contains p.x p.y = stepwise (containsSteps r p) (decide (p ∈ r)) := by
  have hmem : p ∈ r ↔ ¬ p.x < r.x ∧ ¬ r.x + r.width ≤ p.x ∧ ¬ p.y < r.y ∧
      p.y < r.y + r.height := by
    rw [mem_iff]
    omega
  by_cases hleft : p.x < r.x
  · simpa [contains, containsSteps, hmem, hleft] using pure_eq_stepwise false
  by_cases hright : r.x + r.width ≤ p.x
  · simp only [contains, containsSteps, hmem, hleft, hright, true_or, if_true, if_false]
    exact checked_bind (by simpa [hright] using pure_eq_stepwise false)
  by_cases htop : p.y < r.y
  · simp only [contains, containsSteps, hmem, hleft, hright, htop, or_true, if_true, if_false]
    exact checked_bind (by simpa [hright] using pure_eq_stepwise false)
  simp only [contains, containsSteps, hmem, hleft, hright, htop, or_self, if_false]
  refine checked_bind ?_
  simp only [hright, if_false]
  exact checked_bind (by simpa using pure_eq_stepwise _)

/-! ## Inclusion -/

theorem subset_iff {a b : Rect} : a ⊆ b ↔ a.IsEmpty ∨ Within a b := by
  constructor
  · intro h
    by_cases ha : a.IsEmpty
    · exact .inl ha
    · exact .inr (within_of_subset ha h)
  · rintro (ha | ⟨_, _, _, _⟩) p hp
    · exact absurd hp (not_mem_of_isEmpty ha p)
    · rw [mem_iff] at hp ⊢
      omega

instance (a b : Rect) : Decidable (Within a b) :=
  decidable_of_iff (b.x ≤ a.x ∧ a.x + a.width ≤ b.x + b.width ∧ b.y ≤ a.y ∧
      a.y + a.height ≤ b.y + b.height)
    ⟨fun ⟨hl, hr, ht, hb⟩ => ⟨hl, hr, ht, hb⟩, fun ⟨hl, hr, ht, hb⟩ => ⟨hl, hr, ht, hb⟩⟩

instance (a b : Rect) : Decidable (a ⊆ b) := decidable_of_iff _ subset_iff.symm

/-- The coordinates that decide whether a rectangle lies inside another. -/
def containsRectSteps (r other : Rect) : List Int :=
  if other.IsEmpty ∨ other.x < r.x ∨ other.y < r.y then []
  else if r.x + r.width < other.x + other.width then [r.x + r.width, other.x + other.width]
  else [r.x + r.width, other.x + other.width, other.y + other.height, r.y + r.height]

theorem containsRect_eq (r other : Rect) :
    r.containsRect other = stepwise (containsRectSteps r other) (decide (other ⊆ r)) := by
  by_cases hempty : other.IsEmpty
  · simpa [containsRect, containsRectSteps, subset_iff, hempty] using pure_eq_stepwise true
  have hsub : other ⊆ r ↔ ¬ other.x < r.x ∧ ¬ other.y < r.y ∧
      ¬ r.x + r.width < other.x + other.width ∧
      other.y + other.height ≤ r.y + r.height := by
    rw [subset_iff, or_iff_right hempty]
    exact ⟨fun ⟨_, _, _, _⟩ => by omega, fun _ => ⟨by omega, by omega, by omega, by omega⟩⟩
  by_cases hleft : other.x < r.x
  · simpa [containsRect, containsRectSteps, hsub, hempty, hleft] using pure_eq_stepwise false
  by_cases htop : other.y < r.y
  · simpa [containsRect, containsRectSteps, hsub, hempty, hleft, htop] using pure_eq_stepwise false
  by_cases hright : r.x + r.width < other.x + other.width
  · simp only [containsRect, containsRectSteps, hsub, hempty, hleft, htop, hright, or_self, if_true,
      if_false]
    exact checked_bind (checked_bind (by simpa [hright] using pure_eq_stepwise false))
  simp only [containsRect, containsRectSteps, hsub, hempty, hleft, htop, hright, or_self, if_false]
  refine checked_bind (checked_bind ?_)
  simp only [hright, if_false]
  exact checked_bind (checked_bind (by simpa using pure_eq_stepwise _))

/-! ## The operations on pixels -/

/-- The operations on two rectangles, by the pixels of their answers.  Each answers when all
coordinates that it computes are in range and overflows when one of them is not. -/
structure ActsOnPixels (a b : Rect) : Prop where
  /-- Containing a point is having it as a pixel. -/
  contains : ∀ p : Point, ∃ found, a.contains p.x p.y = stepwise (containsSteps a p) found ∧
    (found = true ↔ p ∈ a)
  /-- Containing a rectangle is having all its pixels. -/
  containsRect : ∃ found, a.containsRect b = stepwise (containsRectSteps a b) found ∧
    (found = true ↔ ∀ p, p ∈ b → p ∈ a)
  /-- The common part has the pixels of both. -/
  intersect : ∃ c, a.intersect b = stepwise (intersectSteps a b) c ∧
    ∀ p, p ∈ c ↔ p ∈ a ∧ p ∈ b
  /-- Rectangles intersect when some pixel is in both. -/
  intersects : ∃ found, a.intersects b = stepwise (intersectSteps a b) found ∧
    (found = true ↔ ∃ p, p ∈ a ∧ p ∈ b)
  /-- The rectangle around both has their pixels, and all rectangles that have them have its. -/
  grow : ∃ c, a.grow b = stepwise (growSteps a b) c ∧ (∀ p, p ∈ a ∨ p ∈ b → p ∈ c) ∧
    ∀ d : Rect, (∀ p, p ∈ a ∨ p ∈ b → p ∈ d) → ∀ p, p ∈ c → p ∈ d
  /-- One resolution down, a pixel stands for the three by three around its double. -/
  reduced : ¬ a.IsEmpty → ∃ c, a.reduced = stepwise (reducedSteps a) c ∧
    ∀ q, q ∈ c ↔ ∃ p, p ∈ a ∧ p ∈ (⟨2 * q.x - 1, 2 * q.y - 1, 3, 3⟩ : Rect)
  /-- One resolution up, the same three by three. -/
  expanded : ¬ a.IsEmpty → ∃ c, a.expanded = stepwise (expandedSteps a) c ∧
    ∀ p, p ∈ c ↔ ∃ q, q ∈ a ∧ p ∈ (⟨2 * q.x - 1, 2 * q.y - 1, 3, 3⟩ : Rect)

/-- The points in which a coarse point has a share. -/
theorem spreads_iff_mem {p q : Point} :
    q.Spreads p ↔ p ∈ (⟨2 * q.x - 1, 2 * q.y - 1, 3, 3⟩ : Rect) := by
  simp only [Point.Spreads, mem_iff]
  omega

/-- **Rectangles are sets of pixels**: the operations on them, of whatever size and position, are
operations on sets. -/
theorem acts_on_pixels (a b : Rect) : ActsOnPixels a b where
  contains p := ⟨decide (p ∈ a), a.contains_eq p, decide_eq_true_iff⟩
  containsRect := ⟨decide (b ⊆ a), a.containsRect_eq b, decide_eq_true_iff⟩
  intersect := ⟨meet a b, a.intersect_eq b, fun _ => mem_meet⟩
  intersects := ⟨decide (Meets a b), a.intersects_eq b, decide_eq_true_iff⟩
  grow := by
    refine ⟨join a b, a.grow_eq b, ?_, ?_⟩
    · rintro p (hp | hp)
      · exact subset_join_left a b p hp
      · exact subset_join_right a b p hp
    · intro d hd
      exact join_subset (fun p hp => hd p (.inl hp)) fun p hp => hd p (.inr hp)
  reduced ha := by
    refine ⟨half a, a.reduced_eq, fun q => ?_⟩
    simp only [mem_half_iff ha, spreads_iff_mem]
  expanded ha := by
    refine ⟨double a, a.expanded_eq, fun p => ?_⟩
    simp only [mem_double_iff ha, spreads_iff_mem]

/-- Odd edges left of the origin. -/
example : (⟨-3, 1, 4, 2⟩ : Rect).reduced = .ok ⟨-2, 0, 3, 2⟩ := rfl

end Rect

end Patchwork
