import Mathlib.Algebra.Order.Ring.Rat
import Mathlib.Tactic.Linarith
import Patchwork.Pixel

/-!
# Counting in a channel

A distance is counted in steps: from zero, by adding one and by taking the smaller of two.  What has
to be known of a channel for that is little: the values reached are comparable, a step never gives
zero, and equality of values is the absence of an order between them.  Nothing is said about two
counts being different after different numbers of steps; in single precision they need not be.

## Main definitions

* `Channel.Counting` — a channel in which steps can be counted.
-/

namespace Patchwork.Channel

/-- A channel in which steps can be counted. -/
class Counting (κ : Type) [Channel κ] where
  /-- The values that counting can reach. -/
  Count : κ → Prop
  /-- Counting starts at zero. -/
  zero : Count 0
  /-- One step further. -/
  succ {a : κ} : Count a → Count (a + 1)
  /-- A step never gives zero. -/
  succ_pos {a : κ} : Count a → 0 < a + 1
  /-- No count lies below zero. -/
  not_lt_zero {a : κ} : Count a → ¬ a < 0
  /-- No count lies below itself. -/
  lt_irrefl {a : κ} : Count a → ¬ a < a
  /-- The order of counts is transitive. -/
  lt_trans {a b c : κ} : Count a → Count b → Count c → a < b → b < c → a < c
  /-- A count lies above the lower or below the higher of two others. -/
  lt_or_lt {a b c : κ} : Count a → Count b → Count c → a < c → a < b ∨ b < c
  /-- Counts are equal when neither lies below the other. -/
  beq_iff {a b : κ} : Count a → Count b → ((a == b) = true ↔ ¬ a < b ∧ ¬ b < a)

export Counting (Count)

theorem smaller_eq_or {κ : Type} [Channel κ] (a b : κ) : smaller a b = a ∨ smaller a b = b := by
  unfold smaller
  split
  · exact .inr rfl
  · exact .inl rfl

theorem smaller_pos {κ : Type} [Channel κ] {a b : κ} (ha : 0 < a) (hb : 0 < b) :
    0 < smaller a b := by
  rcases smaller_eq_or a b with h | h <;> rwa [h]

section Order

variable {κ : Type} [Channel κ] [Counting κ] {a b : κ}

theorem Count.smaller (ha : Count a) (hb : Count b) : Count (smaller a b) := by
  rcases smaller_eq_or a b with h | h <;> rwa [h]

/-- A count that is not zero is positive. -/
theorem Count.pos (ha : Count a) (h : (a == 0) = false) : 0 < a := by
  by_contra hpos
  have heq := (Counting.beq_iff ha Counting.zero).mpr ⟨Counting.not_lt_zero ha, hpos⟩
  rw [heq] at h
  cases h

end Order

/-- The rationals that are not negative. -/
instance : Counting Rat where
  Count a := 0 ≤ a
  zero := le_refl (0 : ℚ)
  succ {a} (h : (0 : ℚ) ≤ a) := show (0 : ℚ) ≤ a + 1 by linarith
  succ_pos {a} (h : (0 : ℚ) ≤ a) := show (0 : ℚ) < a + 1 by linarith
  not_lt_zero {a} (h : (0 : ℚ) ≤ a) := not_lt.mpr h
  lt_irrefl {a} _ := lt_irrefl (a : ℚ)
  lt_trans _ _ _ hab hbc := lt_trans (α := ℚ) hab hbc
  lt_or_lt {a b c} _ _ _ (h : (a : ℚ) < c) :=
    (lt_or_ge (a : ℚ) b).imp_right fun hb => lt_of_le_of_lt hb h
  beq_iff {a b} _ _ := show ((a : ℚ) == b) = true ↔ ¬ a < b ∧ ¬ b < a by
    rw [beq_iff_eq, not_lt, not_lt, and_comm]
    exact le_antisymm_iff

end Patchwork.Channel
