import Mathlib.Tactic.Linarith
import Patchwork.Proofs.Patch.Footprint

/-!
# Coordinates that stay in range

Every checked operation on rectangles answers as long as the rectangles keep away from the ends of
the coordinate range.  How far a rectangle reaches from the origin is a bound that halving, cutting
and joining never enlarge.  Doubling does, and a level that is doubled back to the finest one is
kept in range by what the halving before it left over.

## Main definitions

* `Rect.Clear` — the positions that a blur of a rectangle reads are coordinates.
* `Rect.IsSheet`, `Rect.LiesOn` — coordinates that can be compared, and a rectangle among them.
* `Rect.Bounded` — a rectangle of non-negative size within some distance of the origin.
* `Rect.Roomy` — a rectangle with which nothing goes out of range.
* `Rect.Sane` — a range that is safely within.
* `Rect.Doublable` — a rectangle that can be doubled a number of times.

## Main statements

* `Rect.Bounded.doublable_half` — level `k` of a rectangle in range can be doubled `k` times.
* `Footprint.levels_answers`, `Footprint.padded_answers` — the levels of a patch, and the rectangle
  its sources are selected against, always exist.
-/

namespace Patchwork

open Outcome Coordinate

variable {E : Failure → Prop}

namespace Rect

theorem answers_ofCorners {minX minY maxX maxY : Int} (hx : Fits (maxX - minX))
    (hy : Fits (maxY - minY)) :
    Ends E (· = spanning minX minY maxX maxY) (ofCorners minX minY maxX maxY) := by
  rw [ofCorners_eq]
  exact ends_stepwise_of (.inr (by simp [hx, hy]))

theorem answers_translate {r : Rect} {dx dy : Int} (hx : Fits (r.x + dx)) (hy : Fits (r.y + dy)) :
    Ends E (· = r.moved dx dy) (r.translate dx dy) := by
  refine (answers_checked hx).bind_eq ?_
  refine (answers_checked hy).bind_eq ?_
  exact rfl

/-- The rectangle of a size, moved to its place. -/
theorem answers_ofSize {x y : Int} {width height : Nat} (hwidth : (width : Int) ≤ highest)
    (hheight : (height : Int) ≤ highest) (hx : Fits x) (hy : Fits y) :
    Ends E (· = ⟨x, y, width, height⟩) ((Rect.ofSize width height).translate x y) := by
  have hsize : Rect.ofSize width height = ⟨0, 0, width, height⟩ := by
    simp only [Rect.ofSize, clamped, ofSide, highest, Rect.mk.injEq, true_and] at *
    omega
  have hmoved : (⟨0, 0, width, height⟩ : Rect).moved x y = ⟨x, y, width, height⟩ := by
    simp only [moved, Int.zero_add]
  rw [hsize, ← hmoved]
  exact answers_translate ((Int.zero_add x).symm ▸ hx) ((Int.zero_add y).symm ▸ hy)

/-- Every position that a blur of the rectangle reads is a coordinate, in the shared frame and
counted from the corner of the rectangle. -/
structure Clear (r : Rect) : Prop where
  /-- The near column. -/
  left : lowest ≤ r.x
  /-- The column past the far one. -/
  right : r.x + r.width ≤ highest
  /-- The last position that is read in a row. -/
  across : 2 * ((r.x + r.width) / 2) - r.x + 2 ≤ highest
  /-- The near row. -/
  top : lowest ≤ r.y
  /-- The row past the far one. -/
  bottom : r.y + r.height ≤ highest
  /-- The last position that is read in a column. -/
  down : 2 * ((r.y + r.height) / 2) - r.y + 2 ≤ highest

instance (r : Rect) : Decidable r.Clear :=
  decidable_of_iff (lowest ≤ r.x ∧ r.x + r.width ≤ highest ∧
      2 * ((r.x + r.width) / 2) - r.x + 2 ≤ highest ∧ lowest ≤ r.y ∧ r.y + r.height ≤ highest ∧
      2 * ((r.y + r.height) / 2) - r.y + 2 ≤ highest)
    ⟨fun ⟨hl, hr, ha, ht, hb, hd⟩ => ⟨hl, hr, ha, ht, hb, hd⟩,
      fun ⟨hl, hr, ha, ht, hb, hd⟩ => ⟨hl, hr, ha, ht, hb, hd⟩⟩

namespace Clear

theorem half {r : Rect} (h : r.Clear) (hne : ¬ r.IsEmpty) : (Rect.half r).Clear := by
  obtain ⟨_, _, _, _, _, _⟩ := h
  rw [half_of_not_isEmpty hne]
  simp only [IsEmpty, lowest, highest] at *
  constructor <;> simp only [lowest, highest] <;> omega

theorem answers_reduced {r : Rect} (h : r.Clear) (hne : ¬ r.IsEmpty) :
    Ends E (· = Rect.half r) r.reduced := by
  obtain ⟨_, _, _, _, _, _⟩ := h
  rw [reduced_eq]
  refine ends_stepwise_of (.inr ?_)
  rw [reducedSteps, if_neg hne]
  simp only [List.forall_mem_cons, List.not_mem_nil, false_imp_iff, implies_true, and_true, Fits,
    IsEmpty, lowest, highest] at *
  omega

end Clear

/-! ## On a sheet -/

/-- The differences of the coordinates on a sheet are coordinates. -/
structure IsSheet (b : Rect) : Prop where
  /-- The near column. -/
  left : lowest ≤ b.x
  /-- The column past the far one. -/
  right : b.x + b.width ≤ highest
  /-- From one to the other. -/
  across : b.width ≤ highest
  /-- The near row. -/
  top : lowest ≤ b.y
  /-- The row past the far one. -/
  bottom : b.y + b.height ≤ highest
  /-- From one to the other. -/
  down : b.height ≤ highest

/-- A rectangle of non-negative size with corners on a sheet. -/
structure LiesOn (r sheet : Rect) : Prop extends Within r sheet where
  /-- The columns are counted from the near one on. -/
  wide : 0 ≤ r.width
  /-- The rows are counted from the near one on. -/
  high : 0 ≤ r.height

instance (r sheet : Rect) : Decidable (r.LiesOn sheet) :=
  decidable_of_iff ((sheet.x ≤ r.x ∧ r.x + r.width ≤ sheet.x + sheet.width ∧ sheet.y ≤ r.y ∧
      r.y + r.height ≤ sheet.y + sheet.height) ∧ 0 ≤ r.width ∧ 0 ≤ r.height)
    ⟨fun ⟨⟨hl, hr, ht, hb⟩, hw, hh⟩ => ⟨⟨hl, hr, ht, hb⟩, hw, hh⟩,
      fun ⟨⟨hl, hr, ht, hb⟩, hw, hh⟩ => ⟨⟨hl, hr, ht, hb⟩, hw, hh⟩⟩

namespace LiesOn

variable {sheet a b r : Rect}

theorem join (ha : a.LiesOn sheet) (hb : b.LiesOn sheet) : (Rect.join a b).LiesOn sheet := by
  by_cases hbe : b.IsEmpty
  · simpa [Rect.join, hbe] using ha
  by_cases hae : a.IsEmpty
  · simpa [Rect.join, hbe, hae] using hb
  obtain ⟨⟨_, _, _, _⟩, _, _⟩ := ha
  obtain ⟨⟨_, _, _, _⟩, _, _⟩ := hb
  simp only [Rect.join, hbe, hae, if_false]
  refine ⟨⟨?_, ?_, ?_, ?_⟩, ?_, ?_⟩ <;> simp only [spanning, clamped] <;> omega

variable (hsheet : sheet.IsSheet)
include hsheet

theorem answers_maxX (h : r.LiesOn sheet) : Ends E (· = r.x + r.width) r.maxX := by
  obtain ⟨_, _, _, _, _, _⟩ := hsheet
  obtain ⟨⟨_, _, _, _⟩, _, _⟩ := h
  apply answers_checked
  simp only [Fits]
  omega

theorem answers_maxY (h : r.LiesOn sheet) : Ends E (· = r.y + r.height) r.maxY := by
  obtain ⟨_, _, _, _, _, _⟩ := hsheet
  obtain ⟨⟨_, _, _, _⟩, _, _⟩ := h
  apply answers_checked
  simp only [Fits]
  omega

/-- The coordinates that comparing two rectangles computes. -/
theorem fits_intersectSteps (ha : a.LiesOn sheet) (hb : b.LiesOn sheet) :
    ∀ v ∈ intersectSteps a b, Fits v := by
  obtain ⟨_, _, _, _, _, _⟩ := hsheet
  obtain ⟨⟨_, _, _, _⟩, _, _⟩ := ha
  obtain ⟨⟨_, _, _, _⟩, _, _⟩ := hb
  simp only [intersectSteps, List.forall_mem_cons, List.not_mem_nil, false_imp_iff, implies_true,
    and_true, Fits, lowest, highest] at *
  omega

theorem answers_intersect (ha : a.LiesOn sheet) (hb : b.LiesOn sheet) :
    Ends E (· = Rect.meet a b) (a.intersect b) := by
  rw [intersect_eq]
  exact ends_stepwise_of (.inr (fits_intersectSteps hsheet ha hb))

theorem answers_intersects (ha : a.LiesOn sheet) (hb : b.LiesOn sheet) :
    Ends E (· = decide (Meets a b)) (a.intersects b) := by
  rw [intersects_eq]
  exact ends_stepwise_of (.inr (fits_intersectSteps hsheet ha hb))

theorem answers_grow (ha : a.LiesOn sheet) (hb : b.LiesOn sheet) :
    Ends E (· = Rect.join a b) (a.grow b) := by
  rw [grow_eq]
  refine ends_stepwise_of (.inr ?_)
  obtain ⟨_, _, _, _, _, _⟩ := hsheet
  obtain ⟨⟨_, _, _, _⟩, _, _⟩ := ha
  obtain ⟨⟨_, _, _, _⟩, _, _⟩ := hb
  unfold growSteps
  split
  · exact List.forall_mem_nil _
  · simp only [List.forall_mem_cons, List.not_mem_nil, false_imp_iff, implies_true, and_true, Fits,
      lowest, highest] at *
    omega

/-- One rectangle is seen from the corner of another where coordinates have opposites. -/
theorem answers_relativeTo (hx : lowest < sheet.x) (hy : lowest < sheet.y) (ha : a.LiesOn sheet)
    (hb : b.LiesOn sheet) : Ends E (· = a.seenFrom b) (a.relativeTo b.x b.y) := by
  obtain ⟨_, _, _, _, _, _⟩ := hsheet
  obtain ⟨⟨_, _, _, _⟩, _, _⟩ := ha
  obtain ⟨⟨_, _, _, _⟩, _, _⟩ := hb
  simp only [lowest, highest] at *
  refine (answers_checked (by simp only [Fits, lowest, highest]; omega)).bind_eq ?_
  refine (answers_checked (by simp only [Fits, lowest, highest]; omega)).bind_eq ?_
  apply answers_translate
  all_goals
    simp only [Fits, lowest, highest]
    omega

end LiesOn

/-! ## Within a distance of the origin -/

/-- A rectangle of non-negative size whose corners lie no further than `n` from the origin. -/
structure Bounded (n : Int) (r : Rect) : Prop where
  /-- The near column. -/
  left : -n ≤ r.x
  /-- The columns are counted from the near one on. -/
  wide : 0 ≤ r.width
  /-- The column past the far one. -/
  right : r.x + r.width ≤ n
  /-- The near row. -/
  top : -n ≤ r.y
  /-- The rows are counted from the near one on. -/
  high : 0 ≤ r.height
  /-- The row past the far one. -/
  bottom : r.y + r.height ≤ n

/-- The distance from the origin that coordinates keep in practice. -/
def saneReach : Int := 268435456

/-- The distance from the origin within which two rectangles can be compared and joined: the
difference of two coordinates there is a coordinate. -/
def fullReach : Int := 1073741823

/-- The distance from the origin at which 28 levels can be doubled back and stay within the full
reach. -/
def roomyReach : Int := 805306369

/-- The longest side of a square raster of the largest pixels that memory can hold. -/
def longest : Int := 759250124

/-- A rectangle of non-negative size with corners and sides that leave room for every computation of
this library. -/
structure Roomy (r : Rect) : Prop where
  /-- It is near enough to the origin. -/
  bounded : r.Bounded roomyReach
  /-- Its rows fit memory. -/
  across : r.width ≤ longest
  /-- So do its columns. -/
  down : r.height ≤ longest

/-- A rectangle of non-negative size with corners in a range that is safely within. -/
def Sane (r : Rect) : Prop := r.Bounded saneReach

instance (n : Int) (r : Rect) : Decidable (r.Bounded n) :=
  decidable_of_iff (-n ≤ r.x ∧ 0 ≤ r.width ∧ r.x + r.width ≤ n ∧
      -n ≤ r.y ∧ 0 ≤ r.height ∧ r.y + r.height ≤ n)
    ⟨fun ⟨hl, hw, hr, ht, hh, hb⟩ => ⟨hl, hw, hr, ht, hh, hb⟩,
      fun ⟨hl, hw, hr, ht, hh, hb⟩ => ⟨hl, hw, hr, ht, hh, hb⟩⟩

instance (r : Rect) : Decidable r.Sane := inferInstanceAs (Decidable (r.Bounded _))

namespace Bounded

variable {n : Int} {a b r : Rect}

theorem mono {m : Int} (h : r.Bounded n) (hm : n ≤ m) : r.Bounded m := by
  obtain ⟨_, _, _, _, _, _⟩ := h
  constructor <;> omega

theorem none (hn : 0 ≤ n) : Rect.none.Bounded n := by
  constructor <;> simp only [Rect.none] <;> omega

theorem meet (ha : a.Bounded n) (hb : b.Bounded n) : (Rect.meet a b).Bounded n := by
  obtain ⟨_, _, _, _, _, _⟩ := ha
  obtain ⟨_, _, _, _, _, _⟩ := hb
  constructor <;> simp only [Rect.meet, spanning, clamped] <;> omega

theorem liesOn_iff : r.LiesOn ⟨-n, -n, 2 * n, 2 * n⟩ ↔ r.Bounded n := by
  have hfar : -n + 2 * n = n := by omega
  constructor
  · rintro ⟨⟨hl, hr, ht, hb⟩, hw, hh⟩
    exact ⟨hl, hw, hr.trans_eq hfar, ht, hh, hb.trans_eq hfar⟩
  · rintro ⟨hl, hw, hr, ht, hh, hb⟩
    exact ⟨⟨hl, hr.trans_eq hfar.symm, ht, hb.trans_eq hfar.symm⟩, hw, hh⟩

theorem join (ha : a.Bounded n) (hb : b.Bounded n) : (Rect.join a b).Bounded n :=
  liesOn_iff.mp ((liesOn_iff.mpr ha).join (liesOn_iff.mpr hb))

/-- Halving brings a rectangle no further from the origin. -/
theorem half (h : r.Bounded n) (hn : 2 ≤ n) : (Rect.half r).Bounded n := by
  obtain ⟨_, _, _, _, _, _⟩ := h
  by_cases he : r.IsEmpty
  · simp only [Rect.half, he, if_true]
    constructor <;> simp only [clamped] <;> omega
  · rw [half_of_not_isEmpty he]
    simp only [IsEmpty] at he
    constructor <;> simp only <;> omega

theorem half_iterate (h : r.Bounded n) (hn : 2 ≤ n) (k : Nat) : (Rect.half^[k] r).Bounded n := by
  induction k generalizing r with
  | zero => exact h
  | succ k ih => exact ih (h.half hn)

/-! ## The checked operations -/

theorem isSheet_full : IsSheet ⟨-fullReach, -fullReach, 2 * fullReach, 2 * fullReach⟩ := by
  constructor <;> decide

theorem answers_maxX (h : r.Bounded fullReach) : Ends E (· = r.x + r.width) r.maxX :=
  (liesOn_iff.mpr h).answers_maxX isSheet_full

theorem answers_maxY (h : r.Bounded fullReach) : Ends E (· = r.y + r.height) r.maxY :=
  (liesOn_iff.mpr h).answers_maxY isSheet_full

theorem answers_intersect (ha : a.Bounded fullReach) (hb : b.Bounded fullReach) :
    Ends E (· = Rect.meet a b) (a.intersect b) :=
  (liesOn_iff.mpr ha).answers_intersect isSheet_full (liesOn_iff.mpr hb)

theorem answers_intersects (ha : a.Bounded fullReach) (hb : b.Bounded fullReach) :
    Ends E (· = decide (Meets a b)) (a.intersects b) :=
  (liesOn_iff.mpr ha).answers_intersects isSheet_full (liesOn_iff.mpr hb)

theorem answers_grow (ha : a.Bounded fullReach) (hb : b.Bounded fullReach) :
    Ends E (· = Rect.join a b) (a.grow b) :=
  (liesOn_iff.mpr ha).answers_grow isSheet_full (liesOn_iff.mpr hb)

/-- Rectangles within the full reach can be seen from each other's corner. -/
theorem answers_relativeTo (ha : a.Bounded fullReach) (hb : b.Bounded fullReach) :
    Ends E (· = a.seenFrom b) (a.relativeTo b.x b.y) :=
  (liesOn_iff.mpr ha).answers_relativeTo isSheet_full (by decide) (by decide) (liesOn_iff.mpr hb)

theorem clear (h : r.Bounded fullReach) (hne : ¬ r.IsEmpty) : r.Clear := by
  obtain ⟨_, _, _, _, _, _⟩ := h
  simp only [fullReach, IsEmpty] at *
  constructor <;> simp only [lowest, highest] <;> omega

theorem answers_reduced (h : r.Bounded fullReach) : Ends E (· = Rect.half r) r.reduced := by
  by_cases he : r.IsEmpty
  · simp [reduced, Rect.half, he]
  · exact (h.clear he).answers_reduced he

/-- Doubling answers when the doubled rectangle is in range as well. -/
theorem answers_expanded (h : r.Bounded fullReach) (hd : (Rect.double r).Bounded fullReach) :
    Ends E (· = Rect.double r) r.expanded := by
  obtain ⟨_, _, _, _, _, _⟩ := h
  obtain ⟨_, _, _, _, _, _⟩ := hd
  rw [expanded_eq]
  refine ends_stepwise_of (.inr ?_)
  simp only [expandedSteps, List.forall_mem_cons, List.not_mem_nil, false_imp_iff, implies_true,
    and_true, Rect.double, spanning, clamped, Fits, lowest, highest, fullReach] at *
  omega

end Bounded

/-! ## Doubling a level back -/

theorem one_le_scale (k : Nat) : (1 : Int) ≤ 2 ^ k := one_le_pow₀ (by decide)

/-- A rectangle that stays within the full reach while it is doubled `k` times. -/
structure Doublable (k : Nat) (r : Rect) : Prop where
  /-- The near column, doubled with its margins. -/
  left : -fullReach ≤ 2 ^ k * r.x - (2 ^ k - 1)
  /-- The columns are counted from the near one on. -/
  wide : 0 ≤ r.width
  /-- The column past the far one, doubled. -/
  right : 2 ^ k * (r.x + r.width) ≤ fullReach
  /-- The near row, doubled with its margins. -/
  top : -fullReach ≤ 2 ^ k * r.y - (2 ^ k - 1)
  /-- The rows are counted from the near one on. -/
  high : 0 ≤ r.height
  /-- The row past the far one, doubled. -/
  bottom : 2 ^ k * (r.y + r.height) ≤ fullReach

/-- A range that is within reach after it has been scaled up is within reach before. -/
theorem le_of_scaled {t lo hi : Int} (ht : 1 ≤ t) (hlo : -fullReach ≤ t * lo - (t - 1))
    (hhi : t * hi ≤ fullReach) : -fullReach ≤ lo ∧ hi ≤ fullReach := by
  simp only [fullReach] at *
  constructor
  · by_contra hlt
    have hscaled : t * lo ≤ t * (-1073741824) := Int.mul_le_mul_of_nonneg_left (by omega) (by omega)
    omega
  · by_contra hgt
    have hscaled : t * 1073741824 ≤ t * hi := Int.mul_le_mul_of_nonneg_left (by omega) (by omega)
    omega

namespace Doublable

variable {k : Nat} {r : Rect}

theorem bounded (h : r.Doublable k) : r.Bounded fullReach := by
  obtain ⟨hl, hw, hr, ht, hh, hb⟩ := h
  have hpow := one_le_scale k
  obtain ⟨hx, hx'⟩ := le_of_scaled hpow hl hr
  obtain ⟨hy, hy'⟩ := le_of_scaled hpow ht hb
  exact ⟨hx, hw, hx', hy, hh, hy'⟩

theorem double (h : r.Doublable (k + 1)) : (Rect.double r).Doublable k := by
  obtain ⟨hl, hw, hr, ht, hh, hb⟩ := h
  rw [Int.pow_succ] at hl hr ht hb
  have hwide : (Rect.double r).x + (Rect.double r).width = 2 * (r.x + r.width) := by
    simp only [Rect.double, spanning, clamped]
    omega
  have hhigh : (Rect.double r).y + (Rect.double r).height = 2 * (r.y + r.height) := by
    simp only [Rect.double, spanning, clamped]
    omega
  have hx : (Rect.double r).x = 2 * r.x - 1 := rfl
  have hy : (Rect.double r).y = 2 * r.y - 1 := rfl
  refine ⟨?_, Int.le_max_right .., ?_, ?_, Int.le_max_right .., ?_⟩
  · rw [hx]
    linarith
  · rw [hwide]
    linarith
  · rw [hy]
    linarith
  · rw [hhigh]
    linarith

theorem bounded_double (h : r.Doublable k) : (Rect.double^[k] r).Bounded fullReach := by
  induction k generalizing r with
  | zero => exact h.bounded
  | succ k ih => exact ih h.double

theorem answers_raised (h : r.Doublable k) :
    Ends E (· = Rect.double^[k] r) (Footprint.raised r k) := by
  induction k generalizing r with
  | zero => exact rfl
  | succ k ih =>
    refine (h.bounded.answers_expanded h.double.bounded).bind_eq ?_
    exact ih h.double

end Doublable

/-- What the corners of level `k` are worth at the finest level. -/
structure Shrunk (r : Rect) (k : Nat) (a : Rect) : Prop where
  /-- Rounding down loses less than one unit of the level. -/
  left : a.x - (2 ^ k - 1) ≤ 2 ^ k * r.x
  /-- The columns are counted from the near one on. -/
  wide : 0 ≤ r.width
  /-- The far edge moves out by less than two units of the level. -/
  right : 2 ^ k * (r.x + r.width) ≤ a.x + a.width + 2 * (2 ^ k - 1)
  /-- Rounding down loses less than one unit of the level. -/
  top : a.y - (2 ^ k - 1) ≤ 2 ^ k * r.y
  /-- The rows are counted from the near one on. -/
  high : 0 ≤ r.height
  /-- The far edge moves out by less than two units of the level. -/
  bottom : 2 ^ k * (r.y + r.height) ≤ a.y + a.height + 2 * (2 ^ k - 1)

/-- One more halving: the near edge loses at most half a unit, the far edge gains at most one. -/
theorem scaled_half {t lo hi lo' hi' near far : Int} (ht : 1 ≤ t) (hlo : near - (t - 1) ≤ t * lo)
    (hhi : t * hi ≤ far + 2 * (t - 1)) (hlo' : lo ≤ 2 * lo' + 1) (hhi' : 2 * hi' ≤ hi + 2) :
    near - (t * 2 - 1) ≤ t * 2 * lo' ∧ t * 2 * hi' ≤ far + 2 * (t * 2 - 1) := by
  have hnear : t * lo ≤ t * (2 * lo' + 1) := Int.mul_le_mul_of_nonneg_left hlo' (by omega)
  have hfar : t * (2 * hi') ≤ t * (hi + 2) := Int.mul_le_mul_of_nonneg_left hhi' (by omega)
  constructor <;> linarith

namespace Shrunk

variable {k : Nat} {n : Int} {a r : Rect}

theorem refl (h : a.Bounded n) : a.Shrunk 0 a := by
  obtain ⟨_, hw, _, _, hh, _⟩ := h
  refine ⟨?_, hw, ?_, ?_, hh, ?_⟩ <;> simp only [Int.pow_zero] <;> omega

theorem half (h : r.Shrunk k a) : (Rect.half r).Shrunk (k + 1) a := by
  obtain ⟨hl, hw, hr, ht, hh, hb⟩ := h
  have hpow := one_le_scale k
  have hwide : 0 ≤ (Rect.half r).width ∧
      2 * ((Rect.half r).x + (Rect.half r).width) ≤ r.x + r.width + 2 := by
    by_cases he : r.IsEmpty
    · simp only [Rect.half, he, if_true, clamped]
      omega
    · rw [half_of_not_isEmpty he]
      simp only
      omega
  have hhigh : 0 ≤ (Rect.half r).height ∧
      2 * ((Rect.half r).y + (Rect.half r).height) ≤ r.y + r.height + 2 := by
    by_cases he : r.IsEmpty
    · simp only [Rect.half, he, if_true, clamped]
      omega
    · rw [half_of_not_isEmpty he]
      simp only
      omega
  have hx : r.x ≤ 2 * (Rect.half r).x + 1 := by
    by_cases he : r.IsEmpty <;> simp only [Rect.half, he, if_true, if_false, spanning, clamped] <;>
      omega
  have hy : r.y ≤ 2 * (Rect.half r).y + 1 := by
    by_cases he : r.IsEmpty <;> simp only [Rect.half, he, if_true, if_false, spanning, clamped] <;>
      omega
  obtain ⟨hleft, hright⟩ := scaled_half hpow hl hr hx hwide.2
  obtain ⟨htop, hbottom⟩ := scaled_half hpow ht hb hy hhigh.2
  rw [← Int.pow_succ] at hleft hright htop hbottom
  exact ⟨hleft, hwide.1, hright, htop, hhigh.1, hbottom⟩

theorem half_iterate (h : a.Bounded n) (k : Nat) : (Rect.half^[k] a).Shrunk k a := by
  induction k with
  | zero => exact refl h
  | succ k ih =>
    rw [Function.iterate_succ_apply']
    exact ih.half

end Shrunk

/-- Level `k` of a rectangle in range can be doubled back to the finest level. -/
theorem Bounded.doublable_half {a : Rect} (h : a.Bounded roomyReach) {k : Nat} (hk : k ≤ 27) :
    (Rect.half^[k] a).Doublable k := by
  obtain ⟨hl, hw, hr, ht, hh, hb⟩ := Shrunk.half_iterate h k
  obtain ⟨_, _, _, _, _, _⟩ := h
  have hpow : (2 : Int) ^ k ≤ 2 ^ 27 := pow_le_pow_right₀ (by decide) hk
  simp only [roomyReach] at *
  refine ⟨?_, hw, ?_, ?_, hh, ?_⟩ <;> simp only [fullReach] <;> omega

end Rect

namespace Footprint

open Rect

/-! ## The levels of a patch -/

variable {r : Rect}

/-- The two computations of a far edge stay in range and agree. -/
theorem answers_farEdge {start size : Int} (hstart : -fullReach ≤ start) (hsize : 0 < size)
    (hend : start + size ≤ fullReach) :
    Ends E (· = (start + size) / 2 + 1) (farEdge start size) := by
  simp only [fullReach] at hstart hend
  have hspare : 0 ≤ size + start % 2 := by omega
  have hhalf := Int.tdiv_eq_ediv_of_nonneg (b := 2) hspare
  refine (answers_checked ?_).bind_eq ?_
  · simp only [Fits, lowest, highest]
    omega
  refine (answers_checked ?_).bind_eq ?_
  · simp only [hhalf, Fits, lowest, highest]
    omega
  have hexact : (size + start % 2).tdiv 2 + start / 2 + 1 = (start + size) / 2 + 1 := by
    rw [hhalf]
    omega
  rw [hexact]
  apply answers_checked
  simp only [Fits, lowest, highest]
  omega

theorem answers_next (h : r.Bounded fullReach) : Ends E (· = half r) (next r) := by
  refine h.answers_reduced.bind_eq ?_
  by_cases he : r.IsEmpty
  · simp [he]
  have hcoarse := half_of_not_isEmpty he
  have hbounded : (half r).Bounded fullReach := h.half (by decide)
  obtain ⟨_, _, _, _, _, _⟩ := id h
  simp only [he, not_false_eq_true, if_true]
  simp only [Rect.IsEmpty, not_or, Int.not_le] at he
  refine hbounded.answers_maxX.bind_eq ?_
  refine (answers_farEdge (by omega) he.1 (by omega)).bind_eq ?_
  refine ((ends_require _ _).weaken fun _ hne => absurd ?_ hne.2).bind ?_
  · simp only [hcoarse]
    omega
  intro _ _
  refine hbounded.answers_maxY.bind_eq ?_
  refine (answers_farEdge (by omega) he.2 (by omega)).bind_eq ?_
  refine ((ends_require _ _).weaken fun _ hne => absurd ?_ hne.2).bind fun _ _ => rfl
  simp only [hcoarse]
  omega

theorem answers_chain (h : r.Bounded fullReach) (count : Nat) :
    Ends E (· = halves r count) (chain r count) := by
  induction count generalizing r with
  | zero => exact rfl
  | succ count ih =>
    refine (answers_next h).bind_eq ?_
    by_cases hfixed : half r = r
    · simp [hfixed, halves_of_fixed hfixed]
    simp only [hfixed, if_false]
    refine (ih (h.half (by decide))).bind_eq ?_
    simp [halves_succ]

/-- The rectangles of a patch exist at any number of levels that memory can list. -/
theorem levels_answers (h : r.Bounded fullReach) {count : Nat} (hroom : LevelRoom count) :
    Ends E (· = halves r count) (levels r count) := by
  apply ((ends_require (16 * count ≤ blockMax) _).weaken fun _ hne => absurd hroom hne.2).bind
  intro _ _
  exact answers_chain h count

/-- A union that is kept in range while the levels from `level` on are joined to it. -/
theorem reach_answers {union : Rect} {level : Nat} {rects : List Rect}
    (hunion : union.Bounded fullReach)
    (hrects : ∀ (k : Nat) (r : Rect), rects[k]? = some r → r.Doublable (level + k)) :
    Ends E (fun padded => padded = around union level rects ∧ padded.Bounded fullReach)
      (reach union level rects) := by
  induction rects generalizing union level with
  | nil => exact ⟨rfl, hunion⟩
  | cons r coarser ih =>
    have hr : r.Doublable level := hrects 0 r rfl
    refine hr.answers_raised.bind_eq ?_
    refine (hunion.answers_grow hr.bounded_double).bind_eq ?_
    refine ih (hunion.join hr.bounded_double) ?_
    intro k s hk
    have := hrects (k + 1) s hk
    rwa [← Nat.add_assoc, Nat.add_right_comm] at this

/-- The rectangle that the sources of a patch are selected against exists, and lies within the full
reach. -/
theorem padded_answers (h : r.Bounded roomyReach) {count : Nat} (hcount : count ≤ 28) :
    Ends E (fun padded => padded = catchment r count ∧ padded.Bounded fullReach)
      (padded (halves r count)) := by
  apply reach_answers (Bounded.none (by decide))
  intro k s hk
  have hlt : k < count := by
    have := (List.getElem?_eq_some_iff.mp hk).1
    rwa [length_halves] at this
  rw [getElem?_halves hlt, Option.some.injEq] at hk
  subst hk
  rw [Nat.zero_add]
  exact h.doublable_half (by omega)

end Footprint

end Patchwork
