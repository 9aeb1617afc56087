import Mathlib.Logic.Function.Iterate
import Patchwork.Proofs.Outcome
import Patchwork.Rect.Algebra

/-!
# The exact rectangles behind the checked operations

Every operation on rectangles computes one exact rectangle and checks each coordinate on the way.
Here the exact rectangles are functions of their own, described by the points they hold, and the
coordinates on the way are a list for each operation.  The operation gives its exact rectangle when
all of them are in range, and overflows when one of them is not.

`Rect.half` and `Rect.double` are adjoint in the sense that matters for blending: where the halved
rectangle meets another one, the rectangle itself meets the doubled one (`meets_double_of_half`).
Both follow one relation between coarse and fine points, `Point.Spreads`.

## Main definitions

* `Rect.spanning`, `Rect.meet`, `Rect.join`, `Rect.moved`, `Rect.seenFrom`, `Rect.half`,
  `Rect.double` — exact rectangles.
* `Rect.intersectSteps`, `Rect.growSteps`, `Rect.reducedSteps`, `Rect.expandedSteps` — what each
  operation computes.
* `Rect.Meets` — two rectangles have a point in common.
* `Rect.Within` — inclusion, by corners.
* `Point.Spreads` — a coarse point has a share in a fine one.

## Main statements

* `Rect.intersect_eq`, `Rect.grow_eq`, `Rect.reduced_eq`, `Rect.expanded_eq` — when the operations
  answer, and what.
* `Rect.mem_half_iff`, `Rect.mem_double_iff` — halves and doubles by their shares.
-/

namespace Patchwork.Rect

open Outcome Coordinate

/-- Every point of `a` is a point of `b`. -/
instance : HasSubset Rect := ⟨fun a b => ∀ p, p ∈ a → p ∈ b⟩

/-- The rectangles have a point in common. -/
def Meets (a b : Rect) : Prop := ∃ p, p ∈ a ∧ p ∈ b

/-- The rectangle from one corner up to another. -/
def spanning (minX minY maxX maxY : Int) : Rect := clamped minX minY (maxX - minX) (maxY - minY)

/-- The common part. -/
def meet (a b : Rect) : Rect :=
  spanning (max a.x b.x) (max a.y b.y)
    (min (a.x + a.width) (b.x + b.width)) (min (a.y + a.height) (b.y + b.height))

/-- The smallest rectangle around both. -/
def join (a b : Rect) : Rect :=
  if b.IsEmpty then a
  else if a.IsEmpty then b
  else spanning (min a.x b.x) (min a.y b.y)
    (max (a.x + a.width) (b.x + b.width)) (max (a.y + a.height) (b.y + b.height))

/-- The rectangle moved. -/
def moved (dx dy : Int) (r : Rect) : Rect := ⟨r.x + dx, r.y + dy, r.width, r.height⟩

/-- The rectangle relative to the corner of another. -/
def seenFrom (tile whole : Rect) : Rect :=
  ⟨tile.x - whole.x, tile.y - whole.y, tile.width, tile.height⟩

/-- One resolution down. -/
def half (r : Rect) : Rect :=
  if r.IsEmpty then clamped (r.x / 2) (r.y / 2) 0 0
  else spanning (r.x / 2) (r.y / 2) ((r.x + r.width) / 2 + 1) ((r.y + r.height) / 2 + 1)

/-- One resolution up, with a margin. -/
def double (r : Rect) : Rect :=
  spanning (2 * r.x - 1) (2 * r.y - 1) (2 * (r.x + r.width)) (2 * (r.y + r.height))

/-! ## Points -/

theorem mem_spanning {minX minY maxX maxY : Int} {p : Point} :
    p ∈ spanning minX minY maxX maxY ↔
      minX ≤ p.x ∧ p.x < maxX ∧ minY ≤ p.y ∧ p.y < maxY := by
  simp only [mem_iff, spanning, clamped]
  omega

@[simp] theorem mem_meet {a b : Rect} {p : Point} : p ∈ meet a b ↔ p ∈ a ∧ p ∈ b := by
  rw [meet, mem_spanning, mem_iff, mem_iff]
  omega

@[simp] theorem isEmpty_moved {r : Rect} {dx dy : Int} :
    (r.moved dx dy).IsEmpty ↔ r.IsEmpty := Iff.rfl

theorem mem_moved {r : Rect} {dx dy : Int} {p : Point} :
    (⟨p.x + dx, p.y + dy⟩ : Point) ∈ r.moved dx dy ↔ p ∈ r := by
  simp only [mem_iff, moved]
  omega

theorem moved_subset_moved {a b : Rect} {dx dy : Int} (h : a ⊆ b) :
    a.moved dx dy ⊆ b.moved dx dy := by
  intro p hp
  have hback : (⟨p.x - dx, p.y - dy⟩ : Point) ∈ b := by
    refine h _ ?_
    simp only [mem_iff, moved] at hp ⊢
    omega
  simp only [mem_iff, moved] at hback ⊢
  omega

theorem isEmpty_iff {r : Rect} : r.IsEmpty ↔ ∀ p, p ∉ r := by
  constructor
  · exact fun h p => not_mem_of_isEmpty h p
  · intro h
    have hcorner := h ⟨r.x, r.y⟩
    simp only [mem_iff] at hcorner
    simp only [IsEmpty]
    omega

theorem meets_iff {a b : Rect} : Meets a b ↔ ¬ (meet a b).IsEmpty := by
  simp [Meets, isEmpty_iff]

instance (a b : Rect) : Decidable (Meets a b) := decidable_of_iff _ meets_iff.symm

theorem not_isEmpty_of_mem {r : Rect} {p : Point} (h : p ∈ r) : ¬ r.IsEmpty :=
  fun he => not_mem_of_isEmpty he p h

theorem subset_join_left (a b : Rect) : a ⊆ join a b := by
  intro p hp
  by_cases hb : b.IsEmpty
  · simpa [join, hb] using hp
  · simp only [join, hb, not_isEmpty_of_mem hp, if_false, mem_spanning]
    rw [mem_iff] at hp
    omega

theorem subset_join_right (a b : Rect) : b ⊆ join a b := by
  intro p hp
  by_cases ha : a.IsEmpty
  · simpa [join, ha, not_isEmpty_of_mem hp] using hp
  · simp only [join, ha, not_isEmpty_of_mem hp, if_false, mem_spanning]
    rw [mem_iff] at hp
    omega

/-! ## Inclusion by corners -/

/-- The corners of `a` lie between those of `b`. -/
structure Within (a b : Rect) : Prop where
  /-- Left. -/
  left : b.x ≤ a.x
  /-- Right. -/
  right : a.x + a.width ≤ b.x + b.width
  /-- Top. -/
  top : b.y ≤ a.y
  /-- Bottom. -/
  bottom : a.y + a.height ≤ b.y + b.height

/-- A rectangle with pixels lies inside another when its first and last pixels do. -/
theorem within_of_subset {a b : Rect} (ha : ¬ a.IsEmpty) (h : a ⊆ b) : Within a b := by
  simp only [IsEmpty, not_or, Int.not_le] at ha
  have hfirst := h ⟨a.x, a.y⟩ (by simp only [mem_iff]; omega)
  have hlast := h ⟨a.x + a.width - 1, a.y + a.height - 1⟩ (by simp only [mem_iff]; omega)
  simp only [mem_iff] at hfirst hlast
  constructor <;> omega

theorem columns_le_of_subset {a b : Rect} (ha : ¬ a.IsEmpty) (h : a ⊆ b) :
    a.columns ≤ b.columns := by
  obtain ⟨_, _, _, _⟩ := within_of_subset ha h
  simp only [columns]
  omega

theorem rows_le_of_subset {a b : Rect} (ha : ¬ a.IsEmpty) (h : a ⊆ b) : a.rows ≤ b.rows := by
  obtain ⟨_, _, _, _⟩ := within_of_subset ha h
  simp only [rows]
  omega

/-- The union of two rectangles lies inside every rectangle that holds both. -/
theorem join_subset {a b c : Rect} (ha : a ⊆ c) (hb : b ⊆ c) : join a b ⊆ c := by
  by_cases hbe : b.IsEmpty
  · simpa [join, hbe] using ha
  by_cases hae : a.IsEmpty
  · simpa [join, hbe, hae] using hb
  obtain ⟨_, _, _, _⟩ := within_of_subset hae ha
  obtain ⟨_, _, _, _⟩ := within_of_subset hbe hb
  intro p hp
  simp only [join, hbe, hae, if_false, mem_spanning] at hp
  rw [mem_iff]
  omega

/-! ## Halving and doubling -/

theorem half_of_isEmpty {r : Rect} (h : r.IsEmpty) : (half r).IsEmpty := by
  simp only [half, h, if_true]
  simp [IsEmpty, clamped]

theorem half_of_not_isEmpty {r : Rect} (h : ¬ r.IsEmpty) :
    half r = ⟨r.x / 2, r.y / 2, (r.x + r.width) / 2 + 1 - r.x / 2,
      (r.y + r.height) / 2 + 1 - r.y / 2⟩ := by
  have hw : max ((r.x + r.width) / 2 + 1 - r.x / 2) 0 = (r.x + r.width) / 2 + 1 - r.x / 2 := by
    simp only [IsEmpty] at h
    omega
  have hh : max ((r.y + r.height) / 2 + 1 - r.y / 2) 0 = (r.y + r.height) / 2 + 1 - r.y / 2 := by
    simp only [IsEmpty] at h
    omega
  simp only [half, h, if_false, spanning, clamped, hw, hh]

theorem not_isEmpty_half {r : Rect} (h : ¬ r.IsEmpty) : ¬ (half r).IsEmpty := by
  rw [half_of_not_isEmpty h]
  simp only [IsEmpty] at h ⊢
  omega

theorem mem_half {r : Rect} (h : ¬ r.IsEmpty) {p : Point} :
    p ∈ half r ↔ r.x / 2 ≤ p.x ∧ p.x < (r.x + r.width) / 2 + 1 ∧
      r.y / 2 ≤ p.y ∧ p.y < (r.y + r.height) / 2 + 1 := by
  simp only [half, h, if_false, mem_spanning]

theorem mem_double {r : Rect} {p : Point} :
    p ∈ double r ↔ 2 * r.x - 1 ≤ p.x ∧ p.x < 2 * (r.x + r.width) ∧
      2 * r.y - 1 ≤ p.y ∧ p.y < 2 * (r.y + r.height) := by
  simp only [double, mem_spanning]

theorem half_subset_half {a b : Rect} (ha : ¬ a.IsEmpty) (h : a ⊆ b) : half a ⊆ half b := by
  obtain ⟨_, _, _, _⟩ := within_of_subset ha h
  have hb : ¬ b.IsEmpty := by
    simp only [IsEmpty] at ha ⊢
    omega
  intro p hp
  rw [mem_half ha] at hp
  rw [mem_half hb]
  omega

theorem double_subset_double {a b : Rect} (ha : ¬ a.IsEmpty) (h : a ⊆ b) :
    double a ⊆ double b := by
  obtain ⟨_, _, _, _⟩ := within_of_subset ha h
  intro p hp
  rw [mem_double] at hp ⊢
  omega

theorem not_isEmpty_double {r : Rect} (h : ¬ r.IsEmpty) : ¬ (double r).IsEmpty := by
  simp only [IsEmpty] at h
  refine not_isEmpty_of_mem (p := ⟨2 * r.x, 2 * r.y⟩) ?_
  rw [mem_double]
  simp only
  omega

/-- Where a halved rectangle meets another, the rectangle meets the other one doubled. -/
theorem meets_double_of_half {a b : Rect} (h : Meets (half a) b) : Meets a (double b) := by
  obtain ⟨p, hpa, hpb⟩ := h
  by_cases ha : a.IsEmpty
  · exact absurd hpa (not_mem_of_isEmpty (half_of_isEmpty ha) p)
  -- the pixel of `a` nearest to the one under `p`
  refine ⟨⟨max a.x (min (2 * p.x) (a.x + a.width - 1)),
    max a.y (min (2 * p.y) (a.y + a.height - 1))⟩, ?_, ?_⟩
  · simp only [IsEmpty] at ha
    rw [mem_iff]
    simp only
    omega
  · rw [mem_half ha] at hpa
    simp only [IsEmpty] at ha
    rw [mem_iff] at hpb
    rw [mem_double]
    simp only
    omega

/-- `meets_double_of_half`, several resolutions at once. -/
theorem meets_double_iterate {a b : Rect} {k : Nat} (h : Meets (half^[k] a) b) :
    Meets a (double^[k] b) := by
  induction k generalizing a with
  | zero => exact h
  | succ k ih =>
    rw [Function.iterate_succ_apply']
    exact meets_double_of_half (ih h)

theorem not_isEmpty_half_iterate {r : Rect} (h : ¬ r.IsEmpty) (k : Nat) :
    ¬ (half^[k] r).IsEmpty := by
  induction k generalizing r with
  | zero => exact h
  | succ k ih => exact ih (not_isEmpty_half h)

theorem half_iterate_subset {a b : Rect} (ha : ¬ a.IsEmpty) (h : a ⊆ b) (k : Nat) :
    half^[k] a ⊆ half^[k] b := by
  induction k generalizing a b with
  | zero => exact h
  | succ k ih => exact ih (not_isEmpty_half ha) (half_subset_half ha h)

theorem double_iterate_subset {a b : Rect} (ha : ¬ a.IsEmpty) (h : a ⊆ b) (k : Nat) :
    double^[k] a ⊆ double^[k] b := by
  induction k generalizing a b with
  | zero => exact h
  | succ k ih => exact ih (not_isEmpty_double ha) (double_subset_double ha h)

/-! ## The checked operations -/

theorem ends_maxX (r : Rect) : Ends IsOverflow (· = r.x + r.width) r.maxX :=
  ends_checked_eq _

theorem ends_maxY (r : Rect) : Ends IsOverflow (· = r.y + r.height) r.maxY :=
  ends_checked_eq _

theorem ends_translate (r : Rect) (dx dy : Int) :
    Ends IsOverflow (· = ⟨r.x + dx, r.y + dy, r.width, r.height⟩) (r.translate dx dy) := by
  refine (ends_checked _).bind fun x hx => (ends_checked _).bind ?_
  intro y hy
  simp [hx.1, hy.1]

theorem ends_relativeTo (r frame : Rect) :
    Ends IsOverflow (· = r.seenFrom frame) (r.relativeTo frame.x frame.y) := by
  refine (ends_checked_eq _).bind_eq ?_
  refine (ends_checked_eq _).bind_eq ?_
  exact ends_translate _ _ _

/-! ### What the operations compute -/

/-- The far edges of two rectangles, and the size of what they have in common. -/
def intersectSteps (a b : Rect) : List Int :=
  [a.x + a.width, b.x + b.width, a.y + a.height, b.y + b.height,
    min (a.x + a.width) (b.x + b.width) - max a.x b.x,
    min (a.y + a.height) (b.y + b.height) - max a.y b.y]

/-- The far edges of two rectangles with pixels, and the size of the smallest one around them. -/
def growSteps (a b : Rect) : List Int :=
  if b.IsEmpty ∨ a.IsEmpty then []
  else [a.x + a.width, b.x + b.width, a.y + a.height, b.y + b.height,
    max (a.x + a.width) (b.x + b.width) - min a.x b.x,
    max (a.y + a.height) (b.y + b.height) - min a.y b.y]

/-- The far edges of a rectangle with pixels, their counterparts one resolution down, and the size
there. -/
def reducedSteps (r : Rect) : List Int :=
  if r.IsEmpty then []
  else [r.x + r.width, (r.x + r.width) / 2 + 1, r.y + r.height, (r.y + r.height) / 2 + 1,
    (r.x + r.width) / 2 + 1 - r.x / 2, (r.y + r.height) / 2 + 1 - r.y / 2]

/-- The near edges one resolution up with their margin, the far edges, and the size. -/
def expandedSteps (r : Rect) : List Int :=
  [2 * r.x, 2 * r.x - 1, 2 * r.y, 2 * r.y - 1, r.x + r.width, 2 * (r.x + r.width),
    r.y + r.height, 2 * (r.y + r.height), 2 * (r.x + r.width) - (2 * r.x - 1),
    2 * (r.y + r.height) - (2 * r.y - 1)]

/-! ### When they answer, and what -/

theorem ofCorners_eq (minX minY maxX maxY : Int) :
    ofCorners minX minY maxX maxY =
      stepwise [maxX - minX, maxY - minY] (spanning minX minY maxX maxY) :=
  checked_bind (checked_bind (pure_eq_stepwise _))

theorem intersect_eq (a b : Rect) : a.intersect b = stepwise (intersectSteps a b) (meet a b) :=
  checked_bind (checked_bind (checked_bind (checked_bind (ofCorners_eq ..))))

theorem intersects_eq (a b : Rect) :
    a.intersects b = stepwise (intersectSteps a b) (decide (Meets a b)) := by
  rw [intersects, intersect_eq]
  refine stepwise_bind ?_
  simp [meets_iff]

theorem grow_eq (a b : Rect) : a.grow b = stepwise (growSteps a b) (join a b) := by
  by_cases hb : b.IsEmpty
  · simpa [grow, growSteps, join, hb] using pure_eq_stepwise a
  by_cases ha : a.IsEmpty
  · simpa [grow, growSteps, join, ha, hb] using pure_eq_stepwise b
  simp only [grow, growSteps, join, ha, hb, if_false, or_self]
  exact checked_bind (checked_bind (checked_bind (checked_bind (ofCorners_eq ..))))

/-- The first rectangle with pixels is taken as it is. -/
theorem none_grow {r : Rect} (h : ¬ r.IsEmpty) : Rect.none.grow r = .ok r := by
  rw [grow, if_neg h, if_pos (.inl (Int.le_refl 0))]
  rfl

theorem reduced_eq (r : Rect) : r.reduced = stepwise (reducedSteps r) (half r) := by
  by_cases h : r.IsEmpty
  · simpa [reduced, reducedSteps, half, h] using pure_eq_stepwise (clamped (r.x / 2) (r.y / 2) 0 0)
  simp only [reduced, reducedSteps, half, h, if_false]
  exact checked_bind (checked_bind (checked_bind (checked_bind (ofCorners_eq ..))))

theorem expanded_eq (r : Rect) : r.expanded = stepwise (expandedSteps r) (double r) := by
  refine checked_bind (checked_bind (checked_bind (checked_bind ?_)))
  exact checked_bind (checked_bind (checked_bind (checked_bind (ofCorners_eq ..))))

theorem ends_ofCorners (minX minY maxX maxY : Int) :
    Ends IsOverflow (· = spanning minX minY maxX maxY) (ofCorners minX minY maxX maxY) := by
  rw [ofCorners_eq]
  exact ends_stepwise_of (.inl rfl)

theorem ends_intersect (a b : Rect) : Ends IsOverflow (· = meet a b) (a.intersect b) := by
  rw [intersect_eq]
  exact ends_stepwise_of (.inl rfl)

theorem ends_intersects (a b : Rect) :
    Ends IsOverflow (· = decide (Meets a b)) (a.intersects b) := by
  rw [intersects_eq]
  exact ends_stepwise_of (.inl rfl)

theorem ends_grow (a b : Rect) : Ends IsOverflow (· = join a b) (a.grow b) := by
  rw [grow_eq]
  exact ends_stepwise_of (.inl rfl)

theorem ends_reduced (r : Rect) : Ends IsOverflow (· = half r) r.reduced := by
  rw [reduced_eq]
  exact ends_stepwise_of (.inl rfl)

theorem ends_expanded (r : Rect) : Ends IsOverflow (· = double r) r.expanded := by
  rw [expanded_eq]
  exact ends_stepwise_of (.inl rfl)

/-- The counterpart of the rectangle `k` resolutions down, each step checked. -/
def reducedBy (r : Rect) : Nat → Outcome Rect
  | 0 => return r
  | k + 1 => do (← r.reducedBy k).reduced

theorem ends_reducedBy (r : Rect) (k : Nat) : Ends IsOverflow (· = half^[k] r) (r.reducedBy k) := by
  induction k with
  | zero => exact rfl
  | succ k ih =>
    refine ih.bind_eq ?_
    rw [Function.iterate_succ_apply']
    exact ends_reduced _

end Patchwork.Rect

/-! ## Shares -/

namespace Patchwork

/-- The coarse point `q` has a share in the fine point `p`. -/
def Point.Spreads (q p : Point) : Prop :=
  2 * q.x - 1 ≤ p.x ∧ p.x ≤ 2 * q.x + 1 ∧ 2 * q.y - 1 ≤ p.y ∧ p.y ≤ 2 * q.y + 1

namespace Rect

/-- What spreads to a point of a rectangle lies in the halved rectangle. -/
theorem mem_half_of_spreads {r : Rect} {p q : Point} (hp : p ∈ r) (hq : q.Spreads p) :
    q ∈ half r := by
  obtain ⟨_, _, _, _⟩ := hq
  have hr := not_isEmpty_of_mem hp
  rw [mem_iff] at hp
  rw [mem_half hr]
  omega

/-- A halved rectangle holds the coarse points that have a share in one of its points. -/
theorem mem_half_iff {r : Rect} (hr : ¬ r.IsEmpty) {q : Point} :
    q ∈ half r ↔ ∃ p, p ∈ r ∧ q.Spreads p := by
  constructor
  · intro hq
    -- the pixel of the rectangle nearest to the one under `q`
    refine ⟨⟨max r.x (min (2 * q.x) (r.x + r.width - 1)),
      max r.y (min (2 * q.y) (r.y + r.height - 1))⟩, ?_, ?_⟩
    · simp only [IsEmpty] at hr
      simp only [mem_iff]
      omega
    · rw [mem_half hr] at hq
      simp only [IsEmpty] at hr
      simp only [Point.Spreads]
      omega
  · rintro ⟨p, hp, hspreads⟩
    exact mem_half_of_spreads hp hspreads

/-- A doubled rectangle holds the points in which one of its points has a share. -/
theorem mem_double_iff {r : Rect} (hr : ¬ r.IsEmpty) {p : Point} :
    p ∈ double r ↔ ∃ q, q ∈ r ∧ q.Spreads p := by
  rw [mem_double]
  constructor
  · intro hp
    refine ⟨⟨max r.x (min ((p.x + 1) / 2) (r.x + r.width - 1)),
      max r.y (min ((p.y + 1) / 2) (r.y + r.height - 1))⟩, ?_, ?_⟩
    · simp only [IsEmpty] at hr
      simp only [mem_iff]
      omega
    · simp only [IsEmpty] at hr
      simp only [Point.Spreads]
      omega
  · rintro ⟨q, hq, hspreads⟩
    rw [mem_iff] at hq
    simp only [Point.Spreads] at hspreads
    omega

end Rect

end Patchwork
