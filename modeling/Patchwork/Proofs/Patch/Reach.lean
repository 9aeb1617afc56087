import Patchwork.Proofs.Patch.Alone

/-!
# How far a pixel reaches

Halving spreads a pixel over the coarse points that a blur of it touches, and doubling collects a
pixel from the coarse points that have a share in it.  Both are the same relation, `Point.Spreads`,
so the coarse points that a pixel reads on the way up and those that another pixel writes to on the
way down can be compared: they have one in common exactly when the second pixel lies in the
catchment of the first.

In exact arithmetic nothing is lost on either way.  A blur of values that are not negative is
positive exactly where some share is, and so is a doubling.

## Main statements

* `Footprint.mem_catchment_dot` — the catchment of one pixel.
* `Pyramid.weightAt_pos_iff`, `stretchAt_pos_iff` — where a mask and a doubled plane are positive.
-/

namespace Patchwork

open Channel
open Rect (half double)
open Patch (dot mem_dot)

/-! ## One pixel -/

namespace Rect

theorem not_isEmpty_double_iterate {r : Rect} (h : ¬ r.IsEmpty) (k : Nat) :
    ¬ (double^[k] r).IsEmpty := by
  induction k generalizing r with
  | zero => exact h
  | succ k ih => exact ih (not_isEmpty_double h)

theorem not_isEmpty_dot (p : Point) : ¬ (dot p).IsEmpty := not_isEmpty_of_mem (mem_dot p)

@[simp] theorem mem_dot_iff {p q : Point} : q ∈ dot p ↔ q = p := by
  constructor
  · intro hq
    obtain ⟨x, y⟩ := q
    obtain ⟨px, py⟩ := p
    rw [mem_iff] at hq
    simp only [dot] at hq
    simp only [Point.mk.injEq]
    omega
  · rintro rfl
    exact mem_dot q

/-! ## Several resolutions at once -/

@[simp] theorem mem_half_dot {p q : Point} : q ∈ half (dot p) ↔ q.Spreads p := by
  simp [mem_half_iff (not_isEmpty_dot p)]

/-- The last step down. -/
theorem mem_half_iterate_succ {r : Rect} (hr : ¬ r.IsEmpty) {k : Nat} {q : Point} :
    q ∈ half^[k + 1] r ↔ ∃ s, s ∈ half^[k] r ∧ q.Spreads s := by
  rw [Function.iterate_succ_apply', mem_half_iff (not_isEmpty_half_iterate hr k)]

/-- The first step down. -/
theorem mem_half_iterate_succ_dot {k : Nat} {p q : Point} :
    q ∈ half^[k + 1] (dot p) ↔ ∃ s, s.Spreads p ∧ q ∈ half^[k] (dot s) := by
  induction k generalizing q with
  | zero => simp
  | succ k ih =>
    have hdot := fun s => @mem_half_iterate_succ (dot s) (not_isEmpty_dot s) k q
    simp only [mem_half_iterate_succ (not_isEmpty_dot p) (k := k + 1), ih, hdot]
    constructor
    · rintro ⟨r, ⟨s, hs, hr⟩, hq⟩
      exact ⟨s, hs, r, hr, hq⟩
    · rintro ⟨s, hs, r, hr, hq⟩
      exact ⟨r, ⟨s, hs, hr⟩, hq⟩

/-- Halving one rectangle and doubling the other are the same for meeting. -/
theorem meets_half_iff {a b : Rect} (ha : ¬ a.IsEmpty) (hb : ¬ b.IsEmpty) :
    Meets (half a) b ↔ Meets a (double b) := by
  simp only [Meets, mem_half_iff ha, mem_double_iff hb]
  constructor
  · rintro ⟨q, ⟨p, hp, hspreads⟩, hq⟩
    exact ⟨p, hp, q, hq, hspreads⟩
  · rintro ⟨p, hp, q, hq, hspreads⟩
    exact ⟨q, ⟨p, hp, hspreads⟩, hq⟩

theorem meets_half_iterate_iff {a b : Rect} (ha : ¬ a.IsEmpty) (hb : ¬ b.IsEmpty) (k : Nat) :
    Meets (half^[k] a) b ↔ Meets a (double^[k] b) := by
  induction k generalizing a with
  | zero => exact Iff.rfl
  | succ k ih =>
    rw [Function.iterate_succ_apply, ih (not_isEmpty_half ha), Function.iterate_succ_apply',
      meets_half_iff ha (not_isEmpty_double_iterate hb k)]

/-- Going down and up again loses no pixel. -/
theorem subset_double_half {r : Rect} (hr : ¬ r.IsEmpty) : r ⊆ double (half r) := by
  intro p hp
  have hspreads : Point.Spreads ⟨p.x / 2, p.y / 2⟩ p := by
    simp only [Point.Spreads]
    omega
  rw [mem_double_iff (not_isEmpty_half hr)]
  exact ⟨_, mem_half_of_spreads hp hspreads, hspreads⟩

end Rect

namespace Footprint

open Rect

/-- The deeper the level, the wider its reach. -/
theorem double_half_mono {r : Rect} (hr : ¬ r.IsEmpty) {j k : Nat} (hjk : j ≤ k) :
    double^[j] (half^[j] r) ⊆ double^[k] (half^[k] r) := by
  induction k, hjk using Nat.le_induction with
  | base => exact fun _ h => h
  | succ k _ ih =>
    have hne := not_isEmpty_half_iterate hr k
    intro p hp
    rw [Function.iterate_succ_apply double, Function.iterate_succ_apply' half]
    exact double_iterate_subset hne (subset_double_half hne) k p (ih p hp)

/-- The catchment of a patch is the reach of its coarsest level. -/
theorem mem_catchment_iff {r : Rect} (hr : ¬ r.IsEmpty) {k : Nat} {p : Point} :
    p ∈ catchment r (k + 1) ↔ p ∈ double^[k] (half^[k] r) := by
  refine ⟨fun hp => ?_, double_half_subset_catchment r (Nat.lt_succ_self k) p⟩
  refine around_subset (c := double^[k] (half^[k] r)) ?_ ?_ p hp
  · exact fun q hq => absurd hq (not_mem_of_isEmpty (.inl (Int.le_refl 0)) q)
  · intro j level hj
    have hlt : j < k + 1 := by
      have := (List.getElem?_eq_some_iff.mp hj).1
      rwa [length_halves] at this
    rw [getElem?_halves hlt, Option.some.injEq] at hj
    subst hj
    rw [Nat.zero_add]
    exact double_half_mono hr (Nat.le_of_lt_succ hlt)

/-- A pixel lies in the catchment of another when they share a point of the coarsest level. -/
theorem mem_catchment_dot {k : Nat} {p q : Point} :
    q ∈ catchment (dot p) (k + 1) ↔ ∃ r, r ∈ half^[k] (dot q) ∧ r ∈ half^[k] (dot p) := by
  have hp := not_isEmpty_half_iterate (not_isEmpty_dot p) k
  have hmeets := meets_half_iterate_iff (not_isEmpty_dot q) hp k
  rw [mem_catchment_iff (not_isEmpty_dot p)]
  refine Iff.trans ?_ hmeets.symm
  simp [Meets]

end Footprint

/-! ## Where blurred and doubled planes are positive -/

theorem blurred_pos_iff {f : Int → ℚ} (h : ∀ i, 0 ≤ f i) {c : Int} :
    0 < Raster.blurred f c ↔ ∃ i, c - 1 ≤ i ∧ i ≤ c + 1 ∧ 0 < f i := by
  constructor
  · intro hpos
    by_contra hnone
    have hzero : ∀ i, c - 1 ≤ i → i ≤ c + 1 → f i = 0 := fun i hlow hhigh =>
      le_antisymm (not_lt.mp fun hi => hnone ⟨i, hlow, hhigh, hi⟩) (h i)
    rw [blurred_eq, hzero (c - 1) (by omega) (by omega), hzero c (by omega) (by omega),
      hzero (c + 1) (by omega) (by omega)] at hpos
    norm_num at hpos
  · rintro ⟨i, hlow, hhigh, hi⟩
    exact blurred_pos h hi hlow hhigh

/-- A blur is positive where some fine point with a share in it is. -/
theorem shrinkAt_pos_iff {f : Point → ℚ} (h : ∀ q, 0 ≤ f q) {r : Point} :
    0 < shrinkAt f r ↔ ∃ q, r.Spreads q ∧ 0 < f q := by
  constructor
  · intro hpos
    rw [shrinkAt, blurred_pos_iff fun y => blurred_nonneg (fun x => h ⟨x, y⟩) _] at hpos
    obtain ⟨y, hylow, hyhigh, hrow⟩ := hpos
    rw [blurred_pos_iff fun x => h ⟨x, y⟩] at hrow
    obtain ⟨x, hxlow, hxhigh, hpos⟩ := hrow
    exact ⟨⟨x, y⟩, ⟨hxlow, hxhigh, hylow, hyhigh⟩, hpos⟩
  · rintro ⟨q, hspreads, hpos⟩
    exact shrinkAt_pos h hpos hspreads

theorem between_eq (f : Int → ℚ) (c : Int) :
    Raster.between f c = if c % 2 = 0 then f (c / 2) else (f (c / 2) + f (c / 2 + 1)) / 2 := by
  have hvalue : Raster.between f c =
      if c % 2 = 0 then f (c / 2) else (f (c / 2) + f (c / 2 + 1)) * (0.5 : ℚ) := rfl
  rw [hvalue]
  congr 1
  norm_num
  ring

theorem between_nonneg {f : Int → ℚ} (h : ∀ i, 0 ≤ f i) (c : Int) : 0 ≤ Raster.between f c := by
  rw [between_eq]
  have := h (c / 2)
  have := h (c / 2 + 1)
  split <;> linarith

theorem between_pos_iff {f : Int → ℚ} (h : ∀ i, 0 ≤ f i) {c : Int} :
    0 < Raster.between f c ↔ ∃ i, 2 * i - 1 ≤ c ∧ c ≤ 2 * i + 1 ∧ 0 < f i := by
  have hhere := h (c / 2)
  have hnext := h (c / 2 + 1)
  rw [between_eq]
  constructor
  · intro hpos
    split at hpos
    · exact ⟨c / 2, by omega, by omega, hpos⟩
    · by_cases hfirst : 0 < f (c / 2)
      · exact ⟨c / 2, by omega, by omega, hfirst⟩
      · exact ⟨c / 2 + 1, by omega, by omega, by linarith⟩
  · rintro ⟨i, hlow, hhigh, hi⟩
    split
    · obtain rfl : i = c / 2 := by omega
      exact hi
    · obtain rfl | rfl : i = c / 2 ∨ i = c / 2 + 1 := by omega
      · linarith
      · linarith

theorem stretchAt_nonneg {f : Point → ℚ} (h : ∀ q, 0 ≤ f q) (p : Point) :
    0 ≤ Raster.stretchAt f p :=
  between_nonneg (fun _ => between_nonneg (fun _ => h _) _) _

/-- A doubled plane is positive where some coarse point with a share is. -/
theorem stretchAt_pos_iff {f : Point → ℚ} (h : ∀ q, 0 ≤ f q) {p : Point} :
    0 < Raster.stretchAt f p ↔ ∃ q : Point, q.Spreads p ∧ 0 < f q := by
  rw [Raster.stretchAt, between_pos_iff fun y => between_nonneg (fun x => h ⟨x, y⟩) _]
  constructor
  · rintro ⟨y, hylow, hyhigh, hrow⟩
    rw [between_pos_iff fun x => h ⟨x, y⟩] at hrow
    obtain ⟨x, hxlow, hxhigh, hpos⟩ := hrow
    exact ⟨⟨x, y⟩, ⟨hxlow, hxhigh, hylow, hyhigh⟩, hpos⟩
  · rintro ⟨⟨x, y⟩, ⟨hxlow, hxhigh, hylow, hyhigh⟩, hpos⟩
    refine ⟨y, hylow, hyhigh, ?_⟩
    rw [between_pos_iff fun x => h ⟨x, y⟩]
    exact ⟨x, hxlow, hxhigh, hpos⟩

theorem stretchAt_iterate_nonneg {f : Point → ℚ} (h : ∀ q, 0 ≤ f q) (k : Nat) (p : Point) :
    0 ≤ Raster.stretchAt^[k] f p := by
  induction k generalizing p with
  | zero => exact h p
  | succ k ih =>
    rw [Function.iterate_succ_apply']
    exact stretchAt_nonneg ih p

/-- Several resolutions up, a point reads what it spreads to several resolutions down. -/
theorem stretchAt_iterate_pos_iff {f : Point → ℚ} (h : ∀ q, 0 ≤ f q) {k : Nat} {p : Point} :
    0 < Raster.stretchAt^[k] f p ↔ ∃ r, r ∈ half^[k] (dot p) ∧ 0 < f r := by
  induction k generalizing p with
  | zero => simp
  | succ k ih =>
    rw [Function.iterate_succ_apply', stretchAt_pos_iff (stretchAt_iterate_nonneg h k)]
    simp only [ih, Rect.mem_half_iterate_succ_dot]
    constructor
    · rintro ⟨q, hq, r, hr, hpos⟩
      exact ⟨r, ⟨q, hq, hr⟩, hpos⟩
    · rintro ⟨r, ⟨q, hq, hr⟩, hpos⟩
      exact ⟨q, hq, r, hr, hpos⟩

/-- Doubling weighs its shares with a total of one. -/
theorem stretchAt_of_const {f : Point → ℚ} {c : ℚ} {p : Point}
    (h : ∀ q : Point, q.Spreads p → f q = c) : Raster.stretchAt f p = c := by
  have hconst : ∀ i, Raster.between (fun _ => c) i = c := fun i => by
    rw [between_eq]
    split
    · rfl
    · exact add_self_div_two c
  rw [Raster.stretchAt_congr (g := fun _ => c) h, Raster.stretchAt]
  simp only [hconst]

namespace Pyramid

/-- A mask is positive at the coarse points that a positive pixel spreads to, and at no others. -/
theorem weightAt_pos_iff {weight : Placed ℚ} (h : ∀ q, 0 ≤ weight.sample q) {k : Nat} {r : Point} :
    0 < weightAt weight k r ↔ ∃ p, 0 < weight.sample p ∧ r ∈ half^[k] (dot p) := by
  induction k generalizing r with
  | zero => simp [weightAt]
  | succ k ih =>
    simp only [Rect.mem_half_iterate_succ (Rect.not_isEmpty_dot _)]
    constructor
    · intro hpos
      have hmem := mem_of_weightAt_pos hpos
      rw [weightAt, Function.iterate_succ_apply', Placed.sample_halved] at hpos
      · obtain ⟨s, hs, hpos⟩ := (shrinkAt_pos_iff (weightAt_nonneg h k)).mp hpos
        obtain ⟨p, hp, hsp⟩ := ih.mp hpos
        exact ⟨p, hp, s, hsp, hs⟩
      · rwa [Placed.frame_halved_iterate, ← Function.iterate_succ_apply' half]
    · rintro ⟨p, hp, s, hsp, hs⟩
      exact weightAt_pos h (ih.mpr ⟨p, hp, hsp⟩) hs

end Pyramid

end Patchwork
