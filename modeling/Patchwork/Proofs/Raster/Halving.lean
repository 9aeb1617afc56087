import Patchwork.Proofs.Raster.Plane
import Patchwork.Proofs.Rect.Bounded

/-!
# Halving in range

A blur reads one position past either end of a raster, counted from the raster's own corner.  When
these positions are coordinates and the raster fits memory, halving answers, and so does doubling
the halved raster back.  The halved raster is in the same situation, so one condition on the
finest raster covers all resolutions.

## Main definitions

* `Raster.Blurrable` — a raster over the rectangle can be blurred.

## Main statements

* `Raster.Blurrable.half_iterate` — halving keeps the condition.
* `Raster.Blurrable.answers_coarseFrame`, `Raster.Blurrable.answers_expand` — one resolution down,
  and up again.
* `Raster.ends_coarseFrame` — nothing else can be halved.
-/

namespace Patchwork

open Outcome Coordinate
open Rect (half)

variable {κ α : Type} {format : Format} {E : Failure → Prop} {r : Rect}

/-- What one cell takes, at most. -/
def Cell.Slim (α : Type) [Cell κ α] : Prop := Cell.bytes α ≤ 16

theorem Pixel.slim [Channel κ] : Cell.Slim (Pixel format κ) := by
  have hchannels : 4 * format.channels ≤ 16 := by cases format <;> decide
  exact hchannels

theorem Channel.slim [Channel κ] : Cell.Slim κ := by
  have hbytes : 4 ≤ 16 := by decide
  exact hbytes

/-- The sides of a rectangle that can be blurred, and of the halved one: halving makes a side longer
only when it is one. -/
theorem Rect.Clear.sides (h : r.Clear) (hne : ¬ r.IsEmpty) :
    (r.columns ≤ 2147483648 ∧ (Rect.half r).columns ≤ max r.columns 2) ∧
      r.rows ≤ 2147483648 ∧ (Rect.half r).rows ≤ max r.rows 2 := by
  obtain ⟨_, _, _, _, _, _⟩ := h
  rw [Rect.half_of_not_isEmpty hne]
  simp only [Rect.columns, Rect.rows, Rect.IsEmpty, lowest, highest] at *
  omega

/-- The coarse rows that a rectangle needs can be counted. -/
theorem Rect.Clear.coarseRows_le (h : r.Clear) : (Raster.coarseRows r : Int) ≤ highest := by
  obtain ⟨_, _, _, _, _, _⟩ := h
  by_cases hrows : r.rows = 0
  · simp [Raster.coarseRows, hrows, highest]
  · simp only [Raster.coarseRows, hrows, if_false, Raster.firstCoarseRow, lowest, highest] at *
    omega

namespace Raster

variable [Cell κ α]

/-- Rasters that are hardly larger than one that fits memory fit, too. -/
theorem Room.of_nearly (hslim : Cell.Slim α) {w h w' h' : Nat} (hroom : Room α w h)
    (hw : w' ≤ max w 2) (hh : h' ≤ max h 2) (hw' : w' ≤ 2147483648) (hh' : h' ≤ 2147483648) :
    Room α w' h' := by
  have hthin : w' * h' ≤ 2 * 2147483648 → Room α w' h' := fun harea =>
    (Nat.mul_le_mul hslim harea).trans (by decide)
  by_cases hfits : w' ≤ w ∧ h' ≤ h
  · exact hroom.mono hfits.1 hfits.2
  · rcases (by omega : w' ≤ 2 ∨ h' ≤ 2) with hside | hside
    · exact hthin (Nat.mul_le_mul hside hh')
    · exact hthin ((Nat.mul_le_mul hw' hside).trans (by decide))

theorem Room.allocates {w h : Nat} (hroom : Room α w h) :
    Ends E (fun _ => True) (allocate α w h) :=
  (ends_allocate w h).mono (fun _ hc => absurd hroom hc.2) fun _ _ => trivial

/-- A raster over the rectangle can be blurred. -/
structure Blurrable (α : Type) [Cell κ α] (r : Rect) : Prop where
  /-- Memory can hold it. -/
  room : Room α r.columns r.rows
  /-- If it has pixels, the positions around them are coordinates. -/
  clear : ¬ r.IsEmpty → r.Clear

namespace Blurrable

/-- A plane over the rectangle takes no more memory than pixels do. -/
theorem plane [Channel κ] (h : Blurrable (Pixel format κ) r) : Blurrable κ r := by
  refine ⟨Nat.le_trans (Nat.mul_le_mul_right _ ?_) h.room, h.clear⟩
  have hchannels : 4 ≤ 4 * format.channels := by cases format <;> decide
  exact hchannels

theorem room_half (hslim : Cell.Slim α) (h : Blurrable α r) :
    Room α (half r).columns r.rows ∧ Room α (half r).columns (half r).rows ∧
      Room α r.columns (half r).rows := by
  by_cases he : r.IsEmpty
  · have hnone : (half r).columns = 0 ∧ (half r).rows = 0 := by
      simp [half, he, Rect.columns, Rect.rows, Rect.clamped]
    simp [Room, hnone.1, hnone.2]
  · obtain ⟨⟨_, _⟩, _, _⟩ := (h.clear he).sides he
    refine ⟨h.room.of_nearly hslim ?_ ?_ ?_ ?_, h.room.of_nearly hslim ?_ ?_ ?_ ?_,
      h.room.of_nearly hslim ?_ ?_ ?_ ?_⟩ <;> omega

/-- The halved raster can be blurred again. -/
theorem half (hslim : Cell.Slim α) (h : Blurrable α r) : Blurrable α (Rect.half r) := by
  refine ⟨(h.room_half hslim).2.1, fun hne => ?_⟩
  have hpixels : ¬ r.IsEmpty := mt Rect.half_of_isEmpty hne
  exact (h.clear hpixels).half hpixels

theorem half_iterate (hslim : Cell.Slim α) (h : Blurrable α r) (k : Nat) :
    Blurrable α (Rect.half^[k] r) := by
  induction k generalizing r with
  | zero => exact h
  | succ k ih => exact ih (h.half hslim)

theorem answers_reduced (h : Blurrable α r) : Ends E (· = Rect.half r) r.reduced := by
  by_cases he : r.IsEmpty
  · simp [Rect.reduced, Rect.half, he]
  · exact (h.clear he).answers_reduced he

theorem answers_reducedBy (hslim : Cell.Slim α) (h : Blurrable α r) (k : Nat) :
    Ends E (· = Rect.half^[k] r) (r.reducedBy k) := by
  induction k with
  | zero => exact rfl
  | succ k ih =>
    refine ih.bind_eq ?_
    rw [Function.iterate_succ_apply']
    exact (h.half_iterate hslim k).answers_reduced

theorem answers_coarseFrame (hslim : Cell.Slim α) (h : Blurrable α r) :
    Ends E (· = Rect.half r) (coarseFrame α r) := by
  obtain ⟨hrows, hcells, -⟩ := h.room_half hslim
  refine h.answers_reduced.bind_eq ?_
  have hrooms : Ends E (· = Rect.half r) (do
      allocate α (Rect.half r).columns r.rows
      allocate α (Rect.half r).columns (Rect.half r).rows
      return Rect.half r) :=
    hrows.allocates.bind fun _ _ => hcells.allocates.bind fun _ _ => rfl
  by_cases he : r.IsEmpty
  · simpa only [he, not_true_eq_false, if_false] using hrooms
  · simp only [he, not_false_eq_true, if_true]
    obtain ⟨_, _, _, _, _, _⟩ := h.clear he
    have hframe := Rect.half_of_not_isEmpty he
    simp only [Rect.IsEmpty, lowest, highest] at *
    refine (answers_checked ?_).bind fun _ _ => (answers_checked ?_).bind fun _ _ => hrooms
    · simp only [hframe, Fits, lowest, highest]
      omega
    · simp only [hframe, Fits, lowest, highest]
      omega

theorem answers_expandable (hslim : Cell.Slim α) (h : Blurrable α r) (hne : ¬ r.IsEmpty) :
    Ends E (fun _ => True) (expandable α (Rect.half r) r) := by
  obtain ⟨-, -, hcoarse⟩ := h.room_half hslim
  have hroom := h.room
  obtain ⟨_, _, _, _, _, _⟩ := h.clear hne
  have hframe := Rect.half_of_not_isEmpty hne
  have hcount : ((r.y + r.height) / 2 + 1 - firstCoarseRow r).toNat = (Rect.half r).rows := by
    simp only [hframe, Rect.rows, firstCoarseRow]
  simp only [Rect.IsEmpty, lowest, highest] at *
  refine (answers_checked (by simp only [Fits, lowest, highest]; omega)).bind_eq ?_
  refine (answers_checked (by simp only [Fits, lowest, highest]; omega)).bind_eq ?_
  refine (answers_checked ?_).bind_eq ?_
  · simp only [Fits, lowest, highest, firstCoarseRow]
    omega
  rw [hcount]
  refine hcoarse.allocates.bind fun _ _ => ?_
  refine (answers_checked (by simp only [Fits, lowest, highest]; omega)).bind_eq ?_
  rw [hframe]
  refine (answers_checked (by simp only [Fits, lowest, highest]; omega)).bind_eq ?_
  refine (answers_checked (by simp only [Fits, lowest, highest]; omega)).bind_eq ?_
  refine (answers_checked ?_).bind_eq ?_
  · simp only [Fits, lowest, highest, firstCoarseRow]
    omega
  refine (answers_checked (by simp only [Fits, lowest, highest]; omega)).bind_eq ?_
  exact hroom.allocates

/-- The halved raster, doubled back. -/
theorem answers_expand [Channel κ] (hslim : Cell.Slim α) (h : Blurrable α r) (coarse : Raster α) :
    Ends E (· = coarse.stretch (Rect.half r) r) (coarse.expand (Rect.half r) r) := by
  by_cases he : r.IsEmpty
  · rw [expand_of_isEmpty coarse _ he]
    exact zeros_eq_stretch coarse _ he
  · rw [expand, if_neg (mt Rect.isEmpty_iff_sides.mpr he)]
    refine (h.answers_expandable hslim he).bind fun _ _ => ?_
    refine (ends_stretchRows coarse _ r).bind_eq ?_
    exact ends_compute fun i hi j hj =>
      ends_betweenRows coarse _ hi hj (.inr (h.clear he).coarseRows_le)

end Blurrable

/-- Nothing else can be halved: where a position is no coordinate, that is what halving reports. -/
theorem ends_coarseFrame (hne : ¬ r.IsEmpty) (hx : lowest ≤ r.x) (hy : lowest ≤ r.y) :
    Ends (fun cause => IsOverflow cause ∨ r.Clear) (fun _ => r.Clear) (coarseFrame α r) := by
  have hover : ∀ v, Ends (fun cause => IsOverflow cause ∨ r.Clear) (fun w => w = v ∧ Fits v)
      (checked v) := fun v => (ends_checked v).weaken fun _ => .inl
  have hreduced : Ends (fun cause => IsOverflow cause ∨ r.Clear)
      (fun coarse => coarse = Rect.half r ∧ r.x + r.width ≤ highest ∧ r.y + r.height ≤ highest)
      r.reduced := by
    simp only [Rect.reduced, Rect.half, hne, if_false]
    refine (hover _).bind ?_
    rintro _ ⟨rfl, hright⟩
    refine (hover _).bind ?_
    rintro _ ⟨rfl, -⟩
    refine (hover _).bind ?_
    rintro _ ⟨rfl, hbottom⟩
    refine (hover _).bind ?_
    rintro _ ⟨rfl, -⟩
    exact (Rect.ends_ofCorners _ _ _ _).mono (fun _ => .inl) fun _ h => ⟨h, hright.2, hbottom.2⟩
  unfold coarseFrame
  refine hreduced.bind ?_
  rintro _ ⟨rfl, hright, hbottom⟩
  simp only [hne, not_false_eq_true, if_true, Rect.half_of_not_isEmpty hne]
  refine (hover _).bind fun _ hacross => ?_
  refine (hover _).bind fun _ hdown => ?_
  have hclear : r.Clear := by
    refine ⟨hx, hright, ?_, hy, hbottom, ?_⟩
    · have := hacross.2.2
      omega
    · have := hdown.2.2
      omega
  have hroom : ∀ w h, Ends (fun cause => IsOverflow cause ∨ r.Clear) (fun _ => True)
      (allocate α w h) := fun w h =>
    (ends_allocate w h).mono (fun _ _ => .inr hclear) fun _ _ => trivial
  exact (hroom _ _).bind fun _ _ => (hroom _ _).bind fun _ _ => hclear

end Raster

end Patchwork
