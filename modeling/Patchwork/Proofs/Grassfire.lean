import Patchwork.Grassfire
import Patchwork.Proofs.Channel.Counting
import Patchwork.Proofs.Raster.Plane

/-!
# Where the distance is positive

The distance plane is positive exactly on the valid pixels.  The first sweep gives every valid pixel
one more than some count and leaves the others zero; the second only replaces a positive value by
the smaller of positive values.

## Main definitions

* `Grassfire.Lit` — the plane holds counts that are positive on valid pixels only.

## Main statements

* `Grassfire.distances_pos_iff` — positive on the valid pixels.
-/

namespace Patchwork.Grassfire

open Channel Raster Outcome

variable {κ : Type} [Channel κ] [Counting κ]

theorem mem_positions {width height : Nat} {p : Point} :
    p ∈ positions width height ↔ 0 ≤ p.x ∧ p.x < width ∧ 0 ≤ p.y ∧ p.y < height := by
  have hpoints : positions width height = (⟨0, 0, width, height⟩ : Rect).points := by
    simp only [positions, Rect.points, Rect.area, Rect.columns, Rect.rows, Int.toNat_natCast,
      Int.zero_add]
  rw [hpoints, Rect.mem_points, Rect.mem_iff]
  simp only
  omega

/-- A plane as large as the coverage, of counts that are positive on valid pixels only. -/
structure Lit (alpha distance : Raster κ) : Prop where
  /-- The planes have the same columns. -/
  width_eq : distance.width = alpha.width
  /-- The planes have the same rows. -/
  height_eq : distance.height = alpha.height
  /-- Every cell is a count. -/
  count : ∀ x y, Count (distance.peek x y)
  /-- Positive cells are valid pixels. -/
  valid_of_pos : ∀ x y, 0 < distance.peek x y → ¬ alpha.peek x y ≤ 0

theorem Lit.has_iff {alpha distance : Raster κ} (h : Lit alpha distance) {x y : Int} :
    distance.Has x y ↔ alpha.Has x y := by
  rw [Raster.has_iff, Raster.has_iff, h.width_eq, h.height_eq]

/-- Giving one cell a positive count, if it is valid. -/
theorem Lit.modify {alpha distance : Raster κ} (h : Lit alpha distance) {p : Point} {value : κ}
    (hcount : Count value) (hvalid : ¬ alpha.peek p.x p.y ≤ 0) :
    Lit alpha (distance.modify p.x p.y fun _ => value) := by
  refine ⟨by rw [width_modify]; exact h.width_eq, by rw [height_modify]; exact h.height_eq, ?_, ?_⟩
  · intro x y
    rw [peek_modify]
    split
    · exact hcount
    · exact h.count x y
  · intro x y hpos
    rw [peek_modify] at hpos
    split at hpos
    · next heq =>
      rw [heq.2.1, heq.2.2]
      exact hvalid
    · exact h.valid_of_pos x y hpos

/-- The sweep from the top left, with the positions done so far. -/
structure Kindled (alpha : Raster κ) (done : List Point) (distance : Raster κ) : Prop
    extends Lit alpha distance where
  /-- The valid pixels among them are positive. -/
  pos : ∀ p ∈ done, alpha.Has p.x p.y → ¬ alpha.peek p.x p.y ≤ 0 → 0 < distance.peek p.x p.y

theorem Kindled.kindle {alpha distance : Raster κ} {done : List Point}
    (h : Kindled alpha done distance) (p : Point) :
    Kindled alpha (done ++ [p]) (kindle alpha distance p) := by
  unfold Grassfire.kindle
  by_cases hinvalid : alpha.peek p.x p.y ≤ 0
  · rw [if_pos hinvalid]
    refine ⟨h.toLit, ?_⟩
    intro q hq hhas hvalid
    rcases List.mem_append.mp hq with hq | hq
    · exact h.pos q hq hhas hvalid
    · rw [List.mem_singleton.mp hq] at hvalid
      exact absurd hinvalid hvalid
  · rw [if_neg hinvalid]
    have hnearest := Count.smaller (h.count (p.x - 1) p.y) (h.count p.x (p.y - 1))
    refine ⟨h.modify (Counting.succ hnearest) hinvalid, ?_⟩
    intro q hq hhas hvalid
    rw [peek_modify]
    split
    · exact Counting.succ_pos hnearest
    · next hne =>
      rcases List.mem_append.mp hq with hq | hq
      · exact h.pos q hq hhas hvalid
      · rw [List.mem_singleton.mp hq] at hhas hne
        exact absurd ⟨h.has_iff.mpr hhas, rfl, rfl⟩ hne

/-- A step of the second sweep keeps positive what is positive. -/
theorem Lit.spread {alpha distance : Raster κ} (h : Lit alpha distance) (p : Point) :
    Lit alpha (spread distance p) ∧
      ∀ x y, 0 < distance.peek x y → 0 < (Grassfire.spread distance p).peek x y := by
  unfold Grassfire.spread
  by_cases hzero : distance.peek p.x p.y == 0
  · simp only [hzero, if_true]
    exact ⟨h, fun _ _ => id⟩
  · rw [Bool.not_eq_true] at hzero
    simp only [hzero, Bool.false_eq_true, if_false]
    have hhere := h.count p.x p.y
    have hpos := Count.pos hhere hzero
    have hright := h.count (p.x + 1) p.y
    have hbelow := h.count p.x (p.y + 1)
    have hleast := Count.smaller (Count.smaller hhere (Counting.succ hright))
      (Counting.succ hbelow)
    refine ⟨h.modify hleast (h.valid_of_pos _ _ hpos), ?_⟩
    intro x y hxy
    rw [peek_modify]
    split
    · exact smaller_pos (smaller_pos hpos (Counting.succ_pos hright)) (Counting.succ_pos hbelow)
    · exact hxy

theorem lit_zeros (alpha : Raster κ) : Lit alpha (Raster.zeros alpha.width alpha.height) := by
  refine ⟨rfl, rfl, ?_, ?_⟩
  · intro x y
    rw [peek_zeros]
    exact Counting.zero
  · intro x y hpos
    rw [peek_zeros] at hpos
    exact absurd hpos (Counting.not_lt_zero Counting.zero)

theorem kindled_foldl {alpha : Raster κ} {done cells : List Point} {distance : Raster κ}
    (h : Kindled alpha done distance) :
    Kindled alpha (done ++ cells) (cells.foldl (kindle alpha) distance) := by
  induction cells generalizing done distance with
  | nil => rwa [List.append_nil]
  | cons p cells ih =>
    have := ih (h.kindle p)
    rwa [List.append_assoc] at this

theorem lit_foldl {alpha : Raster κ} {cells : List Point} {distance : Raster κ}
    (h : Lit alpha distance) :
    Lit alpha (cells.foldl spread distance) ∧
      ∀ x y, 0 < distance.peek x y → 0 < (cells.foldl spread distance).peek x y := by
  induction cells generalizing distance with
  | nil => exact ⟨h, fun _ _ => id⟩
  | cons p cells ih =>
    obtain ⟨hlit, hpos⟩ := h.spread p
    obtain ⟨hlit', hpos'⟩ := ih hlit
    exact ⟨hlit', fun x y hxy => hpos' x y (hpos x y hxy)⟩

theorem lit_distances (alpha : Raster κ) : Lit alpha (distances alpha) := by
  have hstart : Kindled alpha [] (Raster.zeros alpha.width alpha.height) :=
    ⟨lit_zeros alpha, by simp⟩
  exact (lit_foldl (kindled_foldl hstart).toLit).1

/-- **The distance plane** is positive exactly on the valid pixels. -/
theorem distances_pos_iff {alpha : Raster κ} {x y : Int} (hhas : alpha.Has x y) :
    0 < (distances alpha).peek x y ↔ ¬ alpha.peek x y ≤ 0 := by
  have hstart : Kindled alpha [] (Raster.zeros alpha.width alpha.height) :=
    ⟨lit_zeros alpha, by simp⟩
  have hswept : Kindled alpha ([] ++ positions alpha.width alpha.height) _ := kindled_foldl hstart
  refine ⟨(lit_distances alpha).valid_of_pos x y, ?_⟩
  intro hvalid
  refine (lit_foldl hswept.toLit).2 x y ?_
  exact hswept.pos ⟨x, y⟩ (mem_positions.mpr hhas) hhas hvalid

omit [Counting κ] in
/-- The checked plane, when memory can hold it. -/
theorem ends_grassfire (alpha : Raster κ) : Ends IsRange (· = distances alpha) (grassfire alpha) :=
  ((Raster.ends_allocate _ _).weaken fun _ h => .inr h.1).bind fun _ _ => rfl

end Patchwork.Grassfire
