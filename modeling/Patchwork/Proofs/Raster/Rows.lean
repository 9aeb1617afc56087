import Patchwork.Proofs.Raster.Peek
import Patchwork.Proofs.Rect.Sets

/-!
# Copying row by row

Cutting out and pasting copy runs of cells between two arrays.  A run that stays within one row of
either raster is the part of that row, and the rows of a rectangle that lies in both rasters one
after the other are the rectangle: what is copied is `Raster.overwrite`.  A rectangle that two
rasters have in common never makes a run leave its array, and no position counted from its corner
overflows.

## Main statements

* `Raster.copyRun_eq`, `Raster.ends_copyRows` — one row, and all rows.
* `Raster.region_eq`, `Raster.paste_eq` — cutting out and pasting, cell by cell.
-/

namespace Patchwork.Raster

open Outcome Coordinate

variable {κ α : Type} {E : Failure → Prop}

section Overwriting

variable [Zero α]

/-! ## Writing one raster over another -/

@[simp] theorem width_overwrite (r source : Raster α) (x y : Int) (area : Rect) :
    (r.overwrite source x y area).width = r.width := width_update ..

@[simp] theorem height_overwrite (r source : Raster α) (x y : Int) (area : Rect) :
    (r.overwrite source x y area).height = r.height := height_update ..

theorem has_overwrite {r source : Raster α} {x y : Int} {area : Rect} {x' y' : Int} :
    (r.overwrite source x y area).Has x' y' ↔ r.Has x' y' := by
  simp only [has_iff, width_overwrite, height_overwrite]

theorem peek_overwrite (r source : Raster α) (x y : Int) (area : Rect) (x' y' : Int) :
    (r.overwrite source x y area).peek x' y' =
      if r.Has x' y' ∧ (⟨x', y'⟩ : Point) ∈ area then source.peek (x' - x) (y' - y)
      else r.peek x' y' :=
  peek_update ..

/-- Nothing is written over a rectangle without pixels. -/
theorem overwrite_of_isEmpty {area : Rect} (h : area.IsEmpty) (r source : Raster α) (x y : Int) :
    r.overwrite source x y area = r := by
  apply ext_peek (width_overwrite ..) (height_overwrite ..)
  intro x' y' _
  rw [peek_overwrite, if_neg fun hp => Rect.not_mem_of_isEmpty h _ hp.2]

/-- A rectangle and the row below it. -/
theorem overwrite_row_below (r source : Raster α) (x y left top width : Int) (count : Nat) :
    (r.overwrite source x y ⟨left, top, width, count⟩).overwrite source x y
        ⟨left, top + count, width, 1⟩ =
      r.overwrite source x y ⟨left, top, width, (count + 1 : Nat)⟩ := by
  apply ext_peek (by simp) (by simp)
  intro x' y' hhas
  rw [has_overwrite, has_overwrite] at hhas
  simp only [peek_overwrite, has_overwrite, hhas, true_and, Rect.mem_iff]
  by_cases hlast : y' = top + count
  · -- the row that is added
    subst hlast
    by_cases hcolumn : left ≤ x' ∧ x' < left + width
    · rw [if_pos (by omega), if_pos (by omega)]
    · rw [if_neg (by omega), if_neg (by omega), if_neg (by omega)]
  · rw [if_neg (by omega)]
    by_cases habove : left ≤ x' ∧ x' < left + width ∧ top ≤ y' ∧ y' < top + count
    · rw [if_pos habove, if_pos (by omega)]
    · rw [if_neg habove, if_neg (by omega)]

/-! ## One row -/

/-- A run within a row of either raster. -/
theorem copyRun_eq {r source : Raster α} {column row start sourceRow count : Nat}
    (hrow : row < r.height) (hcolumn : column + count ≤ r.width)
    (hsourceRow : sourceRow < source.height) (hstart : start + count ≤ source.width) :
    r.copyRun source (row * r.width + column) (sourceRow * source.width + start) count =
      .ok (r.overwrite source (column - start) (row - sourceRow) ⟨column, row, count, 1⟩) := by
  have hruns := And.intro (run_le_size hrow hcolumn) (run_le_size hsourceRow hstart)
  have hcells : (⟨column, row, count, 1⟩ : Rect).area = count := by
    simp [Rect.area, Rect.columns, Rect.rows]
  simp only [copyRun, require_eq_ok_iff.mpr hruns, overwrite, update, hcells]
  refine congrArg Except.ok ?_
  refine (List.foldl_rel (r := fun s s' : Raster α => s = s' ∧ s.width = r.width ∧
    s.height = r.height) ⟨rfl, rfl, rfl⟩ ?_).1
  rintro k hk s _ ⟨rfl, hw, hh⟩
  rw [List.mem_range] at hk
  have hcolumnAt : ((column : Nat) : Int) + ((k % count : Nat) : Int) = (column + k : Nat) := by
    rw [Nat.mod_eq_of_lt hk, Int.natCast_add]
  have hrowAt : ((row : Nat) : Int) + ((k / count : Nat) : Int) = (row : Nat) := by
    rw [Nat.div_eq_of_lt hk, Int.natCast_zero, Int.add_zero]
  have hx : ((column + k : Nat) : Int) - (column - start) = (start + k : Nat) := by omega
  have hy : ((row : Nat) : Int) - (row - sourceRow) = sourceRow := by omega
  simp only [Rect.columns, Int.toNat_natCast, hcolumnAt, hrowAt, hx, hy]
  have hhas : s.Has (column + k : Nat) row := has_natCast.mpr (by omega)
  have hsourceHas : source.Has (start + k : Nat) sourceRow := has_natCast.mpr (by omega)
  rw [peek_natCast hsourceHas, modify_natCast hhas, hw]
  simp only [Nat.add_assoc, width_modifyIndex, height_modifyIndex, hw, hh, and_self]

/-! ## All rows -/

/-- The rows of a rectangle that lies in both rasters.  Where no overflow is allowed, the positions
counted from the two corners have to be coordinates. -/
theorem ends_copyRows {r source : Raster α} {part : Rect} {corner origin : Point}
    (hne : ¬ part.IsEmpty)
    (hr : part.Within ⟨corner.x, corner.y, r.width, r.height⟩)
    (hsource : part.Within ⟨origin.x, origin.y, source.width, source.height⟩)
    (hover : E (.fault .overflow) ∨ (Fits (part.y + part.height) ∧
      part.x - corner.x ≤ highest ∧ part.y + part.height - corner.y ≤ highest ∧
      part.x - origin.x ≤ highest ∧ part.y + part.height - origin.y ≤ highest)) :
    Ends E (· = r.overwrite source (origin.x - corner.x) (origin.y - corner.y)
        ⟨part.x - corner.x, part.y - corner.y, part.width, part.height⟩)
      (r.copyRows source part corner origin) := by
  obtain ⟨hleft, hright, htop, hbottom⟩ := hr
  obtain ⟨hleft', hright', htop', hbottom'⟩ := hsource
  simp only [Rect.IsEmpty, not_or, Int.not_le] at *
  unfold copyRows
  refine (ends_checked_of (hover.imp_right fun h => h.1)).bind_eq ?_
  refine bind_position (by omega) (hover.imp_right fun h => h.2.1) ?_
  refine bind_position (by omega) (hover.imp_right fun h => h.2.2.2.1) ?_
  have hrows : (part.rows : Int) = part.height := by
    simp only [Rect.rows]
    omega
  have hcolumns : (part.columns : Int) = part.width := by
    simp only [Rect.columns]
    omega
  rw [← hrows]
  refine Ends.foldlM_range (I := fun k copied => copied = r.overwrite source
    (origin.x - corner.x) (origin.y - corner.y)
    ⟨part.x - corner.x, part.y - corner.y, part.width, k⟩) ?_ ?_
  · exact (overwrite_of_isEmpty (.inr (Int.le_refl 0)) ..).symm
  -- the rows above are copied already
  rintro k hk copied rfl
  refine bind_position (by omega) (hover.imp_right fun h => by omega) ?_
  refine bind_position (by omega) (hover.imp_right fun h => by omega) ?_
  rw [copyRun_eq (by simp only [height_overwrite]; omega) (by simp only [width_overwrite]; omega)
    (by omega) (by omega), ends_ok, ← overwrite_row_below]
  have hx : ((part.x - corner.x).toNat : Int) - ((part.x - origin.x).toNat : Int) =
      origin.x - corner.x := by omega
  have hy : ((part.y + k - corner.y).toNat : Int) - ((part.y + k - origin.y).toNat : Int) =
      origin.y - corner.y := by omega
  have hcolumn : ((part.x - corner.x).toNat : Int) = part.x - corner.x := by omega
  have hrow : ((part.y + k - corner.y).toNat : Int) = part.y - corner.y + k := by omega
  rw [hx, hy, hcolumn, hrow, hcolumns]

/-! ## Cutting out and pasting -/

/-- The part of a rectangle that lies in a raster, copied into a blank one. -/
theorem overwrite_zeros_eq_cut (r : Raster α) {area : Rect} (hright : area.x + area.width ≤ highest)
    (hbottom : area.y + area.height ≤ highest) :
    (zeros area.columns area.rows).overwrite r (0 - area.x) (0 - area.y)
      ((Rect.meet area r.bounds).moved (-area.x) (-area.y)) = r.cut area := by
  apply ext_peek
  · rw [width_overwrite]
    rfl
  · rw [height_overwrite]
    rfl
  intro x y hhas
  rw [has_overwrite] at hhas
  have hcut : (r.cut area).Has x y := hhas
  have hmem : (⟨x, y⟩ : Point) ∈ (Rect.meet area r.bounds).moved (-area.x) (-area.y) ↔
      r.Has (area.x + x) (area.y + y) := by
    have hpoint : (⟨x, y⟩ : Point) = ⟨area.x + x + -area.x, area.y + y + -area.y⟩ := by
      simp only [Point.mk.injEq]
      omega
    rw [hpoint, Rect.mem_moved (p := ⟨area.x + x, area.y + y⟩), Rect.mem_meet]
    -- a raster may be wider than the coordinates reach, but no rectangle can be
    simp only [zeros, Rect.mem_iff, has_iff, bounds, Rect.ofSize, Rect.clamped, ofSide, highest,
      width_tabulate, height_tabulate, Rect.columns, Rect.rows] at *
    omega
  have hx : x - (0 - area.x) = area.x + x := by omega
  have hy : y - (0 - area.y) = area.y + y := by omega
  simp only [peek_overwrite, peek_cut hcut, hmem, hhas, true_and, peek_zeros, hx, hy]
  split
  · rfl
  · next hout => exact (peek_eq_zero hout).symm

omit [Zero α] in
theorem bounds_eq (r : Raster α) : r.bounds = ⟨0, 0, ofSide r.width, ofSide r.height⟩ := by
  simp only [bounds, Rect.ofSize, Rect.clamped, ofSide, highest, Rect.mk.injEq, true_and]
  omega

/-- Where the two have nothing in common, zeros are cut out. -/
theorem zeros_eq_cut (r : Raster α) {area : Rect} (hright : area.x + area.width ≤ highest)
    (hbottom : area.y + area.height ≤ highest) (hempty : (Rect.meet area r.bounds).IsEmpty) :
    zeros area.columns area.rows = r.cut area := by
  rw [← overwrite_zeros_eq_cut r hright hbottom, overwrite_of_isEmpty]
  exact Rect.isEmpty_moved.mpr hempty

/-- What is left of cutting out once the common part is known. -/
theorem ends_cut_inside (r : Raster α) {area inside : Rect}
    (hmeet : area.intersect r.bounds = .ok inside)
    (hover : E (.fault .overflow) ∨ area.width ≤ highest ∧ area.height ≤ highest) :
    Ends E (· = r.cut area) (if inside.IsEmpty then pure (zeros area.columns area.rows)
      else (zeros area.columns area.rows).copyRows r inside ⟨area.x, area.y⟩ ⟨0, 0⟩) := by
  rw [Rect.intersect_eq, stepwise_eq_ok_iff] at hmeet
  obtain ⟨hfits, rfl⟩ := hmeet
  have hright : Fits (area.x + area.width) := hfits _ (by simp [Rect.intersectSteps])
  have hbottom : Fits (area.y + area.height) := hfits _ (by simp [Rect.intersectSteps])
  split
  · next hempty => exact zeros_eq_cut r hright.2 hbottom.2 hempty
  next hne =>
  rw [← overwrite_zeros_eq_cut r hright.2 hbottom.2]
  rw [bounds_eq] at hne ⊢
  simp only [Fits, lowest, highest, ofSide, Rect.IsEmpty, Rect.meet, Rect.spanning,
    Rect.clamped] at *
  refine ends_copyRows ?_ ⟨?_, ?_, ?_, ?_⟩ ⟨?_, ?_, ?_, ?_⟩ (hover.imp_right fun hsize => ?_) <;>
    simp only [Fits, lowest, highest, Rect.IsEmpty, zeros, width_tabulate, height_tabulate,
      Rect.columns, Rect.rows] <;> omega

/-- **Pasting** writes the cells of the other raster over those that it covers.  No run of cells
leaves its array, and no position overflows. -/
theorem paste_eq (r source : Raster α) (x y : Int) :
    r.paste source x y = (do
      let placed ← source.bounds.translate x y
      let inside ← placed.intersect r.bounds
      return r.overwrite source x y inside) := by
  unfold paste
  cases hplaced : source.bounds.translate x y with
  | error cause => rfl
  | ok placed =>
    cases hmeet : placed.intersect r.bounds with
    | error cause => simp only [bind, Except.bind, hmeet]
    | ok inside =>
      simp only [bind, Except.bind, hmeet]
      split
      · next hempty => rw [overwrite_of_isEmpty hempty]
      next hne =>
      have hplace := (Rect.ends_translate _ _ _).of_ok hplaced
      have hinside := (Rect.ends_intersect _ _).of_ok hmeet
      have hcopied := @ends_copyRows _ (fun _ => False) _ r source inside ⟨0, 0⟩ ⟨x, y⟩ hne
      simp only [Int.sub_zero] at hcopied
      refine (hcopied ?_ ?_ (.inr ?_)).eq_ok
      all_goals
        rw [hplace, bounds_eq, bounds_eq] at hinside
        subst hinside
        simp only [highest, ofSide, Rect.IsEmpty, Rect.meet, Rect.spanning, Rect.clamped] at *
      · constructor <;> simp only <;> omega
      · constructor <;> simp only <;> omega
      · simp only [Fits, lowest, highest]
        omega

end Overwriting

/-- **Cutting out** gives the cells of the rectangle when memory can hold them and the rectangle can
be compared with the raster.  No run of cells that is copied leaves its array, and no position
overflows. -/
theorem region_eq [Cell κ α] (r : Raster α) {area : Rect} (hwidth : area.width ≤ highest)
    (hheight : area.height ≤ highest) :
    r.region area = (do
      allocate α area.columns area.rows
      let _ ← area.intersect r.bounds
      return r.cut area) := by
  simp only [region, blankFor, blank, bind_assoc, pure_bind]
  refine bind_congr fun _ => ?_
  cases hmeet : area.intersect r.bounds with
  | error cause => rfl
  | ok inside => exact (ends_cut_inside r hmeet (.inr ⟨hwidth, hheight⟩)).eq_ok

end Patchwork.Raster
