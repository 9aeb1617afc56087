import Patchwork.Proofs.Rect.Exact
import Patchwork.Raster.Region

/-!
# Rasters by their cells

What each operation on rasters does to the cells under `Raster.peek`, and that nothing else counts:
rasters of one size with equal cells are equal.

## Main statements

* `Raster.ext_peek` — a raster is its size and its cells.
* `Raster.peek_update` — an update changes the cells of its rectangle, each once.
* `Raster.peek_cut` — cutting out.
* `Raster.ends_compute` — cells computed one after the other.
-/

namespace Patchwork.Raster

open Outcome

variable {κ α β : Type}

/-! ## Positions -/

/-- The index of a cell determines its column and row. -/
theorem index_inj {w x y x' y' : Nat} (hx : x < w) (hx' : x' < w)
    (h : y * w + x = y' * w + x') : x = x' ∧ y = y' := by
  have hrow : y = y' := by
    have hdiv : (y * w + x) / w = (y' * w + x') / w := by rw [h]
    rwa [Nat.mul_comm y, Nat.mul_comm y', Nat.mul_add_div (by omega), Nat.mul_add_div (by omega),
      Nat.div_eq_of_lt hx, Nat.div_eq_of_lt hx'] at hdiv
  subst hrow
  exact ⟨by omega, rfl⟩

theorem Has.index_lt {r : Raster α} {x y : Int} (h : r.Has x y) :
    y.toNat * r.width + x.toNat < r.data.size := by
  obtain ⟨hx0, hx, hy0, hy⟩ := h
  rw [r.size_eq]
  exact Raster.index_lt (by omega) (by omega)

theorem has_iff {r : Raster α} {x y : Int} :
    r.Has x y ↔ 0 ≤ x ∧ x < r.width ∧ 0 ≤ y ∧ y < r.height := Iff.rfl

/-- The cells of a raster that fills a rectangle are the pixels of the rectangle. -/
theorem Fills.has_iff_mem {r : Raster α} {area : Rect} (h : r.Fills area) {p : Point} :
    r.Has (p.x - area.x) (p.y - area.y) ↔ p ∈ area := by
  obtain ⟨hw, hh⟩ := h
  simp only [Rect.columns, Rect.rows] at hw hh
  rw [has_iff, Rect.mem_iff]
  omega

variable [Zero α] [Zero β]

omit [Zero α] [Zero β] in
/-- Every index belongs to a cell. -/
theorem has_of_index {r : Raster α} {k : Nat} (hk : k < r.data.size) :
    r.Has (k % r.width : Nat) (k / r.width : Nat) := by
  rw [r.size_eq] at hk
  have hwidth : 0 < r.width := Nat.pos_of_ne_zero (by rintro h; simp [h] at hk)
  have hcolumn : k % r.width < r.width := Nat.mod_lt k hwidth
  have hrow : k / r.width < r.height := by
    rw [Nat.div_lt_iff_lt_mul hwidth, Nat.mul_comm]
    exact hk
  generalize k % r.width = x at hcolumn ⊢
  generalize k / r.width = y at hrow ⊢
  rw [has_iff]
  omega

theorem peek_of_index {r : Raster α} {k : Nat} (hk : k < r.data.size) :
    r.peek (k % r.width : Nat) (k / r.width : Nat) = r.data[k] := by
  have hindex : k / r.width * r.width + k % r.width = k := by
    rw [Nat.mul_comm]
    exact Nat.div_add_mod k r.width
  rw [peek_eq_getD (has_of_index hk)]
  simp only [Int.toNat_natCast, hindex]
  simp [Array.getD, hk]

/-- Two rasters of one size with equal cells are equal. -/
theorem ext_peek {r s : Raster α} (hw : r.width = s.width) (hh : r.height = s.height)
    (h : ∀ x y, r.Has x y → r.peek x y = s.peek x y) : r = s := by
  have hdata : r.data = s.data := by
    apply Array.ext
    · rw [r.size_eq, s.size_eq, hw, hh]
    · intro k hk hk'
      rw [← peek_of_index hk, ← peek_of_index hk', ← hw]
      exact h _ _ (has_of_index hk)
  cases r
  cases s
  simp only at hw hh hdata
  subst hw hh hdata
  rfl

/-! ## Cells of the results -/

theorem peek_tabulate_int {w h : Nat} {f : Nat → Nat → α} {x y : Int}
    (hhas : (tabulate w h f).Has x y) : (tabulate w h f).peek x y = f x.toNat y.toNat := by
  obtain ⟨hx0, hx, hy0, hy⟩ := hhas
  simp only [width_tabulate, height_tabulate] at hx hy
  have := peek_tabulate (f := f) (x := x.toNat) (y := y.toNat) (w := w) (h := h)
    (by omega) (by omega)
  rwa [Int.toNat_of_nonneg hx0, Int.toNat_of_nonneg hy0] at this

/-- Only the values at positions inside count. -/
theorem tabulate_congr {γ : Type} {w h : Nat} {f g : Nat → Nat → γ}
    (hfg : ∀ x y, x < w → y < h → f x y = g x y) : tabulate w h f = tabulate w h g := by
  have hcells : (fun k : Fin (w * h) => f (k % w) (k / w)) =
      fun k : Fin (w * h) => g (k % w) (k / w) := funext fun k => by
    have hw : 0 < w := Nat.pos_of_mul_pos_right (Nat.zero_lt_of_lt k.isLt)
    exact hfg _ _ (Nat.mod_lt _ hw) (Nat.div_lt_of_lt_mul k.isLt)
  simp only [tabulate, hcells]

@[simp] theorem peek_zeros (w h : Nat) (x y : Int) : (zeros w h : Raster α).peek x y = 0 := by
  by_cases hhas : (zeros w h : Raster α).Has x y
  · exact peek_tabulate_int hhas
  · exact peek_eq_zero hhas

theorem peek_map {f : α → β} {r : Raster α} {x y : Int} (h : r.Has x y) :
    (r.map f).peek x y = f (r.peek x y) := by
  have hsize := h.index_lt
  have hmap : (r.map f).Has x y := h
  rw [peek_eq_getD h, peek_eq_getD hmap]
  simp [map, Array.getD, hsize]

theorem peek_zipWith {f : α → β → α} {r : Raster α} {s : Raster β} {x y : Int} (h : r.Has x y)
    (hs : s.Has x y) (hw : s.width = r.width) :
    (zipWith f r s).peek x y = f (r.peek x y) (s.peek x y) := by
  have hsize := h.index_lt
  have hsize' := hs.index_lt
  have hzip : (zipWith f r s).Has x y := h
  rw [peek_eq_getD h, peek_eq_getD hs, peek_eq_getD hzip]
  rw [hw] at hsize' ⊢
  simp [zipWith, Array.getD, hsize, hsize']

theorem peek_modify {r : Raster α} {x y : Int} {f : α → α} {x' y' : Int} :
    (r.modify x y f).peek x' y' =
      if r.Has x y ∧ x' = x ∧ y' = y then f (r.peek x y) else r.peek x' y' := by
  by_cases h : r.Has x y
  · by_cases h' : r.Has x' y'
    · have hm : (r.modifyIndex (y.toNat * r.width + x.toNat) f).Has x' y' := h'
      have hsize := h.index_lt
      simp only [modify, h, if_true, true_and]
      rw [peek_eq_getD hm, peek_eq_getD h, peek_eq_getD h']
      simp only [modifyIndex, Array.getD_eq_getD_getElem?, Array.getElem?_modify]
      by_cases heq : x' = x ∧ y' = y
      · obtain ⟨rfl, rfl⟩ := heq
        simp [hsize]
      · have hne : y.toNat * r.width + x.toNat ≠ y'.toNat * r.width + x'.toNat := by
          intro hindex
          obtain ⟨hx0, hx, hy0, hy⟩ := h
          obtain ⟨hx0', hx', hy0', hy'⟩ := h'
          have := index_inj (by omega) (by omega) hindex
          omega
        simp [heq, hne]
    · have hm : ¬ (r.modify x y f).Has x' y' := by
        simp only [modify, h, if_true]
        exact h'
      have hne : ¬ (x' = x ∧ y' = y) := by
        rintro ⟨rfl, rfl⟩
        exact h' h
      simp [peek_eq_zero hm, peek_eq_zero h', hne]
  · simp [modify, h]

omit [Zero α] in
@[simp] theorem width_modify (r : Raster α) (x y : Int) (f : α → α) :
    (r.modify x y f).width = r.width := by
  simp only [modify]
  split <;> rfl

omit [Zero α] in
@[simp] theorem height_modify (r : Raster α) (x y : Int) (f : α → α) :
    (r.modify x y f).height = r.height := by
  simp only [modify]
  split <;> rfl

omit [Zero α] in
theorem has_modify {r : Raster α} {x y : Int} {f : α → α} {x' y' : Int} :
    (r.modify x y f).Has x' y' ↔ r.Has x' y' := by
  simp only [has_iff, width_modify, height_modify]

end Patchwork.Raster

/-! ## Updates of a rectangle -/

namespace Patchwork.Rect

/-- The points of a rectangle, row after row. -/
def points (r : Rect) : List Point :=
  (List.range r.area).map fun (k : Nat) =>
    ⟨r.x + (k % r.columns : Nat), r.y + (k / r.columns : Nat)⟩

/-- Counting along the rows, a place inside the area has its column and its row in range. -/
theorem row_lt_of_lt_area {r : Rect} {k : Nat} (hk : k < r.area) :
    k % r.columns < r.columns ∧ k / r.columns < r.rows := by
  have hcolumns : 0 < r.columns := Nat.pos_of_ne_zero (by rintro h; simp [area, h] at hk)
  refine ⟨Nat.mod_lt k hcolumns, ?_⟩
  rw [Nat.div_lt_iff_lt_mul hcolumns, Nat.mul_comm]
  exact hk

theorem mem_points {r : Rect} {p : Point} : p ∈ r.points ↔ p ∈ r := by
  simp only [points, List.mem_map, List.mem_range]
  constructor
  · rintro ⟨k, hk, rfl⟩
    obtain ⟨hcolumn, hrow⟩ := row_lt_of_lt_area hk
    simp only [columns, rows] at hcolumn hrow ⊢
    generalize k % r.width.toNat = x at hcolumn ⊢
    generalize k / r.width.toNat = y at hrow ⊢
    simp only [mem_iff]
    omega
  · intro hp
    have hx : (p.x - r.x).toNat < r.columns := by
      rw [mem_iff] at hp
      simp only [columns]
      omega
    have hy : (p.y - r.y).toNat < r.rows := by
      rw [mem_iff] at hp
      simp only [rows]
      omega
    refine ⟨(p.y - r.y).toNat * r.columns + (p.x - r.x).toNat, Raster.index_lt hx hy, ?_⟩
    rw [Nat.mul_comm, Nat.mul_add_mod, Nat.mul_add_div (by omega), Nat.mod_eq_of_lt hx,
      Nat.div_eq_of_lt hx, Nat.add_zero]
    rw [mem_iff] at hp
    obtain ⟨px, py⟩ := p
    simp only [Point.mk.injEq] at hp ⊢
    omega

theorem nodup_points (r : Rect) : r.points.Nodup := by
  unfold points List.Nodup
  rw [List.pairwise_map]
  apply (List.nodup_range (n := r.area)).imp_of_mem
  intro k k' hk hk' hne heq
  simp only [Point.mk.injEq, Int.add_right_inj, Int.ofNat_inj] at heq
  apply hne
  rw [← Nat.div_add_mod k r.columns, ← Nat.div_add_mod k' r.columns, heq.1, heq.2]

end Patchwork.Rect

namespace Patchwork.Raster

open Outcome

variable {κ α : Type}

theorem width_foldl_modify (f : Int → Int → α → α) (l : List Point) (r : Raster α) :
    (l.foldl (fun r p => r.modify p.x p.y (f p.x p.y)) r).width = r.width := by
  induction l generalizing r with
  | nil => rfl
  | cons p l ih => rw [List.foldl_cons, ih, width_modify]

theorem height_foldl_modify (f : Int → Int → α → α) (l : List Point) (r : Raster α) :
    (l.foldl (fun r p => r.modify p.x p.y (f p.x p.y)) r).height = r.height := by
  induction l generalizing r with
  | nil => rfl
  | cons p l ih => rw [List.foldl_cons, ih, height_modify]

/-- Changing the cells at distinct points one after the other changes each once. -/
theorem peek_foldl_modify [Zero α] (f : Int → Int → α → α) {l : List Point} (hl : l.Nodup)
    (r : Raster α) (p : Point) :
    (l.foldl (fun r q => r.modify q.x q.y (f q.x q.y)) r).peek p.x p.y =
      if r.Has p.x p.y ∧ p ∈ l then f p.x p.y (r.peek p.x p.y) else r.peek p.x p.y := by
  induction l generalizing r with
  | nil => simp
  | cons q l ih =>
    obtain ⟨hq, hl⟩ := List.nodup_cons.mp hl
    rw [List.foldl_cons, ih hl]
    simp only [has_modify, peek_modify, List.mem_cons]
    by_cases heq : p = q
    · subst heq
      simp [hq]
    · have hne : ¬ (p.x = q.x ∧ p.y = q.y) := by
        rintro ⟨hx, hy⟩
        exact heq (by cases p; cases q; simp_all)
      simp [hne, heq]

theorem update_eq_foldl (r : Raster α) (area : Rect) (f : Int → Int → α → α) :
    r.update area f = area.points.foldl (fun r p => r.modify p.x p.y (f p.x p.y)) r := by
  simp only [update, Rect.points, List.foldl_map]

@[simp] theorem width_update (r : Raster α) (area : Rect) (f : Int → Int → α → α) :
    (r.update area f).width = r.width := by
  rw [update_eq_foldl, width_foldl_modify]

@[simp] theorem height_update (r : Raster α) (area : Rect) (f : Int → Int → α → α) :
    (r.update area f).height = r.height := by
  rw [update_eq_foldl, height_foldl_modify]

/-- An update changes the cells of its rectangle, each once, and no other. -/
theorem peek_update [Zero α] (r : Raster α) (area : Rect) (f : Int → Int → α → α) (x y : Int) :
    (r.update area f).peek x y =
      if r.Has x y ∧ (⟨x, y⟩ : Point) ∈ area then f x y (r.peek x y) else r.peek x y := by
  rw [update_eq_foldl]
  simpa only [Rect.mem_points] using peek_foldl_modify f area.nodup_points r ⟨x, y⟩

/-! ## Cutting out and pasting -/

section Region

variable [Zero α]

theorem fills_cut (r : Raster α) (area : Rect) : (r.cut area).Fills area := ⟨rfl, rfl⟩

theorem peek_cut {r : Raster α} {area : Rect} {x y : Int} (h : (r.cut area).Has x y) :
    (r.cut area).peek x y = r.peek (area.x + x) (area.y + y) := by
  have hnonneg : 0 ≤ x ∧ 0 ≤ y := ⟨h.1, h.2.2.1⟩
  rw [cut, peek_tabulate_int h, Int.toNat_of_nonneg hnonneg.1, Int.toNat_of_nonneg hnonneg.2]

/-- Cutting out everything changes nothing. -/
theorem cut_bounds {r : Raster α} (h : r.Fills r.bounds) : r.cut r.bounds = r := by
  have hfills := r.fills_cut r.bounds
  have horigin : r.bounds.x = 0 ∧ r.bounds.y = 0 := ⟨rfl, rfl⟩
  apply ext_peek (hfills.1.symm.trans h.1) (hfills.2.symm.trans h.2)
  intro x y hhas
  rw [peek_cut hhas, horigin.1, horigin.2, Int.zero_add, Int.zero_add]

end Region

/-! ## Cells looked up and computed one by one -/

section Cellwise

/-- A run that stays within a row stays within the array. -/
theorem run_le_size {r : Raster α} {row column count : Nat} (hrow : row < r.height)
    (hcolumn : column + count ≤ r.width) : row * r.width + column + count ≤ r.data.size := by
  calc row * r.width + column + count ≤ row * r.width + r.width := by omega
    _ = (row + 1) * r.width := (Nat.succ_mul row r.width).symm
    _ ≤ r.height * r.width := Nat.mul_le_mul_right r.width hrow
    _ = r.data.size := by rw [r.size_eq, Nat.mul_comm]

theorem has_natCast {r : Raster α} {column row : Nat} :
    r.Has column row ↔ column < r.width ∧ row < r.height := by
  rw [has_iff]
  omega

theorem modify_natCast {r : Raster α} {column row : Nat} (h : r.Has column row) (f : α → α) :
    r.modify column row f = r.modifyIndex (row * r.width + column) f := by
  rw [modify, if_pos h, Int.toNat_natCast, Int.toNat_natCast]

theorem set_of_has {r : Raster α} {column row : Nat} (h : r.Has column row) (cell : α) :
    r.set column row cell = .ok (r.modify column row fun _ => cell) := by
  have hindex := h.index_lt
  rw [Int.toNat_natCast, Int.toNat_natCast] at hindex
  rw [set, modifyAt, require_eq_ok_iff.mpr hindex, modify_natCast h]
  rfl

variable [Zero α]

theorem peek_natCast {r : Raster α} {column row : Nat} (h : r.Has column row) :
    r.peek column row = r.data.getD (row * r.width + column) 0 := by
  rw [peek_eq_getD h, Int.toNat_natCast, Int.toNat_natCast]

theorem get_of_has {r : Raster α} {column row : Nat} (h : r.Has column row) :
    r.get column row = .ok (r.peek column row) := by
  have hindex := h.index_lt
  rw [Int.toNat_natCast, Int.toNat_natCast] at hindex
  simp [get, peek_natCast h, Array.getD, hindex]

/-- Putting the cell of the next index in place, after those of all indices before. -/
theorem set_tabulate_next {width height k : Nat} (g : Nat → Nat → α) (hk : k < width * height) :
    (tabulate width height fun i j => if j * width + i < k then g i j else 0).set (k % width)
        (k / width) (g (k % width) (k / width)) =
      .ok (tabulate width height fun i j => if j * width + i < k + 1 then g i j else 0) := by
  have hwidth : 0 < width := Nat.pos_of_mul_pos_right (Nat.zero_lt_of_lt hk)
  have hi : k % width < width := Nat.mod_lt k hwidth
  have hj : k / width < height := Nat.div_lt_of_lt_mul hk
  have hsplit : k / width * width + k % width = k := by
    rw [Nat.mul_comm]
    exact Nat.div_add_mod k width
  rw [set_of_has (has_natCast.mpr ⟨hi, hj⟩)]
  refine congrArg Except.ok (ext_peek (by simp) (by simp) ?_)
  intro x y hhas
  rw [has_modify] at hhas
  obtain ⟨i, rfl⟩ := Int.eq_ofNat_of_zero_le hhas.1
  obtain ⟨j, rfl⟩ := Int.eq_ofNat_of_zero_le hhas.2.2.1
  obtain ⟨hi', hj'⟩ := has_natCast.mp hhas
  rw [width_tabulate] at hi'
  rw [height_tabulate] at hj'
  rw [peek_modify, peek_tabulate hi' hj', peek_tabulate hi' hj']
  by_cases hlast : j * width + i = k
  · obtain ⟨rfl, rfl⟩ := index_inj hi' hi (hlast.trans hsplit.symm)
    rw [if_pos ⟨hhas, rfl, rfl⟩, if_pos (by omega)]
  · have hplace : ¬ ((i : Int) = (k % width : Nat) ∧ (j : Int) = (k / width : Nat)) := by
      rintro ⟨hcolumn, hrow⟩
      rw [Int.natCast_inj.mp hcolumn, Int.natCast_inj.mp hrow] at hlast
      exact hlast hsplit
    rw [if_neg fun h => hplace h.2]
    by_cases hbefore : j * width + i < k
    · rw [if_pos hbefore, if_pos (by omega)]
    · rw [if_neg hbefore, if_neg (by omega)]

/-- A grid whose cells are computed one after the other is the grid of the answers, when each cell
either has its answer or stops with an expected failure. -/
theorem ends_compute {E : Failure → Prop} {width height : Nat} {f : Nat → Nat → Outcome α}
    {g : Nat → Nat → α} (hf : ∀ i < width, ∀ j < height, Ends E (· = g i j) (f i j)) :
    Ends E (· = tabulate width height g) (compute width height f) := by
  have hdone : tabulate width height g =
      tabulate width height fun i j => if j * width + i < width * height then g i j else 0 :=
    tabulate_congr fun i j hi hj => (if_pos (index_lt hi hj)).symm
  rw [hdone]
  -- the cells of the first indices are in place, the others are zero
  refine Ends.foldlM_range (I := fun k r => r =
    tabulate width height fun i j => if j * width + i < k then g i j else 0) ?_ ?_
  · simp [zeros]
  rintro k hk _ rfl
  have hwidth : 0 < width := Nat.pos_of_mul_pos_right (Nat.zero_lt_of_lt hk)
  refine (hf _ (Nat.mod_lt k hwidth) _ (Nat.div_lt_of_lt_mul hk)).bind_eq ?_
  rw [set_tabulate_next g hk, ends_ok]

end Cellwise

end Patchwork.Raster
