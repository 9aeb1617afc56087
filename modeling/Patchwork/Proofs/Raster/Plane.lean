import Patchwork.Proofs.Raster.Rows
import Patchwork.Raster.Resample

/-!
# Rasters in the plane

A raster that covers a rectangle is a function on the points of the shared frame, zero outside the
rectangle.  Seen so, doubling a raster no longer depends on the rectangle it is doubled onto: each
fine point is a fixed combination of the coarse points that spread to it, and these lie in the
halved rectangle.

## Main definitions

* `Raster.cell` — the cell of a raster over a rectangle, at a point of the shared frame.
* `stretchAt` — doubling, point by point.

## Main statements

* `Raster.cell_stretch` — `Raster.stretch` is `stretchAt` on its rectangle.
* `stretchAt_congr` — what doubling reads.
* `Raster.ends_expand` — the checked doubling.
-/

namespace Patchwork

open Outcome Coordinate

namespace Raster

variable {κ α : Type}

/-- The cell of a raster that covers `frame`, at a point of the shared frame; zero outside. -/
def cell [Zero α] (r : Raster α) (frame : Rect) (p : Point) : α :=
  r.peek (p.x - frame.x) (p.y - frame.y)

section Cell

variable [Zero α]

theorem cell_eq_zero {r : Raster α} {frame : Rect} (h : r.Fills frame) {p : Point}
    (hp : p ∉ frame) : r.cell frame p = 0 :=
  peek_eq_zero fun hhas => hp (h.has_iff_mem.mp hhas)

/-- Rasters over one rectangle with equal cells are equal. -/
theorem ext_cell {r s : Raster α} {frame : Rect} (hr : r.Fills frame) (hs : s.Fills frame)
    (h : ∀ p, p ∈ frame → r.cell frame p = s.cell frame p) : r = s := by
  apply ext_peek (hr.1.symm.trans hs.1) (hr.2.symm.trans hs.2)
  intro x y hhas
  have hx : frame.x + x - frame.x = x := by omega
  have hy : frame.y + y - frame.y = y := by omega
  have hp : (⟨frame.x + x, frame.y + y⟩ : Point) ∈ frame := by
    rw [← hr.has_iff_mem]
    simpa only [hx, hy] using hhas
  simpa only [cell, hx, hy] using h _ hp

theorem cell_cut {r : Raster α} {frame area : Rect} {p : Point} (hp : p ∈ area) :
    (r.cut (area.seenFrom frame)).cell area p = r.cell frame p := by
  have hfills : (r.cut (area.seenFrom frame)).Fills area := fills_cut r (area.seenFrom frame)
  have hx : area.x - frame.x + (p.x - area.x) = p.x - frame.x := by omega
  have hy : area.y - frame.y + (p.y - area.y) = p.y - frame.y := by omega
  rw [cell, peek_cut (hfills.has_iff_mem.mpr hp), cell]
  simp only [Rect.seenFrom, hx, hy]

theorem cell_map {β : Type} [Zero β] {f : α → β} {r : Raster α} {frame : Rect}
    (h : r.Fills frame) {p : Point} (hp : p ∈ frame) :
    (r.map f).cell frame p = f (r.cell frame p) :=
  peek_map (h.has_iff_mem.mpr hp)

theorem cell_zipWith {β : Type} [Zero β] {f : α → β → α} {r : Raster α} {s : Raster β}
    {frame : Rect} (hr : r.Fills frame) (hs : s.Fills frame) {p : Point} (hp : p ∈ frame) :
    (zipWith f r s).cell frame p = f (r.cell frame p) (s.cell frame p) :=
  peek_zipWith (hr.has_iff_mem.mpr hp) (hs.has_iff_mem.mpr hp) (hs.1.symm.trans hr.1)

theorem fills_zeros (frame : Rect) : (zeros frame.columns frame.rows : Raster α).Fills frame :=
  ⟨rfl, rfl⟩

omit [Zero α] in
theorem fills_tabulate (frame : Rect) (f : Nat → Nat → α) :
    (tabulate frame.columns frame.rows f).Fills frame :=
  ⟨rfl, rfl⟩

theorem cell_tabulate {frame : Rect} {f : Nat → Nat → α} {p : Point} (hp : p ∈ frame) :
    (tabulate frame.columns frame.rows f).cell frame p =
      f (p.x - frame.x).toNat (p.y - frame.y).toNat :=
  peek_tabulate_int ((fills_tabulate frame f).has_iff_mem.mpr hp)

omit [Zero α] in
theorem fills_update {r : Raster α} {frame : Rect} (h : r.Fills frame) (area : Rect)
    (f : Int → Int → α → α) : (r.update area f).Fills frame :=
  ⟨by rw [width_update]; exact h.1, by rw [height_update]; exact h.2⟩

/-- An update over a rectangle of the shared frame, given relative to the raster's own. -/
theorem cell_update {r : Raster α} {frame : Rect} (h : r.Fills frame) (area : Rect)
    (f : Int → Int → α → α) {p : Point} (hp : p ∈ frame) :
    (r.update ⟨area.x - frame.x, area.y - frame.y, area.width, area.height⟩ f).cell frame p =
      if p ∈ area then f (p.x - frame.x) (p.y - frame.y) (r.cell frame p)
      else r.cell frame p := by
  have hmem : (⟨p.x - frame.x, p.y - frame.y⟩ : Point) ∈
      (⟨area.x - frame.x, area.y - frame.y, area.width, area.height⟩ : Rect) ↔ p ∈ area := by
    simp only [Rect.mem_iff]
    omega
  simp only [cell, peek_update, h.has_iff_mem.mpr hp, hmem, true_and]

@[simp] theorem cell_zeros (w h : Nat) (frame : Rect) (p : Point) :
    (zeros w h : Raster α).cell frame p = 0 :=
  peek_zeros ..

end Cell

/-! ## Room in memory -/

/-- One block of memory can hold a raster of this size. -/
def Room (α : Type) [Cell κ α] (width height : Nat) : Prop :=
  Cell.bytes α * (width * height) ≤ blockMax

variable [Cell κ α]

instance (width height : Nat) : Decidable (Room α width height) := Nat.decLe _ _

theorem Room.mono {w h w' h' : Nat} (hroom : Room α w h) (hw : w' ≤ w) (hh : h' ≤ h) :
    Room α w' h' :=
  Nat.le_trans (Nat.mul_le_mul_left _ (Nat.mul_le_mul hw hh)) hroom

theorem Room.of_isEmpty {area : Rect} (h : area.IsEmpty) : Room α area.columns area.rows := by
  rcases Rect.isEmpty_iff_sides.mp h with h | h <;> simp [Room, h]

theorem ends_allocate (w h : Nat) :
    Ends (fun cause => cause = .fault .capacity ∧ ¬ Room α w h) (fun _ => Room α w h)
      (allocate α w h) :=
  ends_require (Cell.bytes α * (w * h) ≤ blockMax) _

theorem ends_blankFor (frame : Rect) :
    Ends (fun cause => cause = .fault .capacity ∧ ¬ Room α frame.columns frame.rows)
      (fun r => r = zeros frame.columns frame.rows ∧ Room α frame.columns frame.rows)
      (blankFor (α := α) frame) :=
  (ends_allocate _ _).bind fun _ hroom => ⟨rfl, hroom⟩

/-- Without pixels there is always room. -/
theorem blankFor_of_isEmpty {area : Rect} (h : area.IsEmpty) :
    blankFor area = .ok (zeros area.columns area.rows : Raster α) := by
  obtain ⟨_, hblank, rfl, -⟩ := (ends_blankFor (α := α) area).exists_ok fun cause hc _ =>
    hc.2 (.of_isEmpty h)
  exact hblank

/-- The cells of a rectangle. -/
theorem ends_region (r : Raster α) (area : Rect) :
    Ends IsRange (· = r.cut area) (r.region area) := by
  refine ((ends_blankFor area).weaken fun _ hc => .inr hc.1).bind ?_
  rintro _ ⟨rfl, -⟩
  cases hmeet : area.intersect r.bounds with
  | error cause => exact .inl ((Rect.ends_intersect _ _).of_error hmeet)
  | ok inside => exact ends_cut_inside r hmeet (.inl (.inl rfl))

/-- The rectangle that a blurred raster covers is the halved one, if it exists. -/
theorem ends_coarseFrame_reduced (frame : Rect) :
    Ends IsRange (fun coarse => frame.reduced = .ok coarse) (coarseFrame α frame) := by
  unfold coarseFrame
  cases hreduced : frame.reduced with
  | error cause =>
    have hcause := (Rect.ends_reduced frame).weaken fun _ => IsOverflow.isRange
    rw [hreduced] at hcause
    exact hcause
  | ok coarse =>
    have hover : ∀ v : Int, Ends IsRange (fun _ => True) (checked v) := fun v =>
      (ends_checked v).mono (fun _ => IsOverflow.isRange) fun _ _ => trivial
    have hroom : ∀ w h : Nat, Ends IsRange (fun _ => True) (allocate α w h) := fun w h =>
      (ends_allocate w h).mono (fun _ hc => .inr hc.1) fun _ _ => trivial
    refine Ends.bind_eq (a := coarse) rfl ?_
    by_cases hempty : frame.IsEmpty
    · simp only [hempty, not_true_eq_false, if_false]
      exact (hroom _ _).bind fun _ _ => (hroom _ _).bind fun _ _ => rfl
    · simp only [hempty, not_false_eq_true, if_true]
      refine (hover _).bind fun _ _ => (hover _).bind ?_
      intro _ _
      exact (hroom _ _).bind fun _ _ => (hroom _ _).bind fun _ _ => rfl

/-! ## Doubling -/

variable [Channel κ]

theorem between_congr {f g : Int → α} {c : Int}
    (h : ∀ i, 2 * i - 1 ≤ c → c ≤ 2 * i + 1 → f i = g i) : between f c = between g c := by
  have hhere := h (c / 2) (by omega) (by omega)
  by_cases heven : c % 2 = 0
  · simp only [between, heven, if_true, hhere]
  · have hnext := h (c / 2 + 1) (by omega) (by omega)
    simp only [between, heven, if_false, hhere, hnext]

/-- The value that doubling a function on coarse points gives a fine point. -/
def stretchAt (f : Point → α) (p : Point) : α :=
  between (fun y => between (fun x => f ⟨x, y⟩) p.x) p.y

/-- Doubling reads only the coarse points that spread to the fine one. -/
theorem stretchAt_congr {f g : Point → α} {p : Point} (h : ∀ q : Point, q.Spreads p → f q = g q) :
    stretchAt f p = stretchAt g p :=
  between_congr fun _ hy hy' => between_congr fun _ hx hx' => h _ ⟨hx, hx', hy, hy'⟩

theorem fills_stretch (coarse : Raster α) (frame target : Rect) :
    (coarse.stretch frame target).Fills target :=
  ⟨rfl, rfl⟩

/-- Nothing is doubled onto a rectangle without pixels. -/
theorem zeros_eq_stretch (coarse : Raster α) (frame : Rect) {target : Rect} (h : target.IsEmpty) :
    zeros target.columns target.rows = coarse.stretch frame target := by
  rw [Rect.isEmpty_iff_sides] at h
  rw [zeros, stretch]
  refine tabulate_congr fun i j hi hj => ?_
  omega

theorem expand_of_isEmpty (coarse : Raster α) (frame : Rect) {target : Rect} (h : target.IsEmpty) :
    coarse.expand frame target = .ok (zeros target.columns target.rows) := by
  rw [expand, if_pos (Rect.isEmpty_iff_sides.mp h), blankFor_of_isEmpty h]

/-- The coarse rows, computed sample by sample. -/
theorem ends_stretchRows {E : Failure → Prop} (coarse : Raster α) (frame target : Rect) :
    Ends E (· = coarse.stretchRows frame target)
      (compute target.columns (coarseRows target) fun i j =>
        return coarse.betweenColumns frame target i j) :=
  ends_compute fun _ _ _ _ => ends_pure.mpr rfl

/-- The coarse rows that spread to a row of the target are at hand. -/
theorem has_stretchRows (coarse : Raster α) (frame : Rect) {target : Rect} {i j : Nat}
    (hi : i < target.columns) (hj : j < target.rows) {c : Int} (hc : 2 * c - 1 ≤ target.y + j)
    (hc' : target.y + j ≤ 2 * c + 1) :
    (coarse.stretchRows frame target).Has i (c - firstCoarseRow target) := by
  have hrows : target.rows ≠ 0 := by omega
  simp only [stretchRows, has_iff, width_tabulate, height_tabulate, coarseRows, hrows, if_false,
    firstCoarseRow]
  simp only [Rect.rows] at hj
  omega

/-- The doubled raster at a point does not depend on the rectangle it is doubled onto. -/
theorem cell_stretch (coarse : Raster α) (frame : Rect) {target : Rect} {p : Point}
    (hp : p ∈ target) :
    (coarse.stretch frame target).cell target p = stretchAt (coarse.cell frame) p := by
  obtain ⟨hi, hj⟩ := Rect.toNat_lt_of_mem hp
  have hcolumn : target.x + ((p.x - target.x).toNat : Int) = p.x := by
    have := hp.1
    omega
  have hrow : target.y + ((p.y - target.y).toNat : Int) = p.y := by
    have := hp.2.2.1
    omega
  rw [stretch, cell_tabulate hp, hrow, stretchAt]
  apply between_congr
  intro c hc hc'
  have hhas := has_stretchRows coarse frame hi hj (by omega) (by omega : _ ≤ 2 * c + 1)
  have hfrom : firstCoarseRow target + ((c - firstCoarseRow target).toNat : Int) = c := by
    have := hhas.2.2.1
    omega
  rw [stretchRows] at hhas ⊢
  rw [peek_tabulate_int hhas]
  simp only [betweenColumns, Int.toNat_natCast, hcolumn, hfrom, cell]

/-- Memory can hold the rasters that doubling onto `target` makes. -/
structure StretchRoom (α : Type) [Cell κ α] (target : Rect) : Prop where
  /-- The coarse rows at the columns of the target. -/
  rows : Room α target.columns (coarseRows target)
  /-- The result. -/
  result : Room α target.columns target.rows

omit [Channel κ] in
theorem StretchRoom.of_isEmpty {target : Rect} (h : target.IsEmpty) : StretchRoom α target := by
  refine ⟨?_, .of_isEmpty h⟩
  rcases Rect.isEmpty_iff_sides.mp h with h | h <;> simp [Room, coarseRows, h]

omit [Channel κ] in
theorem StretchRoom.mono {a b : Rect} (h : StretchRoom α b) (ha : ¬ a.IsEmpty) (hab : a ⊆ b) :
    StretchRoom α a := by
  have hcolumns := Rect.columns_le_of_subset ha hab
  refine ⟨h.rows.mono hcolumns ?_, h.result.mono hcolumns (Rect.rows_le_of_subset ha hab)⟩
  obtain ⟨_, _, _, _⟩ := Rect.within_of_subset ha hab
  simp only [Rect.IsEmpty] at ha
  have ha0 : a.rows ≠ 0 := by
    simp only [Rect.rows]
    omega
  have hb0 : b.rows ≠ 0 := by
    simp only [Rect.rows]
    omega
  simp only [coarseRows, ha0, hb0, if_false, firstCoarseRow]
  omega

omit [Channel κ] in
theorem ends_expandable (frame : Rect) {target : Rect} (ht : target.rows ≠ 0) :
    Ends (fun cause => IsOverflow cause ∨ cause = .fault .capacity ∧ ¬ StretchRoom α target)
      (fun _ => StretchRoom α target) (expandable α frame target) := by
  have hover : ∀ cause, IsOverflow cause →
      IsOverflow cause ∨ cause = .fault .capacity ∧ ¬ StretchRoom α target := fun _ => .inl
  refine ((Rect.ends_maxY target).weaken hover).bind_eq ?_
  refine ((ends_checked_eq _).weaken hover).bind_eq ?_
  refine ((ends_checked_eq _).weaken hover).bind_eq ?_
  have hcount : ((target.y + target.height) / 2 + 1 - firstCoarseRow target).toNat =
      coarseRows target := by
    simp only [coarseRows, ht, if_false]
  rw [hcount]
  apply ((ends_allocate _ _).weaken fun _ h => .inr ⟨h.1, fun hr => h.2 hr.rows⟩).bind
  intro _ hrows
  iterate 5 refine ((ends_checked _).weaken hover).bind fun _ _ => ?_
  exact (ends_allocate _ _).mono (fun _ h => .inr ⟨h.1, fun hr => h.2 hr.result⟩)
    fun _ hresult => ⟨hrows, hresult⟩

/-- The rows that a sample of the target is taken from are at hand. -/
theorem ends_betweenRows {E : Failure → Prop} (coarse : Raster α) (frame : Rect) {target : Rect}
    {i j : Nat} (hi : i < target.columns) (hj : j < target.rows)
    (hover : E (.fault .overflow) ∨ (coarseRows target : Int) ≤ highest) :
    Ends E (· = between (fun c => (coarse.stretchRows frame target).peek i
        (c - firstCoarseRow target)) (target.y + j))
      (betweenRows (coarse.stretchRows frame target) (firstCoarseRow target) i (target.y + j)) := by
  have hhas := fun c => has_stretchRows (c := c) coarse frame hi hj
  generalize (target.y + j : Int) = y at hhas ⊢
  have hhere := hhas (y / 2) (by omega) (by omega)
  have hrow : ((y / 2 - firstCoarseRow target).toNat : Int) = y / 2 - firstCoarseRow target :=
    Int.toNat_of_nonneg hhere.2.2.1
  have hcount : y / 2 - firstCoarseRow target < coarseRows target := hhere.2.2.2
  refine bind_position hhere.2.2.1 (hover.imp_right fun hfits => by omega) ?_
  rw [← hrow] at hhere
  by_cases heven : y % 2 = 0
  · simp only [between, heven, if_true]
    rw [get_of_has hhere, hrow, ends_ok]
  · have hbelow := hhas (y / 2 + 1) (by omega) (by omega)
    have hnext : y / 2 + 1 - firstCoarseRow target =
        ((y / 2 - firstCoarseRow target).toNat + 1 : Nat) := by
      omega
    rw [hnext] at hbelow
    simp only [between, heven, if_false]
    rw [get_of_has hhere, get_of_has hbelow, hnext, hrow]
    rfl

/-- Checked doubling gives the doubled raster, unless a coordinate overflows or memory is short. -/
theorem ends_expand (coarse : Raster α) (frame target : Rect) :
    Ends (fun cause => IsOverflow cause ∨ cause = .fault .capacity ∧ ¬ StretchRoom α target)
      (fun up => up = coarse.stretch frame target ∧ StretchRoom α target)
      (coarse.expand frame target) := by
  by_cases hempty : target.IsEmpty
  · rw [expand_of_isEmpty coarse frame hempty]
    exact ⟨zeros_eq_stretch coarse frame hempty, .of_isEmpty hempty⟩
  · have hsides := mt Rect.isEmpty_iff_sides.mpr hempty
    rw [expand, if_neg hsides]
    refine (ends_expandable frame fun h => hsides (.inr h)).bind fun _ hroom => ?_
    refine (ends_stretchRows coarse frame target).bind_eq ?_
    exact (ends_compute fun i hi j hj => ends_betweenRows coarse frame hi hj (.inl (.inl rfl))).imp
      fun _ h => ⟨h, hroom⟩

end Raster

end Patchwork
