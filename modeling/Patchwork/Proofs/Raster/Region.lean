import Patchwork.Proofs.Raster.Plane

/-!
# Cutting out and pasting, cell by cell

A rectangle whose corners are coordinates can always be cut out of a raster, however it lies to it,
and another raster can be pasted over it wherever its corners are coordinates.  What is cut out has
the cells of the raster and zeros around them; pasting changes the cells that are covered and no
other, so pasting back what was cut out changes nothing.

## Main definitions

* `Rect.Cornered` — the corners of a rectangle are coordinates.
* `Raster.Sided` — the sides of a raster are coordinates.
* `Raster.CopiesCells` — what cutting out of a raster and pasting over it do.

## Main statements

* `Raster.copies_cells` — they do so for every raster with such sides.
-/

namespace Patchwork

open Outcome Coordinate

variable {κ α : Type}

namespace Rect

/-- The corners of the rectangle, and its sizes, are coordinates. -/
structure Cornered (area : Rect) : Prop where
  /-- Left. -/
  left : Fits area.x
  /-- Top. -/
  top : Fits area.y
  /-- Width, which may be negative. -/
  width : Fits area.width
  /-- Height, which may be negative. -/
  height : Fits area.height
  /-- Right. -/
  right : Fits (area.x + area.width)
  /-- Bottom. -/
  bottom : Fits (area.y + area.height)

instance (area : Rect) : Decidable area.Cornered :=
  decidable_of_iff (Fits area.x ∧ Fits area.y ∧ Fits area.width ∧ Fits area.height ∧
      Fits (area.x + area.width) ∧ Fits (area.y + area.height))
    ⟨fun ⟨hl, ht, hw, hh, hr, hb⟩ => ⟨hl, ht, hw, hh, hr, hb⟩,
      fun ⟨hl, ht, hw, hh, hr, hb⟩ => ⟨hl, ht, hw, hh, hr, hb⟩⟩

/-- Comparing it with a raster never overflows, however far away it is. -/
theorem Cornered.intersect_bounds {area : Rect} (h : area.Cornered) (r : Raster α) :
    area.intersect r.bounds = .ok (meet area r.bounds) := by
  obtain ⟨_, _, _, _, _, _⟩ := h
  rw [intersect_eq, stepwise_eq_ok_iff, Raster.bounds_eq]
  refine ⟨?_, rfl⟩
  simp only [intersectSteps, List.forall_mem_cons, List.not_mem_nil, false_imp_iff, implies_true,
    and_true, Fits, lowest, highest, ofSide] at *
  omega

end Rect

namespace Raster

/-- The sides of the raster are coordinates. -/
structure Sided (r : Raster α) : Prop where
  /-- Width. -/
  width : (r.width : Int) ≤ highest
  /-- Height. -/
  height : (r.height : Int) ≤ highest

theorem Sided.bounds {r : Raster α} (h : r.Sided) : r.bounds = ⟨0, 0, r.width, r.height⟩ := by
  rw [bounds_eq, ofSide, ofSide, Int.min_eq_left h.width, Int.min_eq_left h.height]

theorem Sided.mem_bounds {r : Raster α} (h : r.Sided) {x y : Int} :
    (⟨x, y⟩ : Point) ∈ r.bounds ↔ r.Has x y := by
  rw [h.bounds, Rect.mem_iff, has_iff]
  simp only
  omega

/-- Where the corners of the other raster are coordinates, pasting it writes over what it covers. -/
theorem paste_of_sided [Zero α] (r : Raster α) {source : Raster α} (hsource : source.Sided)
    {x y : Int} (hx : Fits x) (hy : Fits y) (hright : Fits (x + source.width))
    (hbottom : Fits (y + source.height)) :
    r.paste source x y = .ok (r.overwrite source x y
      (Rect.meet ⟨x, y, source.width, source.height⟩ r.bounds)) := by
  have hplaced : (⟨x, y, source.width, source.height⟩ : Rect).Cornered := by
    refine ⟨hx, hy, ⟨?_, hsource.width⟩, ⟨?_, hsource.height⟩, hright, hbottom⟩
    · simp only [lowest]
      omega
    · simp only [lowest]
      omega
  have htranslate : source.bounds.translate x y =
      .ok ⟨x, y, source.width, source.height⟩ := by
    rw [hsource.bounds, Rect.translate, Int.zero_add, Int.zero_add, checked_of_fits hx,
      checked_of_fits hy]
    rfl
  rw [paste_eq, htranslate]
  refine bind_eq_ok_iff.mpr ⟨_, rfl, ?_⟩
  exact bind_eq_ok_iff.mpr ⟨_, hplaced.intersect_bounds r, rfl⟩

/-- A cell of the raster is covered when the other one has a cell there. -/
theorem peek_overwrite_meet [Zero α] {r : Raster α} (hr : r.Sided) (source : Raster α)
    (x y : Int) {column row : Int} (h : r.Has column row) :
    (r.overwrite source x y
        (Rect.meet ⟨x, y, source.width, source.height⟩ r.bounds)).peek column row =
      if source.Has (column - x) (row - y) then source.peek (column - x) (row - y)
      else r.peek column row := by
  have hcovered : (⟨column, row⟩ : Point) ∈
      Rect.meet ⟨x, y, source.width, source.height⟩ r.bounds ↔
        source.Has (column - x) (row - y) := by
    rw [Rect.mem_meet, hr.mem_bounds, and_iff_left h, Rect.mem_iff, has_iff]
    simp only
    omega
  simp only [peek_overwrite, h, hcovered, true_and]

variable [Cell κ α]

/-- Cutting out is decided by memory alone. -/
theorem region_of_cornered (r : Raster α) {area : Rect} (h : area.Cornered) :
    r.region area = (do
      allocate α area.columns area.rows
      return r.cut area) := by
  rw [region_eq r h.width.2 h.height.2, h.intersect_bounds r]
  rfl

/-- What is cut out of a raster and pasted back is what is there already. -/
theorem paste_cut {r : Raster α} (hr : r.Sided) {area : Rect} (h : area.Cornered) :
    r.paste (r.cut area) area.x area.y = .ok r := by
  obtain ⟨hleft, htop, hwidth, hheight, hright, hbottom⟩ := h
  have hcolumns : ((r.cut area).width : Int) = max area.width 0 := by
    simp only [cut, width_tabulate, Rect.columns]
    omega
  have hrows : ((r.cut area).height : Int) = max area.height 0 := by
    simp only [cut, height_tabulate, Rect.rows]
    omega
  have hcut : (r.cut area).Sided := by
    simp only [Fits, lowest, highest] at hwidth hheight
    constructor
    · simp only [hcolumns, highest]
      omega
    · simp only [hrows, highest]
      omega
  rw [paste_of_sided r hcut hleft htop]
  · refine congrArg Except.ok (ext_peek (width_overwrite ..) (height_overwrite ..) ?_)
    intro x y hhas
    rw [has_overwrite] at hhas
    have hx : area.x + (x - area.x) = x := by omega
    have hy : area.y + (y - area.y) = y := by omega
    rw [peek_overwrite_meet hr _ _ _ hhas]
    split
    · next hcovered => rw [peek_cut hcovered, hx, hy]
    · rfl
  · rw [hcolumns]
    simp only [Fits, lowest, highest] at *
    omega
  · rw [hrows]
    simp only [Fits, lowest, highest] at *
    omega

/-- What cutting out of a raster and pasting over it do. -/
structure CopiesCells (r : Raster α) : Prop where
  /-- What is cut out has the size of the rectangle, the cells of the raster, and zeros where there
  are none. -/
  region : ∀ area : Rect, area.Cornered → Room α area.columns area.rows →
    ∃ part, r.region area = .ok part ∧ part.Fills area ∧
      ∀ x y, part.Has x y → part.peek x y = r.peek (area.x + x) (area.y + y)
  /-- Only memory can be in the way. -/
  short : ∀ area : Rect, area.Cornered → ¬ Room α area.columns area.rows →
    r.region area = .error (.fault .capacity)
  /-- What is pasted over the raster changes the cells that it covers, and no other. -/
  paste : ∀ (source : Raster α) (x y : Int), source.Sided → Fits x → Fits y →
    Fits (x + source.width) → Fits (y + source.height) →
    ∃ pasted, r.paste source x y = .ok pasted ∧ pasted.width = r.width ∧
      pasted.height = r.height ∧
      ∀ column row, r.Has column row → pasted.peek column row =
        if source.Has (column - x) (row - y) then source.peek (column - x) (row - y)
        else r.peek column row
  /-- What was cut out and is pasted back changes nothing. -/
  back : ∀ (area : Rect) (part : Raster α), area.Cornered → r.region area = .ok part →
    r.paste part area.x area.y = .ok r

/-- **Cutting out and pasting copy cells**, wherever the rectangle and the raster lie to each
other. -/
theorem copies_cells {r : Raster α} (hr : r.Sided) : r.CopiesCells where
  region area h hroom := by
    refine ⟨r.cut area, ?_, r.fills_cut area, fun x y => peek_cut⟩
    rw [region_of_cornered r h]
    exact bind_eq_ok_iff.mpr ⟨(), require_eq_ok_iff.mpr hroom, rfl⟩
  short area h hroom := by
    have hallocate : allocate α area.columns area.rows = .error (.fault .capacity) := if_neg hroom
    rw [region_of_cornered r h, hallocate]
    rfl
  paste source x y hsource hx hy hright hbottom :=
    ⟨_, r.paste_of_sided hsource hx hy hright hbottom, width_overwrite .., height_overwrite ..,
      fun _ _ => peek_overwrite_meet hr source x y⟩
  back area part h hpart := by
    rw [region_of_cornered r h, bind_eq_ok_iff] at hpart
    obtain ⟨_, -, hcut⟩ := hpart
    obtain rfl := Except.ok.inj hcut
    exact paste_cut hr h

/-- Three by two samples. -/
def crossing : Raster Float32 := tabulate 3 2 fun x y => if x = y then 1 else 0.5

/-- Their lower left corner and what lies beyond it, and the samples moved over themselves. -/
theorem copies_cells_corner :
    crossing.Sided ∧ ∃ part pasted, crossing.region ⟨-1, 1, 3, 4⟩ = .ok part ∧
      part.peek 0 0 = 0 ∧ part.peek 1 0 = 0.5 ∧ crossing.paste part (-1) 1 = .ok crossing ∧
      crossing.paste crossing 2 (-1) = .ok pasted ∧ pasted.peek 2 0 = 0.5 ∧
      pasted.peek 1 1 = 1 := by
  have hsided : crossing.Sided := by constructor <;> decide
  have hcopies := copies_cells hsided
  have hcorner : (⟨-1, 1, 3, 4⟩ : Rect).Cornered := by decide
  obtain ⟨part, hpart, hfills, hcells⟩ := hcopies.region _ hcorner (Nat.le_of_ble_eq_true rfl)
  obtain ⟨pasted, hpasted, -, -, hpastedCells⟩ := hcopies.paste crossing 2 (-1) hsided
    (by decide) (by decide) (by decide) (by decide)
  have hhas : part.Has 0 0 ∧ part.Has 1 0 := by
    rw [has_iff, has_iff, ← hfills.1, ← hfills.2]
    decide
  refine ⟨hsided, part, pasted, hpart, ?_, ?_, hcopies.back _ part hcorner hpart, hpasted, ?_, ?_⟩
  · rw [hcells 0 0 hhas.1]
    decide +kernel
  · rw [hcells 1 0 hhas.2]
    decide +kernel
  · rw [hpastedCells 2 0 (by decide)]
    decide +kernel
  · rw [hpastedCells 1 1 (by decide)]
    decide +kernel

end Raster

end Patchwork
