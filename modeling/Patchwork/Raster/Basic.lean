import Patchwork.Pixel
import Patchwork.Rect.Algebra

/-!
# Rasters

A `Raster` is a `width × height` grid of cells in row-major order.  Its view is `Raster.peek`, the
cell at a signed position, zero outside the grid: two rasters of one size are equal as soon as they
agree under `peek`.

Positions of the checked operations (`get`, `set`, `modifyAt`, `row`) are counted along the rows, so
a column past the right edge continues in the next row; only a position past the last cell is a
fault.

## Main definitions

* `Raster` — a grid whose cell count is its width times its height.
* `Raster.tabulate` — the grid of the values of a function.
* `Raster.peek` — the view.
* `Raster.allocate` — the grid fits one block of memory.
* `Raster.map`, `Raster.zipWith`, `Raster.update` — cellwise change.
* `Raster.compute` — the grid of the answers of an operation.
-/

namespace Patchwork

/-- A grid of cells, row after row. -/
structure Raster (α : Type) where
  /-- Cells in a row. -/
  width : Nat
  /-- Number of rows. -/
  height : Nat
  /-- The cells. -/
  data : Array α
  /-- Each row is full. -/
  size_eq : data.size = width * height

namespace Raster

variable {κ α β : Type}

/-- The grid whose cell in column `x` and row `y` is `f x y`. -/
def tabulate (width height : Nat) (f : Nat → Nat → α) : Raster α where
  width := width
  height := height
  data := Array.ofFn fun k : Fin (width * height) => f (k % width) (k / width)
  size_eq := Array.size_ofFn

@[simp] theorem width_tabulate (w h : Nat) (f : Nat → Nat → α) : (tabulate w h f).width = w := rfl

@[simp] theorem height_tabulate (w h : Nat) (f : Nat → Nat → α) : (tabulate w h f).height = h := rfl

/-- The grid of zeros. -/
def zeros [Zero α] (width height : Nat) : Raster α := tabulate width height fun _ _ => 0

/-- The position lies inside the grid. -/
def Has (r : Raster α) (x y : Int) : Prop :=
  0 ≤ x ∧ x < r.width ∧ 0 ≤ y ∧ y < r.height

instance (r : Raster α) (x y : Int) : Decidable (r.Has x y) :=
  inferInstanceAs (Decidable (_ ∧ _))

/-- The cell at a position; zero outside the grid. -/
def peek [Zero α] (r : Raster α) (x y : Int) : α :=
  if r.Has x y then r.data.getD (y.toNat * r.width + x.toNat) 0 else 0

theorem peek_eq_zero [Zero α] {r : Raster α} {x y : Int} (h : ¬ r.Has x y) : r.peek x y = 0 :=
  if_neg h

theorem peek_eq_getD [Zero α] {r : Raster α} {x y : Int} (h : r.Has x y) :
    r.peek x y = r.data.getD (y.toNat * r.width + x.toNat) 0 :=
  if_pos h

/-- The index of a cell inside the grid is an index of the data. -/
theorem index_lt {x y w h : Nat} (hx : x < w) (hy : y < h) : y * w + x < w * h := by
  calc y * w + x < y * w + w := by omega
    _ = (y + 1) * w := (Nat.succ_mul y w).symm
    _ ≤ h * w := Nat.mul_le_mul_right w hy
    _ = w * h := Nat.mul_comm h w

theorem peek_tabulate [Zero α] {w h : Nat} {f : Nat → Nat → α} {x y : Nat}
    (hx : x < w) (hy : y < h) : (tabulate w h f).peek x y = f x y := by
  have hk : y * w + x < w * h := index_lt hx hy
  rw [peek_eq_getD ⟨by omega, by simp; omega, by omega, by simp; omega⟩]
  have hrow : (y * w + x) / w = y := by
    rw [Nat.mul_comm, Nat.mul_add_div (by omega), Nat.div_eq_of_lt hx, Nat.add_zero]
  have hcolumn : (y * w + x) % w = x := by
    rw [Nat.mul_comm, Nat.mul_add_mod, Nat.mod_eq_of_lt hx]
  simp [Array.getD, tabulate, hk, hrow, hcolumn]

/-- One block of memory can hold a grid of this size. -/
def allocate (α : Type) [Cell κ α] (width height : Nat) : Outcome Unit :=
  Outcome.require (Cell.bytes α * (width * height) ≤ blockMax) (.fault .capacity)

/-- A grid of zeros, when memory can hold it. -/
def blank [Cell κ α] (width height : Nat) : Outcome (Raster α) := do
  allocate α width height
  return zeros width height

/-- A grid of zeros with the size of a rectangle. -/
def blankFor [Cell κ α] (area : Rect) : Outcome (Raster α) :=
  blank area.columns area.rows

/-- Cells read row by row. -/
def ofCells (width height : Nat) (cells : Array α) : Outcome (Raster α) :=
  if wordMax < width * height then Outcome.invalid .rasterOverflow
  else if h : cells.size = width * height then .ok ⟨width, height, cells, h⟩
  else Outcome.invalid (.pixelCount width height cells.size)

/-- The rectangle of the grid, its first cell at the origin. -/
def bounds (r : Raster α) : Rect := Rect.ofSize r.width r.height

/-- The grid fills a rectangle of this size. -/
def Fills (r : Raster α) (area : Rect) : Prop := area.columns = r.width ∧ area.rows = r.height

instance (r : Raster α) (area : Rect) : Decidable (r.Fills area) :=
  inferInstanceAs (Decidable (_ ∧ _))

/-- Bytes of all cells. -/
def sizeBytes [Cell κ α] (r : Raster α) : Nat := saturated (r.data.size * Cell.bytes α)

/-- The cell at a position counted along the rows. -/
def get (r : Raster α) (x y : Nat) : Outcome α :=
  match r.data[y * r.width + x]? with
  | some cell => .ok cell
  | none => Outcome.undefinedAt .outOfBounds

/-- Change the cell with a given index; an index past the end changes nothing. -/
def modifyIndex (r : Raster α) (k : Nat) (f : α → α) : Raster α :=
  { r with data := r.data.modify k f, size_eq := by rw [Array.size_modify, r.size_eq] }

@[simp] theorem width_modifyIndex (r : Raster α) (k : Nat) (f : α → α) :
    (r.modifyIndex k f).width = r.width := rfl

@[simp] theorem height_modifyIndex (r : Raster α) (k : Nat) (f : α → α) :
    (r.modifyIndex k f).height = r.height := rfl

/-- Change the cell at a position counted along the rows. -/
def modifyAt (r : Raster α) (x y : Nat) (f : α → α) : Outcome (Raster α) := do
  Outcome.require (y * r.width + x < r.data.size) (.fault .outOfBounds)
  return r.modifyIndex (y * r.width + x) f

/-- Put a cell at a position counted along the rows. -/
def set (r : Raster α) (x y : Nat) (cell : α) : Outcome (Raster α) :=
  r.modifyAt x y fun _ => cell

/-- The grid whose cells are computed one after the other, row after row. -/
def compute [Zero α] (width height : Nat) (f : Nat → Nat → Outcome α) : Outcome (Raster α) :=
  (List.range (width * height)).foldlM (fun r (k : Nat) => do
    r.set (k % width) (k / width) (← f (k % width) (k / width))) (zeros width height)

/-- The cells of one row.  Every row of a grid without columns is empty, whatever its number. -/
def row (r : Raster α) (y : Nat) : Outcome (Array α) := do
  Outcome.require (y + 1 ≤ wordMax ∧ (y + 1) * r.width ≤ r.data.size) (.fault .outOfBounds)
  return r.data.extract (y * r.width) ((y + 1) * r.width)

/-- Change the cell at a position; nothing changes outside the grid. -/
def modify (r : Raster α) (x y : Int) (f : α → α) : Raster α :=
  if r.Has x y then r.modifyIndex (y.toNat * r.width + x.toNat) f else r

/-- Change every cell inside a rectangle by a function of its position, row after row. -/
def update (r : Raster α) (area : Rect) (f : Int → Int → α → α) : Raster α :=
  (List.range area.area).foldl (fun r (k : Nat) =>
    let x := area.x + (k % area.columns : Nat)
    let y := area.y + (k / area.columns : Nat)
    r.modify x y (f x y)) r

/-- Apply a function to every cell. -/
def map (f : α → β) (r : Raster α) : Raster β where
  width := r.width
  height := r.height
  data := r.data.map f
  size_eq := by rw [Array.size_map, r.size_eq]

@[simp] theorem width_map (f : α → β) (r : Raster α) : (r.map f).width = r.width := rfl

@[simp] theorem height_map (f : α → β) (r : Raster α) : (r.map f).height = r.height := rfl

/-- Combine the cells of equal index; cells of `r` without a partner stay. -/
def zipWith (f : α → β → α) (r : Raster α) (s : Raster β) : Raster α where
  width := r.width
  height := r.height
  data := Array.ofFn fun k : Fin r.data.size =>
    match s.data[k.val]? with
    | some b => f r.data[k] b
    | none => r.data[k]
  size_eq := by rw [Array.size_ofFn, r.size_eq]

@[simp] theorem width_zipWith (f : α → β → α) (r : Raster α) (s : Raster β) :
    (zipWith f r s).width = r.width := rfl

@[simp] theorem height_zipWith (f : α → β → α) (r : Raster α) (s : Raster β) :
    (zipWith f r s).height = r.height := rfl

/-- The coverage of every pixel. -/
def alphaPlane [Channel κ] {format : Format} (r : Raster (Pixel format κ)) : Raster κ :=
  r.map Pixel.alpha

end Raster

end Patchwork
