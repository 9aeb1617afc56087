import Patchwork.Raster.Basic
import Patchwork.Rect.Algebra

/-!
# Cutting out and pasting

`Raster.region` copies a rectangle out of a raster, reading zero outside it; `Raster.paste` writes a
raster over another and leaves what falls outside.  Both find the part that the two have in common
and copy it row by row, each row as a run of the row-major cells; a run that leaves its raster is a
fault.

The pure functions `Raster.cut` and `Raster.overwrite` give the results cell by cell, for all
rectangles.

## Main definitions

* `Raster.copyRun`, `Raster.copyRows` — one run of cells, and the rows of a rectangle.
* `Raster.region`, `Raster.paste` — cutting out and pasting.
* `Raster.cut`, `Raster.overwrite` — the same through `Raster.peek`.
-/

namespace Patchwork.Raster

open Coordinate

variable {κ α : Type}

/-- The cells of a rectangle, zero outside the raster. -/
def cut [Zero α] (r : Raster α) (area : Rect) : Raster α :=
  tabulate area.columns area.rows fun i j => r.peek (area.x + i) (area.y + j)

/-- `source` written over the raster, its first cell at `(x, y)`. -/
def overwrite [Zero α] (r source : Raster α) (x y : Int) (area : Rect) : Raster α :=
  r.update area fun column row _ => source.peek (column - x) (row - y)

/-- A run of `count` cells of `source`, from index `start` on, written over the run of the raster
that begins at index `into`. -/
def copyRun [Zero α] (r source : Raster α) (into start count : Nat) : Outcome (Raster α) := do
  Outcome.require (into + count ≤ r.data.size ∧ start + count ≤ source.data.size)
    (.fault .outOfBounds)
  return (List.range count).foldl (fun r k =>
    r.modifyIndex (into + k) fun _ => source.data.getD (start + k) 0) r

/-- The rows of `part` copied from `source`, when the first cell of the raster lies at `corner` and
that of `source` at `origin`. -/
def copyRows [Zero α] (r source : Raster α) (part : Rect) (corner origin : Point) :
    Outcome (Raster α) := do
  let _ ← part.maxY
  let column ← position (← checked (part.x - corner.x))
  let start ← position (← checked (part.x - origin.x))
  (List.range part.rows).foldlM (fun r (k : Nat) => do
    let row ← position (← checked (part.y + k - corner.y))
    let sourceRow ← position (← checked (part.y + k - origin.y))
    r.copyRun source (row * r.width + column) (sourceRow * source.width + start) part.columns) r

/-- The cells of a rectangle, zero outside the raster, when memory can hold them and the edges are
coordinates. -/
def region [Cell κ α] (r : Raster α) (area : Rect) : Outcome (Raster α) := do
  let empty ← blankFor area
  let inside ← area.intersect r.bounds
  if inside.IsEmpty then
    return empty
  empty.copyRows r inside ⟨area.x, area.y⟩ ⟨0, 0⟩

/-- `source` written over the raster with its first cell at `(x, y)`, cut to the raster. -/
def paste [Zero α] (r source : Raster α) (x y : Int) : Outcome (Raster α) := do
  let placed ← source.bounds.translate x y
  let inside ← placed.intersect r.bounds
  if inside.IsEmpty then
    return r
  r.copyRows source inside ⟨0, 0⟩ ⟨x, y⟩

end Patchwork.Raster
