import Patchwork.Raster.Basic

/-!
# Halving and doubling a raster

A raster that covers a rectangle of the shared frame is blurred with the kernel `1/4, 1/2, 1/4` in
both directions and sampled at even coordinates; the result covers `Rect.reduced`.  In the other
direction an even coordinate copies its coarse sample and an odd one takes the mean of two.

Each direction has a pure function (`shrink`, `stretch`) that is defined for all rectangles, and a
checked one (`reduce`, `expand`) that makes sure that every coordinate it names exists, that memory
can hold the rasters involved, and that no coarse row is used but those made before.

## Main definitions

* `Raster.blurred` — three weighted samples around a position.
* `Raster.between` — the sample at half a coordinate.
* `Raster.reduce`, `Raster.expand` — one resolution down and up.
-/

namespace Patchwork.Raster

open Coordinate

variable {κ α : Type} [Channel κ] [Cell κ α]

/-- The samples around `c` weighted by `1/4, 1/2, 1/4`, added from left to right. -/
def blurred (sample : Int → α) (c : Int) : α :=
  0 + scale (sample (c - 1)) (0.25 : κ) + scale (sample c) (0.5 : κ)
    + scale (sample (c + 1)) (0.25 : κ)

/-- The coarse sample under an even coordinate, the mean of two under an odd one. -/
def between (sample : Int → α) (c : Int) : α :=
  if c % 2 = 0 then sample (c / 2) else scale (sample (c / 2) + sample (c / 2 + 1)) (0.5 : κ)

/-- The blurred rows of `source`, which covers `frame`, at the columns of `coarse`. -/
def shrinkRows (source : Raster α) (frame coarse : Rect) : Raster α :=
  tabulate coarse.columns frame.rows fun i j =>
    blurred (fun c => source.peek c j) (2 * (coarse.x + i) - frame.x)

/-- The blurred samples of `source`, which covers `frame`, at the pixels of `coarse`. -/
def shrink (source : Raster α) (frame coarse : Rect) : Raster α :=
  let rows := source.shrinkRows frame coarse
  tabulate coarse.columns coarse.rows fun i j =>
    blurred (fun c => rows.peek i c) (2 * (coarse.y + j) - frame.y)

/-- The rectangle that the blurred samples of `frame` cover, when every position the blur reads is a
coordinate and memory can hold the rasters. -/
def coarseFrame (α : Type) [Cell κ α] (frame : Rect) : Outcome Rect := do
  let coarse ← frame.reduced
  if ¬ frame.IsEmpty then
    let _ ← checked (2 * (coarse.x + coarse.width - 1) - frame.x + 2)
    let _ ← checked (2 * (coarse.y + coarse.height - 1) - frame.y + 2)
  allocate α coarse.columns frame.rows
  allocate α coarse.columns coarse.rows
  return coarse

/-- One resolution down: the blurred samples of a raster that covers `frame`, and the rectangle they
cover. -/
def reduce (source : Raster α) (frame : Rect) : Outcome (Raster α × Rect) := do
  let coarse ← coarseFrame α frame
  return (source.shrink frame coarse, coarse)

/-- First coarse row that the rows of `target` need. -/
def firstCoarseRow (target : Rect) : Int := target.y / 2

/-- Number of coarse rows that the rows of `target` need; none when it has no rows. -/
def coarseRows (target : Rect) : Nat :=
  if target.rows = 0 then 0
  else ((target.y + target.height) / 2 + 1 - firstCoarseRow target).toNat

/-- The sample at column `i` of `target` in the coarse row `j` of those that it needs. -/
def betweenColumns (coarse : Raster α) (frame target : Rect) (i j : Nat) : α :=
  between (fun c => coarse.peek (c - frame.x) (firstCoarseRow target + j - frame.y))
    (target.x + i)

/-- The coarse rows that `target` needs, doubled to its columns. -/
def stretchRows (coarse : Raster α) (frame target : Rect) : Raster α :=
  tabulate target.columns (coarseRows target) (coarse.betweenColumns frame target)

/-- The samples of `coarse`, which covers `frame`, at the pixels of `target`. -/
def stretch (coarse : Raster α) (frame target : Rect) : Raster α :=
  let rows := coarse.stretchRows frame target
  tabulate target.columns target.rows fun i j =>
    between (fun c => rows.peek i (c - firstCoarseRow target)) (target.y + j)

/-- Every position that doubling onto a rectangle with pixels reads is a coordinate, and memory can
hold the rasters. -/
def expandable (α : Type) [Cell κ α] (frame target : Rect) : Outcome Unit := do
  let bottom ← target.maxY
  let past ← checked (bottom / 2 + 1)
  let count ← checked (past - firstCoarseRow target)
  allocate α target.columns count.toNat
  let right ← checked (target.x + target.width - 1)
  let _ ← checked (target.x / 2 - frame.x)
  let _ ← checked ((right + 1) / 2 - frame.x)
  let _ ← checked (firstCoarseRow target - frame.y)
  let _ ← checked (past - 1 - frame.y)
  allocate α target.columns target.rows

/-- The sample at the fine row `c` in a column of coarse rows, the first of which is `first`.  A row
that is not among them is a fault. -/
def betweenRows (rows : Raster α) (first : Int) (column : Nat) (c : Int) : Outcome α := do
  let row ← position (← checked (c / 2 - first))
  if c % 2 = 0 then
    rows.get column row
  else
    return scale ((← rows.get column row) + (← rows.get column (row + 1))) (0.5 : κ)

/-- One resolution up: the samples of `coarse`, which covers `frame`, over `target`.  The coarse
rows that it needs are doubled to its columns first. -/
def expand (coarse : Raster α) (frame target : Rect) : Outcome (Raster α) := do
  if target.columns = 0 ∨ target.rows = 0 then
    blankFor target
  else
    expandable α frame target
    let rows ← compute target.columns (coarseRows target) fun i j =>
      return coarse.betweenColumns frame target i j
    compute target.columns target.rows fun i j =>
      betweenRows rows (firstCoarseRow target) i (target.y + j)

end Patchwork.Raster
