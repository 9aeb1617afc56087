import Patchwork.Composite.Basic

/-!
# Rendering in tiles

A rectangle is split into square tiles in row-major order, smaller at the right and bottom edges.
The threads of a pool render the tiles of a mosaic side by side and give one raster.  This can be
called off between tiles by raising a token.

## Main definitions

* `Tiling.spans` — a range cut into steps.
* `Tiling.grid` — the tiles of a rectangle.
* `Composite.renderTiled` — a rectangle of a mosaic, tile by tile.
-/

namespace Patchwork

open Coordinate

namespace Tiling

/-- The range from `start` to `stop` cut into pieces of `step`, the last one shorter.  Each piece is
given by its ends; a sum past the greatest coordinate is cut to it. -/
def spans (step stop : Int) : Nat → Int → List (Int × Int)
  | 0, _ => []
  | count + 1, start =>
    if start < stop then
      let past := min (start + step) highest
      (start, min past stop) :: spans step stop count past
    else []

/-- A range cut into pieces. -/
def cuts (start stop step : Int) : List (Int × Int) :=
  spans step stop (stop - start).toNat start

/-- The tiles of a rectangle, row after row. -/
def grid (region : Rect) (tileSize : Nat) : Outcome (List Rect) := do
  if tileSize = 0 then
    Outcome.invalid .zeroTile
  let step := ofSide tileSize
  let bottom ← region.maxY
  if bottom ≤ region.y then
    return []
  let right ← region.maxX
  if right ≤ region.x then
    return []
  let columns := cuts region.x right step
  let tiles ← (cuts region.y bottom step).mapM fun (y0, y1) =>
    columns.mapM fun (x0, x1) => Rect.ofCorners x0 y0 x1 y1
  return tiles.flatten

end Tiling

namespace Composite

variable {σ κ : Type} [Channel κ] {format : Format}

/-- Stop when the token is raised. -/
def unlessRaised (token : Nat) : Making σ format κ Unit := do
  if ← Cache.Recipe.observe fun w : Workspace σ κ => w.isRaised token then
    (Outcome.refuse .cancelled : Outcome Unit)

/-- The pixels of a rectangle made tile by tile, unless the token is raised in between.  Each tile
is a task of a pool of its own.  Its number of threads is checked, and what they do is left to
`schedule`. -/
def renderTiled (c : Composite) (schedule : Cache.Schedule) (region : Rect) (options : TileOptions)
    (token : Nat) : Making σ format κ (Raster (Pixel format κ)) := do
  unlessRaised token
  let tiles ← (Tiling.grid region options.tileSize : Outcome (List Rect))
  if options.threads = some 0 then
    (Outcome.invalid .zeroThreads : Outcome Unit)
  let rendered ← Cache.Recipe.pool schedule (tiles.map fun tile => do
    unlessRaised token
    return (tile, ← c.render tile))
  let empty ← (Raster.blankFor region : Outcome (Raster (Pixel format κ)))
  (rendered.foldlM (fun patch (tile, raster) => do
    patch.paste raster (← checked (tile.x - region.x)) (← checked (tile.y - region.y))) empty :
    Outcome (Raster (Pixel format κ)))

end Composite

end Patchwork
