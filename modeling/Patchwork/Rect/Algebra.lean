import Patchwork.Outcome

/-!
# Operations on rectangles

Set operations, moves, and the two maps between a rectangle and its counterpart at half
resolution.  Each step of coordinate arithmetic is checked, so an operation either gives the exact
rectangle or is undefined.

A blur of radius one sampled at even coordinates touches the coarse pixel `X` exactly when some fine
pixel of `[2X - 1, 2X + 1]` is present.  `Rect.reduced` is that set of coarse pixels, and
`Rect.expanded` is the set of fine pixels that can touch a given set of coarse ones.

## Main definitions

* `Rect.maxX`, `Rect.maxY` — the first column and row past the rectangle.
* `Rect.contains`, `Rect.containsRect` — membership and inclusion.
* `Rect.intersect`, `Rect.grow` — the common part, and the smallest rectangle around both.
* `Rect.reduced`, `Rect.expanded` — one resolution down, and up again with a margin.
-/

namespace Patchwork.Rect

open Coordinate

/-- The first column to the right. -/
def maxX (r : Rect) : Outcome Int := checked (r.x + r.width)

/-- The first row below. -/
def maxY (r : Rect) : Outcome Int := checked (r.y + r.height)

/-- The rectangle between a least corner and the first corner past it. -/
def ofCorners (minX minY maxX maxY : Int) : Outcome Rect := do
  return clamped minX minY (← checked (maxX - minX)) (← checked (maxY - minY))

/-- The rectangle of a raster whose first pixel is at the origin. -/
def ofSize (width height : Nat) : Rect :=
  clamped 0 0 (ofSide width) (ofSide height)

/-- A point lies inside.  The far edges are computed only for a point past the near ones. -/
def contains (r : Rect) (x y : Int) : Outcome Bool := do
  if x < r.x then
    return false
  if (← r.maxX) ≤ x then
    return false
  if y < r.y then
    return false
  return decide (y < (← r.maxY))

/-- Every pixel of `other` lies inside; true of every `other` without pixels. -/
def containsRect (r other : Rect) : Outcome Bool := do
  if other.IsEmpty then
    return true
  if other.x < r.x then
    return false
  if other.y < r.y then
    return false
  if (← r.maxX) < (← other.maxX) then
    return false
  return decide ((← other.maxY) ≤ (← r.maxY))

/-- The common part, possibly without pixels. -/
def intersect (a b : Rect) : Outcome Rect := do
  ofCorners (max a.x b.x) (max a.y b.y)
    (min (← a.maxX) (← b.maxX)) (min (← a.maxY) (← b.maxY))

/-- Some pixel lies in both. -/
def intersects (a b : Rect) : Outcome Bool := do
  return decide (¬ (← a.intersect b).IsEmpty)

/-- The smallest rectangle around both; one without pixels adds nothing. -/
def grow (a b : Rect) : Outcome Rect := do
  if b.IsEmpty then
    return a
  if a.IsEmpty then
    return b
  ofCorners (min a.x b.x) (min a.y b.y)
    (max (← a.maxX) (← b.maxX)) (max (← a.maxY) (← b.maxY))

/-- The rectangle moved by `(dx, dy)`. -/
def translate (r : Rect) (dx dy : Int) : Outcome Rect := do
  return ⟨← checked (r.x + dx), ← checked (r.y + dy), r.width, r.height⟩

/-- The rectangle moved so that `origin` becomes `(0, 0)`. -/
def relativeTo (r : Rect) (originX originY : Int) : Outcome Rect := do
  r.translate (← checked (-originX)) (← checked (-originY))

/-- The coarse pixels that a blur of this rectangle touches. -/
def reduced (r : Rect) : Outcome Rect := do
  if r.IsEmpty then
    return clamped (r.x / 2) (r.y / 2) 0 0
  ofCorners (r.x / 2) (r.y / 2)
    (← checked ((← r.maxX) / 2 + 1)) (← checked ((← r.maxY) / 2 + 1))

/-- The fine pixels that can touch a coarse pixel of this rectangle. -/
def expanded (r : Rect) : Outcome Rect := do
  let minX ← checked ((← checked (2 * r.x)) - 1)
  let minY ← checked ((← checked (2 * r.y)) - 1)
  let maxX ← checked (2 * (← r.maxX))
  let maxY ← checked (2 * (← r.maxY))
  ofCorners minX minY maxX maxY

end Patchwork.Rect
