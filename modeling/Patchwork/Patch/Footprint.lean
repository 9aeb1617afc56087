import Patchwork.Rect.Algebra

/-!
# What a patch depends on

Reconstructing a patch needs, at every coarser level, the rectangle `Rect.reduced` of the level
above.  A source can add to the patch exactly when it can add to one of these, so each level is
mapped back to the finest one with `Rect.expanded` and sources are selected against the union.

## Main definitions

* `Footprint.levels` — the rectangle of a patch at every level, finest first.
* `Footprint.padded` — the finest rectangle that reaches every source of influence.
-/

namespace Patchwork.Footprint

open Coordinate

/-- One coordinate of the far corner of the next level, computed from the near one and the size. -/
def farEdge (start size : Int) : Outcome Int := do
  let spare ← checked (size + start % 2)
  checked ((← checked (spare.tdiv 2 + start / 2)) + 1)

/-- The next level, with its far corner computed a second time from the rectangle's size. -/
def next (r : Rect) : Outcome Rect := do
  let coarse ← r.reduced
  if ¬ r.IsEmpty then
    let right ← coarse.maxX
    Outcome.require (right = (← farEdge r.x r.width)) (.fault .disagreement)
    let bottom ← coarse.maxY
    Outcome.require (bottom = (← farEdge r.y r.height)) (.fault .disagreement)
  return coarse

/-- The rectangles of a patch, from its own on.  A level that equals the one below it is repeated by
all further ones. -/
def chain (r : Rect) : Nat → Outcome (List Rect)
  | 0 => return []
  | count + 1 => do
    let coarse ← next r
    if coarse = r then
      return List.replicate (count + 1) r
    return r :: (← chain coarse count)

/-- The rectangles of a patch at `count` levels, finest first. -/
def levels (r : Rect) (count : Nat) : Outcome (List Rect) := do
  Outcome.require (16 * count ≤ blockMax) (.fault .capacity)
  chain r count

/-- A rectangle mapped up a number of levels. -/
def raised (r : Rect) : Nat → Outcome Rect
  | 0 => return r
  | count + 1 => do raised (← r.expanded) count

/-- A rectangle grown by those of the levels from `level` on, each mapped up to the finest. -/
def reach (union : Rect) (level : Nat) : List Rect → Outcome Rect
  | [] => return union
  | r :: coarser => do reach (← union.grow (← raised r level)) (level + 1) coarser

/-- The union of the levels, each mapped up to the finest. -/
def padded (rects : List Rect) : Outcome Rect := reach Rect.none 0 rects

end Patchwork.Footprint
