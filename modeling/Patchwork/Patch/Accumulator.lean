import Patchwork.Pyramid
import Patchwork.Patch.Footprint

/-!
# Summing the bands of a patch

The bands of all sources are summed level by level together with their masks, each sum divided by
its weight, and the levels put together again from the coarsest up.

## Main definitions

* `Layer` — the sums of one level.
* `Layer.addPyramid` — add one source to all levels.
* `Layer.collapse` — the image the layers hold.
-/

namespace Patchwork

/-- The sums of one level over the rectangle of the patch at that level. -/
structure Layer (format : Format) (κ : Type) where
  /-- The patch at this level. -/
  frame : Rect
  /-- Sum of the masked bands. -/
  sum : Raster (Pixel format κ)
  /-- Sum of the masks. -/
  weight : Raster κ

namespace Layer

variable {κ : Type} [Channel κ] {format : Format}

/-- Layers without any source. -/
def blanks (frames : List Rect) : Outcome (List (Layer format κ)) :=
  frames.mapM fun frame => do return ⟨frame, ← Raster.blankFor frame, ← Raster.blankFor frame⟩

/-- Add one level of a source. -/
def add (layer : Layer format κ) (level : Pyramid.Level format κ) : Outcome (Layer format κ) := do
  return { layer with
    sum := ← level.image.addInto layer.sum layer.frame.x layer.frame.y
    weight := ← level.mask.addInto layer.weight layer.frame.x layer.frame.y }

/-- Add the levels of a source, finest first; levels without a partner stay. -/
def addLevels : List (Layer format κ) → List (Pyramid.Level format κ) →
    Outcome (List (Layer format κ))
  | layer :: layers, level :: levels => do
    return (← layer.add level) :: (← addLevels layers levels)
  | layers, _ => return layers

/-- Add a source. -/
def addPyramid (layers : List (Layer format κ)) (pyramid : Pyramid format κ) :
    Outcome (List (Layer format κ)) :=
  addLevels layers pyramid.levels

/-- The weighted mean of a level; zero where no source has weight. -/
def normalized (layer : Layer format κ) : Raster (Pixel format κ) :=
  layer.sum.zipWith (fun cell weight =>
    match Channel.ratio? 1 weight with
    | some inverse => scale cell inverse
    | none => 0) layer.weight

/-- The image of the layers, finest first: each level's mean plus the doubled image of the coarser
ones. -/
def collapse : List (Layer format κ) → Outcome (Raster (Pixel format κ))
  | [] => Raster.blank 0 0
  | [layer] => return layer.normalized
  | layer :: next :: coarser => do
    let below ← collapse (next :: coarser)
    let up ← below.expand next.frame layer.frame
    return layer.normalized.zipWith (· + ·) up

end Layer

end Patchwork
