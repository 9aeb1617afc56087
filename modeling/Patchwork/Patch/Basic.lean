import Patchwork.Patch.Accumulator
import Patchwork.Raster.Region

/-!
# Patches of a mosaic

A patch is the image of one rectangle of a mosaic.  `Patch.blend` mixes overlapping sources band by
band, so that seams fade over a distance that fits the size of the detail; `Patch.draft` lays the
sources over one another in order.

Sources are asked for what a patch needs while it is made, and the monad decides what that costs.
Blending asks the sources whose pyramids are at hand first.

## Main definitions

* `PatchSource` — a source as a patch sees it.
* `PatchParams` — what all patches of a mosaic share.
* `Patch.blend`, `Patch.draft` — the two ways to make a patch.
-/

namespace Patchwork

/-- A source in the frame of a mosaic. -/
structure PatchSource (m : Type → Type) (format : Format) (κ : Type) where
  /-- What the source covers. -/
  placement : Rect
  /-- The pyramid is at hand. -/
  resident : Bool
  /-- The source's bands. -/
  pyramid : m (Pyramid format κ)
  /-- The source's coverage, as large as the placement. -/
  alpha : m (Raster κ)
  /-- Pixels of a rectangle whose origin is the source's first pixel. -/
  pixels : Rect → m (Raster (Pixel format κ))

/-- What all patches of a mosaic share. -/
structure PatchParams where
  /-- Number of levels. -/
  levels : Nat
  /-- Divide by coverage instead of restoring the sources' coverage. -/
  fillHoles : Bool
  /-- Columns of the mosaic. -/
  columns : Nat
  /-- Rows of the mosaic. -/
  rows : Nat

namespace Patch

variable {m : Type → Type} [Monad m] [MonadLiftT Outcome m]
variable {κ : Type} [Channel κ] {format : Format}

/-- The sources that cover some pixel of a rectangle. -/
def near (sources : List (PatchSource m format κ)) (area : Rect) :
    Outcome (List (PatchSource m format κ)) :=
  sources.filterMapM fun source => do
    return if ← source.placement.intersects area then some source else none

/-- Sources whose pyramids are at hand, then the others, both in their order. -/
def residentFirst (sources : List (PatchSource m format κ)) : List (PatchSource m format κ) :=
  sources.filter (·.resident) ++ sources.filter (!·.resident)

/-- Raise each cell of `highest`, which covers `area`, to the coverage of a source. -/
def raiseTo (highest alpha : Raster κ) (placement overlap area : Rect) : Raster κ :=
  highest.update ⟨overlap.x - area.x, overlap.y - area.y, overlap.width, overlap.height⟩
    fun x y cell =>
      Channel.larger cell (alpha.peek (x + area.x - placement.x) (y + area.y - placement.y))

/-- Take the coverage of one source into account. -/
def raiseBySource (area : Rect) (highest : Raster κ) (source : PatchSource m format κ) :
    m (Raster κ) := do
  if !(← (source.placement.intersects area : Outcome Bool)) then
    return highest
  let alpha ← source.alpha
  let overlap ← (source.placement.intersect area : Outcome Rect)
  return raiseTo highest alpha source.placement overlap area

/-- The pixel scaled so that its coverage becomes `alpha`; zero when that has no meaning. -/
def rescaled (alpha : κ) (p : Pixel format κ) : Pixel format κ :=
  match Channel.ratio? alpha p.alpha with
  | some factor => scale p factor
  | none => 0

/-- Mix the sources band by band.  Without hole filling the coverage of each pixel becomes the
largest any source has there; with it, one. -/
def blend (area : Rect) (params : PatchParams) (sources : List (PatchSource m format κ)) :
    m (Raster (Pixel format κ)) := do
  let frames ← (Footprint.levels area (max params.levels 1) : Outcome (List Rect))
  let padded ← (Footprint.padded frames : Outcome Rect)
  let touching ← (near sources padded : Outcome (List (PatchSource m format κ)))
  let selected := residentFirst touching
  let blanks ← (Layer.blanks frames : Outcome (List (Layer format κ)))
  let layers ← selected.foldlM (fun layers source => do
    let pyramid ← source.pyramid
    (Layer.addPyramid layers pyramid : Outcome (List (Layer format κ)))) blanks
  let mixed ← (Layer.collapse layers : Outcome (Raster (Pixel format κ)))
  if params.fillHoles then
    return (mixed.map Pixel.unpremultiply).map Pixel.sanitized
  else
    let nothing ← (Raster.blankFor area : Outcome (Raster κ))
    let highest ← selected.foldlM (raiseBySource area) nothing
    return (mixed.zipWith (fun p alpha => rescaled alpha p) highest).map Pixel.sanitized

/-- Lay the pixels of one source over a patch. -/
def overlay (area : Rect) (params : PatchParams) (patch : Raster (Pixel format κ))
    (source : PatchSource m format κ) : m (Raster (Pixel format κ)) := do
  let overlap ← (source.placement.intersect area : Outcome Rect)
  if overlap.IsEmpty then
    return patch
  let place ← (overlap.relativeTo source.placement.x source.placement.y : Outcome Rect)
  let raw ← source.pixels place
  let image ← (Placed.place raw overlap params.columns params.rows : Outcome _)
  (image.overlayInto patch area.x area.y : Outcome _)

/-- Lay the sources over one another in order. -/
def draft (area : Rect) (params : PatchParams) (sources : List (PatchSource m format κ)) :
    m (Raster (Pixel format κ)) := do
  let nothing ← (Raster.blankFor area : Outcome (Raster (Pixel format κ)))
  let patch ← sources.foldlM (overlay area params) nothing
  return patch.map Pixel.sanitized

end Patch

end Patchwork
