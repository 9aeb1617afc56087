import Patchwork.Placed

/-!
# Blend pyramids

A source is split into bands of detail, finest first.  Level `k` holds what level `k` of the source
shows beyond level `k + 1`, multiplied by the source's mask at that resolution; the coarsest level
holds the remaining image itself.  Two chains of images run side by side: each resolution is
computed from the premultiplied image above it, and the band is taken between the images without
coverage.

## Main definitions

* `Pyramid` — the levels of one source.
* `Pyramid.build` — from pixels, a placement and a mask.
* `Pyramid.depth` — how many levels suit a mosaic.
* `Pyramid.estimatedBytes` — the size declared for a pyramid before it exists.
-/

namespace Patchwork

/-- One band of a source and the mask it was multiplied by. -/
structure Pyramid.Level (format : Format) (κ : Type) where
  /-- Masked detail; at the coarsest level the masked image. -/
  image : Placed (Pixel format κ)
  /-- The mask at this resolution. -/
  mask : Placed κ

/-- The bands of one source, finest first. -/
structure Pyramid (format : Format) (κ : Type) where
  /-- The bands. -/
  levels : List (Pyramid.Level format κ)

namespace Pyramid

variable {κ : Type} [Channel κ] {format : Format}

/-- Bytes of all images and masks. -/
def sizeBytes (p : Pyramid format κ) : Nat :=
  p.levels.foldl (fun total level => total + (level.image.sizeBytes + level.mask.sizeBytes)) 0

/-- Levels that suit a mosaic whose smallest source side has `side` pixels: two less than the binary
logarithm of the side, and at least one. -/
def depth (side : Nat) : Nat := max ((side / 2).log2 - 1) 1

/-- The size declared for the pyramid of a source of `sourceBytes` bytes. -/
def estimatedBytes (sourceBytes : Nat) : Nat := saturated (sourceBytes * 166) / 100

/-- The bands from `image` on.  `blurred` is the next resolution, still premultiplied, and
`coarser` tells how many levels follow. -/
def bands (coarser : Nat) (image blurred : Placed (Pixel format κ)) (mask : Placed κ) :
    Outcome (List (Level format κ)) :=
  match coarser with
  | 0 => do
    return [⟨← image.masked mask, mask⟩]
  | coarser + 1 => do
    let next ← blurred.reduce
    let below := blurred.unpremultiply
    let detail ← image.minusExpanded below
    let band ← detail.masked mask
    let rest ← bands coarser below next (← mask.reduce)
    return ⟨band, mask⟩ :: rest

/-- The pyramid of a source at a placement in a canvas.  To fill holes the source loses its coverage
first, so that transparent pixels do not darken their neighbours. -/
def build (source : Raster (Pixel format κ)) (placement : Rect) (columns rows : Nat)
    (mask : Raster κ) (levels : Nat) (fillHoles : Bool) : Outcome (Pyramid format κ) := do
  if levels = 0 then
    Outcome.invalid .noLevels
  if mask.width ≠ source.width ∨ mask.height ≠ source.height then
    Outcome.undelivered (.maskSize mask.width mask.height source.width source.height)
  let pixels := if fillHoles then source.map Pixel.unpremultiply else source
  let image ← Placed.place pixels placement columns rows
  let blurred ← image.reduce
  let mask ← Placed.place mask placement columns rows
  return ⟨← bands (levels - 1) image blurred mask⟩

end Pyramid

end Patchwork
