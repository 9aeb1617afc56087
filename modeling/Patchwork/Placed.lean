import Patchwork.Raster.Resample

/-!
# Placed images

A `Placed` image is a raster with the rectangle it covers in a canvas.  Raster and rectangle always
agree in size, and every operation here keeps that.

## Main definitions

* `Placed` — a raster at its place.
* `Placed.reduce` — the same image at half resolution.
* `Placed.addTo`, `Placed.mergeInto` — combine with a window onto the canvas.
* `Placed.minusExpanded`, `Placed.masked` — subtract a coarser level, multiply by a mask.
-/

namespace Patchwork

open Coordinate

/-- A raster and the rectangle of a canvas it covers. -/
structure Placed (α : Type) where
  /-- The cells. -/
  raster : Raster α
  /-- Where they lie. -/
  frame : Rect
  /-- Columns of the canvas. -/
  columns : Nat
  /-- Rows of the canvas. -/
  rows : Nat
  /-- The raster fills its rectangle. -/
  fills : raster.Fills frame

namespace Placed

variable {κ α : Type} [Channel κ] [Cell κ α]

/-- Put a raster at a rectangle of its size. -/
def place (raster : Raster α) (frame : Rect) (columns rows : Nat) : Outcome (Placed α) :=
  if h : raster.Fills frame then .ok ⟨raster, frame, columns, rows, h⟩
  else Outcome.invalid (.misplaced frame raster.width raster.height)

/-- Bytes of the raster. -/
def sizeBytes (p : Placed α) : Nat := p.raster.sizeBytes

/-- The image one resolution down; the canvas halves, rounding up. -/
def reduce (p : Placed α) : Outcome (Placed α) := do
  let coarse ← Raster.coarseFrame α p.frame
  return ⟨p.raster.shrink p.frame coarse, coarse, (p.columns + 1) / 2, (p.rows + 1) / 2, rfl, rfl⟩

/-- Apply a function to every cell. -/
def map (f : α → α) (p : Placed α) : Placed α :=
  ⟨p.raster.map f, p.frame, p.columns, p.rows, p.fills⟩

/-- Colour without coverage in every pixel. -/
def unpremultiply {format : Format} (p : Placed (Pixel format κ)) : Placed (Pixel format κ) :=
  p.map Pixel.unpremultiply

/-- Combine the image with a raster whose first cell lies at `(x, y)` of the canvas.  Only the
common part changes. -/
def mergeInto (p : Placed α) (target : Raster α) (x y : Int) (f : α → α → α) :
    Outcome (Raster α) := do
  let window ← target.bounds.translate x y
  let overlap ← p.frame.intersect window
  return target.update ⟨overlap.x - x, overlap.y - y, overlap.width, overlap.height⟩
    fun column row cell =>
      f cell (p.raster.peek (column + x - p.frame.x) (row + y - p.frame.y))

/-- Add the image to a raster whose first cell lies at `(x, y)` of the canvas. -/
def addInto (p : Placed α) (target : Raster α) (x y : Int) : Outcome (Raster α) :=
  p.mergeInto target x y (· + ·)

/-- Add the image to a raster of the whole canvas. -/
def addTo (p : Placed α) (target : Raster α) : Outcome (Raster α) :=
  p.addInto target 0 0

/-- Lay the image over a raster whose first cell lies at `(x, y)` of the canvas. -/
def overlayInto {format : Format} (p : Placed (Pixel format κ)) (target : Raster (Pixel format κ))
    (x y : Int) : Outcome (Raster (Pixel format κ)) :=
  p.mergeInto target x y Pixel.layer

/-- The image less a coarser one brought to its resolution. -/
def minusExpanded (p coarse : Placed α) : Outcome (Placed α) := do
  let up ← coarse.raster.expand coarse.frame p.frame
  return ⟨p.raster.zipWith (· - ·) up, p.frame, p.columns, p.rows, p.fills⟩

/-- Every cell scaled by the value of a mask at the same place of the canvas; zero where the mask
does not reach. -/
def masked (p : Placed α) (mask : Placed κ) : Outcome (Placed α) := do
  let dx ← checked (p.frame.x - mask.frame.x)
  let dy ← checked (p.frame.y - mask.frame.y)
  if p.raster.width ≠ 0 ∧ p.raster.height ≠ 0 then
    Coordinate.run dx p.raster.width
    Coordinate.run dy p.raster.height
  return ⟨Raster.tabulate p.raster.width p.raster.height fun x y =>
      scale (p.raster.peek x y) (mask.raster.peek (x + dx) (y + dy)),
    p.frame, p.columns, p.rows, p.fills⟩

end Placed

end Patchwork
