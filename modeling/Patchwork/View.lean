import Patchwork.Raster.Region

/-!
# Lazy views

A `View` answers any request rectangle, in its own coordinates, with a raster of that size.  Outside
`[0, width) × [0, height)` it reads as zero.  Views are built from rasters and functions and wrapped
by cropping and by mapping; what a request costs, whether it can fail and what it touches is decided
by the monad it runs in.

## Main definitions

* `View` — a size and a way to make the pixels of a rectangle.
* `View.ofRaster`, `View.ofFunction` — the base views.
* `View.crop`, `View.map` — a window onto a view, and a change of every pixel.
-/

namespace Patchwork

open Coordinate

/-- An image made on request. -/
structure View (m : Type → Type) (α : Type) where
  /-- Number of columns. -/
  width : Nat
  /-- Number of rows. -/
  height : Nat
  /-- The pixels of a rectangle in the view's own coordinates. -/
  rasterize : Rect → m (Raster α)

namespace View

variable {m : Type → Type} {κ α β : Type}

/-- The rectangle of the whole view. -/
def bounds (v : View m α) : Rect := Rect.ofSize v.width v.height

/-- The long form of a view in messages. -/
def describe (v : View m α) : String :=
  s!"ImageView \x7b width: {v.width}, height: {v.height}, .. \x7d"

/-- The pixels of the whole view. -/
def rasterizeAll (v : View m α) : m (Raster α) := v.rasterize v.bounds

section Base

variable [Monad m] [MonadLiftT Outcome m] [Cell κ α]

/-- The view of a raster. -/
def ofRaster (r : Raster α) : View m α where
  width := r.width
  height := r.height
  rasterize area := liftM (r.region area)

/-- The pixels of a function over a rectangle, zero outside `[0, width) × [0, height)`. -/
def sampled (width height : Nat) (f : Nat → Nat → α) (area : Rect) : Outcome (Raster α) := do
  Raster.allocate α area.columns area.rows
  if area.columns ≠ 0 ∧ area.rows ≠ 0 then
    Coordinate.run area.x area.columns
    Coordinate.run area.y area.rows
  return Raster.tabulate area.columns area.rows fun i j =>
    let x := area.x + i
    let y := area.y + j
    if 0 ≤ x ∧ x < ofSide width ∧ 0 ≤ y ∧ y < ofSide height then f x.toNat y.toNat else 0

/-- The view of a function, evaluated pixel by pixel. -/
def ofFunction (width height : Nat) (f : Nat → Nat → α) : View m α where
  width := width
  height := height
  rasterize area := liftM (sampled width height f area)

/-- A window onto the view; its origin is the window's least corner.  A request inside the window is
passed on, and of any other only the part inside the window is made. -/
def crop (v : View m α) (window : Rect) : View m α where
  width := window.columns
  height := window.rows
  rasterize request := do
    let shifted ← (request.translate window.x window.y : Outcome Rect)
    let inside ← (shifted.intersect window : Outcome Rect)
    if inside = shifted then
      v.rasterize shifted
    else
      let empty ← (Raster.blankFor request : Outcome (Raster α))
      if inside.IsEmpty then
        return empty
      let part ← v.rasterize inside
      (empty.paste part (inside.x - shifted.x) (inside.y - shifted.y) : Outcome (Raster α))

end Base

section Mapped

variable [Monad m]

/-- Every pixel changed by a function. -/
def map (f : α → β) (v : View m α) : View m β where
  width := v.width
  height := v.height
  rasterize area := do return (← v.rasterize area).map f

/-- The coverage of the view. -/
def alpha [Channel κ] {format : Format} (v : View m (Pixel format κ)) : View m κ :=
  v.map Pixel.alpha

end Mapped

end View

end Patchwork
