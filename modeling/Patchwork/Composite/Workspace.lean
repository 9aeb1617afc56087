import Patchwork.Cache.Store
import Patchwork.MaskStore
import Patchwork.Pyramid
import Patchwork.View

/-!
# The workspace of mosaics

What the recipes of a mosaic's intermediate images see and change: files, mask stores, the geometry
of each mosaic once it is fixed, the tokens by which renders are called off, and whatever a caller's
own source views and mask stores keep.  Pixels, alpha planes, distance planes and pyramids are the
values a studio caches.

## Main definitions

* `Geometry` — what preparing a mosaic fixes.
* `Workspace` — the world of the recipes.
* `Value` — what is cached.
* `Making`, `Studio` — computations with cached images, and the store they run in.
-/

namespace Patchwork

/-- What preparing a mosaic fixes. -/
structure Geometry where
  /-- The rectangle that a viewer sees. -/
  frame : Rect
  /-- Number of pyramid levels. -/
  levels : Nat
  /-- Transparent pixels are holes to fill. -/
  fillHoles : Bool
  deriving DecidableEq

/-- What recipes see and change.  `σ` is what the caller's own source views and mask stores keep. -/
structure Workspace (σ κ : Type) where
  /-- The files. -/
  files : Files
  /-- The mask stores. -/
  maskStores : Array (MaskStore σ κ)
  /-- The geometry of every mosaic, `none` before it is prepared. -/
  geometries : Array (Option Geometry)
  /-- The tokens, true once raised. -/
  tokens : Array Bool
  /-- What the caller's own source views and mask stores keep. -/
  own : σ

/-- What is cached. -/
inductive Value (format : Format) (κ : Type) where
  /-- The pixels of a source. -/
  | pixels (raster : Raster (Pixel format κ))
  /-- An alpha or distance plane. -/
  | plane (raster : Raster κ)
  /-- The pyramid of a source. -/
  | pyramid (pyramid : Pyramid format κ)

/-- Computations with cached images. -/
abbrev Making (σ : Type) (format : Format) (κ : Type) :=
  Cache.Recipe (Workspace σ κ) (Value format κ)

/-- The store of cached images. -/
abbrev Studio (σ : Type) (format : Format) (κ : Type) :=
  Cache.Store (Workspace σ κ) (Value format κ)

namespace Workspace

variable {σ κ : Type}

/-- A workspace with files only. -/
def ofFiles (files : Files) (own : σ) : Workspace σ κ := ⟨files, #[], #[], #[], own⟩

/-- The geometry of a mosaic. -/
def geometry? (w : Workspace σ κ) (mosaic : Nat) : Option Geometry :=
  (w.geometries[mosaic]?).getD none

/-- Fix the geometry of a mosaic. -/
def fix (w : Workspace σ κ) (mosaic : Nat) (geometry : Geometry) : Workspace σ κ :=
  { w with geometries := w.geometries.setIfInBounds mosaic (some geometry) }

/-- The token is raised. -/
def isRaised (w : Workspace σ κ) (token : Nat) : Bool := w.tokens.getD token false

/-- Raise a token. -/
def raiseToken (w : Workspace σ κ) (token : Nat) : Workspace σ κ :=
  { w with tokens := w.tokens.setIfInBounds token true }

variable [Channel κ]

/-- The mask of a source. -/
def loadMask (w : Workspace σ κ) (store index : Nat) : Outcome (Raster κ) :=
  match w.maskStores[store]? with
  | some masks => masks.load w.own w.files index
  | none => Outcome.undefinedAt .outOfBounds

/-- Keep the mask of a source. -/
def saveMask (w : Workspace σ κ) (store index : Nat) (mask : Raster κ) :
    Outcome Unit × Workspace σ κ :=
  match w.maskStores[store]? with
  | some masks =>
    let (saved, masks, own, files) := masks.save w.own w.files index mask
    (saved, { w with own, files, maskStores := w.maskStores.setIfInBounds store masks })
  | none => (Outcome.undefinedAt .outOfBounds, w)

end Workspace

namespace Making

variable {σ κ : Type} [Channel κ] {format : Format}

/-- The pixels behind a handle. -/
def pixels (h : Cache.Handle) : Making σ format κ (Raster (Pixel format κ)) := do
  match ← Cache.Recipe.fetch h with
  | .pixels raster => return raster
  | _ => (Outcome.undefinedAt .brokenRecipe : Outcome _)

/-- The plane behind a handle. -/
def plane (h : Cache.Handle) : Making σ format κ (Raster κ) := do
  match ← Cache.Recipe.fetch h with
  | .plane raster => return raster
  | _ => (Outcome.undefinedAt .brokenRecipe : Outcome _)

/-- The pyramid behind a handle. -/
def pyramid (h : Cache.Handle) : Making σ format κ (Pyramid format κ) := do
  match ← Cache.Recipe.fetch h with
  | .pyramid pyramid => return pyramid
  | _ => (Outcome.undefinedAt .brokenRecipe : Outcome _)

/-- A view of an image file.  Only the size is read here; the file is decoded on every request and
must keep its size. -/
def openImage (path : String) :
    Making σ format κ (View (Making σ format κ) (Pixel format κ)) := do
  let files ← Cache.Recipe.observe Workspace.files
  match files.pictureSize? path with
  | none => (Outcome.blocked (.header path) : Outcome _)
  | some (width, height) =>
    return {
      width
      height
      rasterize := fun area => do
        let files ← Cache.Recipe.observe Workspace.files
        let raster ← (files.loadImage path : Outcome (Raster (Pixel format κ)))
        if raster.width ≠ width ∨ raster.height ≠ height then
          (Outcome.undelivered (.fileSize path width height raster.width raster.height) :
            Outcome Unit)
        if area = raster.bounds then
          return raster
        else
          (raster.region area : Outcome (Raster (Pixel format κ))) }

end Making

end Patchwork
