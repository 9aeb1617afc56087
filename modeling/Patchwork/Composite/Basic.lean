import Patchwork.Cache.Pool
import Patchwork.Composite.Workspace
import Patchwork.Grassfire
import Patchwork.Options
import Patchwork.Ownership
import Patchwork.Patch.Basic

/-!
# Mosaics

A `Composite` is a mosaic of source views at fixed positions.  Inserting a source registers the
recipes of its pixels, alpha plane, distance plane and pyramid without running any.  Preparing fixes
the frame, the depth of the pyramids and the treatment of holes once and for all, and makes the
ownership masks.  After that every rectangle of the frame can be rendered, pulling intermediate
images through the cache.

## Main definitions

* `Composite` — the sources, options and frames of a mosaic.
* `Composite.create`, `Composite.insert` — an empty mosaic, one more source.
* `Composite.prepare` — fix the geometry and make the masks.
* `Composite.render`, `Composite.toView` — the pixels of a rectangle, and the mosaic as a view.
-/

namespace Patchwork

open Cache (Handle)

/-- The cached images of one source. -/
structure SourceRecord where
  /-- What the source covers in the shared frame. -/
  placement : Rect
  /-- Its pixels. -/
  pixels : Handle
  /-- Its coverage. -/
  alpha : Handle
  /-- The depth of its pixels. -/
  distance : Handle
  /-- Its bands. -/
  pyramid : Handle

/-- A mosaic. -/
structure Composite where
  /-- Its number in the workspace. -/
  number : Nat
  /-- The cache that accounts for its images. -/
  cache : Nat
  /-- The store of its masks. -/
  maskStore : Nat
  /-- Its options. -/
  options : Options
  /-- Its sources in order. -/
  sources : List SourceRecord
  /-- The frame that a viewer sees. -/
  viewFrame : Rect
  /-- The union of all placements. -/
  dataFrame : Rect
  /-- The smallest side of any source. -/
  smallestSide : Nat

namespace Composite

variable {σ κ : Type} [Channel κ] {format : Format}

/-- Bytes declared for a plane of cells. -/
def planeBytes (width height cellBytes : Nat) : Nat := saturated (width * height * cellBytes)

/-- How the pixels of a source are made. -/
def pixelsRecipe (view : View (Making σ format κ) (Pixel format κ)) :
    Making σ format κ (Value format κ) := do
  let raster ← view.rasterizeAll
  if raster.width ≠ view.width ∨ raster.height ≠ view.height then
    (Outcome.undelivered (.viewSize raster.width raster.height view.width view.height) :
      Outcome Unit)
  return .pixels raster

/-- How the coverage of a source is made; its pixels may go first afterwards. -/
def alphaRecipe (pixels : Handle) : Making σ format κ (Value format κ) := do
  let raster ← Making.pixels pixels
  Cache.Recipe.demote pixels
  return .plane raster.alphaPlane

/-- How the depths of a source's pixels are made. -/
def distanceRecipe (alpha : Handle) : Making σ format κ (Value format κ) := do
  let plane ← Making.plane alpha
  return .plane (← (grassfire plane : Outcome (Raster κ)))

/-- How the bands of a source are made; its pixels may go first afterwards. -/
def pyramidRecipe (mosaic maskStore index : Nat) (placement : Rect) (pixels : Handle) :
    Making σ format κ (Value format κ) := do
  match ← Cache.Recipe.observe fun w : Workspace σ κ => w.geometry? mosaic with
  | none => (Outcome.invalid .unprepared : Outcome _)
  | some geometry =>
    let raster ← Making.pixels pixels
    Cache.Recipe.demote pixels
    let loaded ← Cache.Recipe.observe fun w : Workspace σ κ => w.loadMask maskStore index
    let mask ← (loaded : Outcome (Raster κ))
    let frame := geometry.frame
    let place ← (placement.relativeTo frame.x frame.y : Outcome Rect)
    return .pyramid (← (Pyramid.build raster place frame.columns frame.rows mask geometry.levels
      geometry.fillHoles : Outcome _))

/-- A mosaic without sources. -/
def create (studio : Studio σ format κ) (cache maskStore : Nat) (options : Options) :
    Composite × Studio σ format κ :=
  let number := studio.world.geometries.size
  (⟨number, cache, maskStore, options, [], .none, .none, wordMax⟩,
    studio.amend fun w => { w with geometries := w.geometries.push none })

/-- The geometry, once fixed. -/
def geometry? (c : Composite) (w : Workspace σ κ) : Option Geometry := w.geometry? c.number

/-- Columns of the viewer's frame. -/
def columns (c : Composite) : Nat := c.viewFrame.columns

/-- Rows of the viewer's frame. -/
def rows (c : Composite) : Nat := c.viewFrame.rows

/-- Add a source with its first pixel at `(x, y)`; gives its index.  A refused source leaves all as
it was.  A frame that overflows is a fault; what was added before it is not given back. -/
def insert (c : Composite) (studio : Studio σ format κ)
    (view : View (Making σ format κ) (Pixel format κ)) (x y : Int) :
    Outcome (Nat × Composite × Studio σ format κ) := do
  if (c.geometry? studio.world).isSome then
    Outcome.invalid .lateSource
  let placement ← view.bounds.translate x y
  if placement.IsEmpty then
    Outcome.invalid (.emptySource x y)
  let index := c.sources.length
  let pixelBytes := planeBytes view.width view.height (Cell.bytes (Pixel format κ))
  let planeBytes := planeBytes view.width view.height (Cell.bytes κ)
  let (pixels, studio) := studio.insert c.cache pixelBytes (pixelsRecipe view) []
  let (alpha, studio) := studio.insert c.cache planeBytes (alphaRecipe pixels) [pixels]
  let (distance, studio) := studio.insert c.cache planeBytes (distanceRecipe alpha) [alpha]
  let (pyramid, studio) := studio.insert c.cache (Pyramid.estimatedBytes pixelBytes)
    (pyramidRecipe c.number c.maskStore index placement pixels) [pixels]
  let record : SourceRecord := ⟨placement, pixels, alpha, distance, pyramid⟩
  let viewFrame ← c.viewFrame.grow placement
  let dataFrame ← c.dataFrame.grow placement
  return (index, { c with
    sources := c.sources ++ [record]
    viewFrame
    dataFrame
    smallestSide := min c.smallestSide (min placement.columns placement.rows) }, studio)

/-- Give up all sources. -/
def discard (c : Composite) (studio : Studio σ format κ) : Studio σ format κ :=
  studio.release (c.sources.flatMap fun s => [s.pixels, s.alpha, s.distance, s.pyramid])

/-- The distance plane of a source. -/
def distancePlane (c : Composite) (index : Nat) : Making σ format κ (Raster κ) :=
  match c.sources[index]? with
  | some source => Making.plane source.distance
  | none => (Outcome.undefinedAt .outOfBounds : Outcome _)

/-- Make and store the masks of all sources, side by side as `schedule` says; the distance planes
may go first afterwards. -/
def makeMasks (c : Composite) (schedule : Cache.Schedule) : Making σ format κ Unit := do
  Ownership.generate (Cache.Recipe.pool schedule) (c.sources.map (·.placement)) c.distancePlane
    fun index mask => Cache.Recipe.act fun w => w.saveMask c.maskStore index mask
  c.sources.forM fun source => Cache.Recipe.demote source.distance

/-- Fix the frame, the depth and the treatment of holes, and make the masks that blending needs.
The frame is the union of the placements unless `total` is given.  A pool of threads makes the
masks, and `schedule` says in which order. -/
def prepare (c : Composite) (schedule : Cache.Schedule) (total : Option Rect) :
    Making σ format κ Composite := do
  if (← Cache.Recipe.observe fun w : Workspace σ κ => c.geometry? w).isSome then
    (Outcome.invalid .preparedTwice : Outcome Unit)
  if c.sources.isEmpty then
    (Outcome.invalid .noSources : Outcome Unit)
  let frame := total.getD c.viewFrame
  if total.isSome ∧ frame.IsEmpty then
    (Outcome.invalid (.emptyFrame frame) : Outcome Unit)
  let geometry : Geometry := ⟨frame, Pyramid.depth c.smallestSide, c.options.fillHoles⟩
  if !c.options.draft && !c.options.reuseMasks then
    c.makeMasks schedule
  Cache.Recipe.amend fun w => w.fix c.number geometry
  return { c with viewFrame := frame }

/-- A source as a patch sees it, in the viewer's frame. -/
def patchSource (geometry : Geometry) (s : SourceRecord) :
    Making σ format κ (PatchSource (Making σ format κ) format κ) := do
  let placement ← (s.placement.relativeTo geometry.frame.x geometry.frame.y : Outcome Rect)
  let status ← Cache.Recipe.statusOf s.pyramid
  return {
    placement
    resident := status = .resident
    pyramid := Making.pyramid s.pyramid
    alpha := Making.plane s.alpha
    pixels := fun place => do
      let raster ← Making.pixels s.pixels
      (raster.region place : Outcome (Raster (Pixel format κ))) }

/-- The pixels of a rectangle in the viewer's frame, whose first pixel is the origin. -/
def render (c : Composite) (area : Rect) : Making σ format κ (Raster (Pixel format κ)) := do
  match ← Cache.Recipe.observe fun w : Workspace σ κ => c.geometry? w with
  | none => (Outcome.invalid .earlyRender : Outcome _)
  | some geometry =>
    let sources ← c.sources.mapM (patchSource geometry)
    let params : PatchParams :=
      ⟨geometry.levels, geometry.fillHoles, geometry.frame.columns, geometry.frame.rows⟩
    if c.options.draft then
      Patch.draft area params sources
    else
      Patch.blend area params sources

/-- A single pixel; mosaics give whole patches only. -/
def pixel (x y : Int) : Outcome (Pixel format κ) := Outcome.refuse (.singlePixel x y)

/-- The prepared mosaic as a view. -/
def toView (c : Composite) (studio : Studio σ format κ) :
    Outcome (View (Making σ format κ) (Pixel format κ)) :=
  if (c.geometry? studio.world).isSome then .ok ⟨c.columns, c.rows, c.render⟩
  else Outcome.invalid .earlyView

/-- The long form of a mosaic in messages. -/
def describe (c : Composite) (w : Workspace σ κ) : String :=
  let levels := match c.geometry? w with
    | some geometry => s!"Some({geometry.levels})"
    | none => "None"
  s!"ImageComposite \x7b sources: {c.sources.length}, view_bbox: {c.viewFrame.describe}, " ++
    s!"opts: {c.options.describe}, levels: {levels}, .. \x7d"

end Composite

end Patchwork
