import Patchwork.Proofs.Cache.Pledges
import Patchwork.Proofs.Composite.Masks
import Patchwork.Proofs.Patch.Mirror
import Patchwork.Proofs.Patch.Order

/-!
# Mosaics of fixed images

When the view of every source makes the same pixels every time, or fails every time, all images of a
mosaic are fixed once its geometry and its masks are: they can be computed without a cache.  The
recipes of a mosaic show what is computed this way, and so does rendering, whatever is at hand and
in whatever order the sources are asked.

## Main definitions

* `Still` — a source whose pixels are fixed.
* `Stage`, `Workspace.At` — whether the mosaic is prepared, and with which geometry and masks.
* `Still.render` — a rectangle of a mosaic of such sources.
* `Composite.Prints` — what is pledged of the sources of a mosaic.

## Main statements

* `Composite.mirrors_render` — rendering shows this rectangle.
-/

namespace Patchwork

open Cache (Handle Pledge Drift Recipe)
open Cache.Recipe (Mirrors mirror)
open Outcome

/-- The view shows one of plain outcomes: it makes the same pixels every time. -/
structure View.Shown {m : Type → Type} [Monad m] [MonadLiftT Outcome m] {α : Type} (M : Mirror m)
    (still : View Outcome α) (view : View m α) : Prop where
  /-- The same number of columns. -/
  width : view.width = still.width
  /-- The same number of rows. -/
  height : view.height = still.height
  /-- The same pixels. -/
  pixels : M.Shows Eq still.rasterizeAll view.rasterizeAll

theorem View.shown_ofRaster {m : Type → Type} [Monad m] [MonadLiftT Outcome m] {κ α : Type}
    [Cell κ α] (M : Mirror m) (raster : Raster α) :
    View.Shown M (View.ofRaster raster) (View.ofRaster raster) :=
  ⟨rfl, rfl, M.lift (Alike.refl _)⟩

/-- What the bands of a mosaic are made with once it is prepared. -/
structure Stage (κ : Type) where
  /-- Its geometry. -/
  geometry : Geometry
  /-- Its masks, as they are loaded. -/
  masks : Nat → Outcome (Raster κ)

/-- The mosaic waits to be prepared, or it is prepared with a geometry and masks. -/
def Workspace.At {σ κ : Type} [Channel κ] (mosaic store : Nat) :
    Option (Stage κ) → Workspace σ κ → Prop
  | none, w => w.geometries[mosaic]? = some none
  | some stage, w => w.geometry? mosaic = some stage.geometry ∧
      ∀ index, w.loadMask store index = stage.masks index

/-- A source whose pixels are fixed. -/
structure Still (format : Format) (κ : Type) where
  /-- Its view. -/
  view : View Outcome (Pixel format κ)
  /-- What it covers in the shared frame. -/
  placement : Rect

namespace Still

variable {κ : Type} [Channel κ] {format : Format}

omit [Channel κ] in
/-- Its pixels. -/
def pixels (still : Still format κ) : Outcome (Raster (Pixel format κ)) := do
  let raster ← still.view.rasterizeAll
  if raster.width ≠ still.view.width ∨ raster.height ≠ still.view.height then
    Outcome.undelivered
      (.viewSize raster.width raster.height still.view.width still.view.height)
  return raster

/-- Its coverage. -/
def alpha (still : Still format κ) : Outcome (Raster κ) := do
  return (← still.pixels).alphaPlane

/-- The depth of its pixels. -/
def distance (still : Still format κ) : Outcome (Raster κ) := do
  grassfire (← still.alpha)

/-- Its bands in a prepared mosaic, where it has a number. -/
def pyramid (still : Still format κ) (stage : Stage κ) (index : Nat) :
    Outcome (Pyramid format κ) := do
  let raster ← still.pixels
  let mask ← stage.masks index
  let frame := stage.geometry.frame
  let place ← still.placement.relativeTo frame.x frame.y
  Pyramid.build raster place frame.columns frame.rows mask stage.geometry.levels
    stage.geometry.fillHoles

/-- Its bands, of which there are none before the mosaic is prepared. -/
def bands (still : Still format κ) : Option (Stage κ) → Nat → Outcome (Pyramid format κ)
  | none, _ => Outcome.invalid .unprepared
  | some stage, index => still.pyramid stage index

/-- The source as a patch sees it, in the viewer's frame. -/
def print (still : Still format κ) (stage : Stage κ) (index : Nat) :
    Outcome (PatchSource Outcome format κ) := do
  let placement ← still.placement.relativeTo stage.geometry.frame.x stage.geometry.frame.y
  return {
    placement
    resident := false
    pyramid := still.pyramid stage index
    alpha := still.alpha
    pixels := fun place => do (← still.pixels).region place }

/-- All sources of a mosaic as a patch sees them. -/
def prints (stills : List (Still format κ)) (stage : Stage κ) :
    Outcome (List (PatchSource Outcome format κ)) :=
  stills.zipIdx.mapM fun (still, index) => still.print stage index

/-- A rectangle of the mosaic of some sources, blended. -/
def render (stills : List (Still format κ)) (stage : Stage κ) (area : Rect) :
    Outcome (Raster (Pixel format κ)) := do
  let prints ← prints stills stage
  let geometry := stage.geometry
  Patch.blend area
    ⟨geometry.levels, geometry.fillHoles, geometry.frame.columns, geometry.frame.rows⟩ prints

end Still

/-! ## Recipes of intermediate images -/

section Recipes

variable {σ κ : Type} {format : Format} {O : Pledge (Value format κ)} {D : Drift (Workspace σ κ)}
  {limit : Nat}

/-- An image out of the cache, of the kind that is wanted. -/
theorem Making.mirrors_fetch {α : Type} {kind : α → Value format κ}
    {wanted : Value format κ → Making σ format κ α} (hwanted : ∀ a, wanted (kind a) = pure a)
    {h : Handle} {x : Outcome α} (ho : O h (kind <$> x)) (hlimit : h.index < limit) :
    (Recipe.fetch h >>= wanted).Mirrors O D limit Eq x := by
  have hfetch : (Recipe.fetch h : Making σ format κ _).Mirrors O D limit
      (fun a v => v = kind a) x := Mirrors.fetch_map ho hlimit
  rw [← bind_pure x]
  apply hfetch.bind
  rintro a _ - rfl
  rw [hwanted]
  exact (mirror O D limit).pure rfl

theorem Making.shows_pixels {h : Handle} {x : Outcome (Raster (Pixel format κ))}
    (ho : O h (Value.pixels <$> x)) (hlimit : h.index < limit) :
    (mirror O D limit).Shows Eq x (Making.pixels h : Making σ format κ _) := by
  refine Making.mirrors_fetch ?_ ho hlimit
  exact fun _ => rfl

theorem Making.shows_plane {h : Handle} {x : Outcome (Raster κ)}
    (ho : O h (Value.plane <$> x)) (hlimit : h.index < limit) :
    (mirror O D limit).Shows Eq x (Making.plane h : Making σ format κ _) := by
  refine Making.mirrors_fetch ?_ ho hlimit
  exact fun _ => rfl

theorem Making.shows_pyramid {h : Handle} {x : Outcome (Pyramid format κ)}
    (ho : O h (Value.pyramid <$> x)) (hlimit : h.index < limit) :
    (mirror O D limit).Shows Eq x (Making.pyramid h : Making σ format κ _) := by
  refine Making.mirrors_fetch ?_ ho hlimit
  exact fun _ => rfl

namespace Composite

variable {still : Still format κ} {pixels alpha : Handle}

theorem mirrors_pixelsRecipe {view : View (Making σ format κ) (Pixel format κ)}
    (hview : View.Shown (mirror O D limit) still.view view) :
    (pixelsRecipe view).Mirrors O D limit Eq (Value.pixels <$> still.pixels) := by
  refine Mirrors.map ?_
  unfold pixelsRecipe Still.pixels
  rw [hview.width, hview.height]
  refine (mirror O D limit).bind_eq hview.pixels fun raster => ?_
  dsimp only
  split
  · exact (mirror O D limit).bind_lift fun _ => (mirror O D limit).pure rfl
  · exact (mirror O D limit).pure rfl

variable [Channel κ]

theorem mirrors_alphaRecipe (ho : O pixels (Value.pixels <$> still.pixels))
    (hlimit : pixels.index < limit) :
    (alphaRecipe pixels : Making σ format κ _).Mirrors O D limit Eq
      (Value.plane <$> still.alpha) := by
  refine Mirrors.map ?_
  refine (mirror O D limit).bind_eq (Making.shows_pixels ho hlimit) fun raster => ?_
  exact (Mirrors.demote pixels).bind_ok fun _ _ => (mirror O D limit).pure rfl

theorem mirrors_distanceRecipe (ho : O alpha (Value.plane <$> still.alpha))
    (hlimit : alpha.index < limit) :
    (distanceRecipe alpha : Making σ format κ _).Mirrors O D limit Eq
      (Value.plane <$> still.distance) := by
  refine Mirrors.map ?_
  refine (mirror O D limit).bind_eq (Making.shows_plane ho hlimit) fun plane => ?_
  exact (mirror O D limit).bind_right ((mirror O D limit).lift (Alike.refl _)) fun _ =>
    (mirror O D limit).pure rfl

/-- The bands are those of the source at the present stage. -/
theorem mirrors_pyramidRecipe {number store index : Nat} {stage : Option (Stage κ)}
    (hD : ∀ w, D.Fits w → w.At number store stage)
    (ho : O pixels (Value.pixels <$> still.pixels)) (hlimit : pixels.index < limit) :
    (pyramidRecipe number store index still.placement pixels : Making σ format κ _).Mirrors O D
      limit Eq (Value.pyramid <$> still.bands stage index) := by
  refine Mirrors.map ?_
  cases stage with
  | none =>
    have hnone : ∀ w, D.Fits w → w.geometry? number = none := by
      intro w hw
      have hwaits : w.geometries[number]? = some none := hD w hw
      rw [Workspace.geometry?, hwaits, Option.getD_some]
    refine (Mirrors.observe hnone).bind_ok ?_
    rintro _ rfl
    have hrefused : Alike (fun b a => a = Value.pyramid b) (still.bands none index)
        (Outcome.invalid .unprepared : Outcome (Value format κ)) := trivial
    exact (mirror O D limit).lift hrefused
  | some stage =>
    refine (Mirrors.observe fun w hw => (hD w hw).1).bind_ok ?_
    rintro _ rfl
    refine (mirror O D limit).bind_eq (Making.shows_pixels ho hlimit) fun raster => ?_
    refine (Mirrors.demote pixels).bind_ok fun _ _ => ?_
    refine (Mirrors.observe fun w hw => (hD w hw).2 index).bind_ok ?_
    rintro _ rfl
    refine (mirror O D limit).bind_lift fun mask => (mirror O D limit).bind_lift fun place => ?_
    exact (mirror O D limit).bind_right ((mirror O D limit).lift (Alike.refl _)) fun _ =>
      (mirror O D limit).pure rfl

end Composite

end Recipes

/-! ## Rendering -/

/-- The sources of a patch with the flags that others have. -/
theorem PatchSource.exists_flagged {m : Type → Type} [Monad m] [MonadLiftT Outcome m] {κ : Type}
    {format : Format} {M : Mirror m} {prints : List (PatchSource Outcome format κ)}
    {sources : List (PatchSource m format κ)}
    (h : List.Forall₂ (PatchSource.Shown M) prints sources) :
    ∃ flagged, List.Forall₂ (PatchSource.ShownAsIs M) flagged sources ∧
      flagged.map PatchSource.unflagged = prints.map PatchSource.unflagged := by
  induction h with
  | nil => exact ⟨[], .nil, rfl⟩
  | @cons print source prints sources hsource _ ih =>
    obtain ⟨flagged, hflagged, heq⟩ := ih
    refine ⟨{ print with resident := source.resident } :: flagged, .cons ⟨?_, rfl⟩ hflagged, ?_⟩
    · exact ⟨hsource.placement, hsource.pyramid, hsource.alpha⟩
    · rw [List.map_cons, List.map_cons, heq]
      rfl

/-- A blend of fixed images shows the blend of their outcomes, whatever is at hand. -/
theorem Patch.shows_blend_unflagged {m : Type → Type} [Monad m] [MonadLiftT Outcome m]
    {format : Format} {M : Mirror m} {prints : List (PatchSource Outcome format ℚ)}
    {sources : List (PatchSource m format ℚ)}
    (h : List.Forall₂ (PatchSource.Shown M) prints sources) (area : Rect) (params : PatchParams) :
    ∃ x, M.Shows Eq x (Patch.blend area params sources) ∧
      Alike Eq x (Patch.blend area params prints) := by
  obtain ⟨flagged, hflagged, heq⟩ := PatchSource.exists_flagged h
  have hperm := List.Perm.of_eq heq
  exact ⟨_, Patch.shows_blend hflagged, Alike.eq_iff.mpr fun _ =>
    ⟨Patch.blend_perm hperm, Patch.blend_perm hperm.symm⟩⟩

namespace Composite

variable {σ κ : Type} {format : Format}

/-- What is pledged of a source, at every stage, is what a still source gives. -/
structure Prints [Channel κ] (O : Option (Stage κ) → Pledge (Value format κ))
    (still : Still format κ × Nat) (source : SourceRecord) : Prop where
  /-- The same place. -/
  placement : source.placement = still.1.placement
  /-- Its coverage. -/
  alpha : ∀ stage, O stage source.alpha (Value.plane <$> still.1.alpha)
  /-- The depth of its pixels. -/
  distance : ∀ stage, O stage source.distance (Value.plane <$> still.1.distance)
  /-- Its bands. -/
  pyramid : ∀ stage, O stage source.pyramid (Value.pyramid <$> still.1.bands stage still.2)

theorem shows_patchSource [Channel κ] {O : Option (Stage κ) → Pledge (Value format κ)}
    {D : Drift (Workspace σ κ)} {stage : Stage κ} {limit : Nat}
    (hlimit : ∀ h o, O (some stage) h o → h.index < limit) {still : Still format κ × Nat}
    {source : SourceRecord} (h : Prints O still source) :
    (mirror (O (some stage)) D limit).Shows (PatchSource.Shown (mirror (O (some stage)) D limit))
      (still.1.print stage still.2) (patchSource stage.geometry source) := by
  have halpha := h.alpha (some stage)
  have hpyramid := h.pyramid (some stage)
  unfold patchSource Still.print
  rw [h.placement]
  refine (mirror (O (some stage)) D limit).bind_lift fun placement => ?_
  refine (Mirrors.statusOf source.pyramid).bind_ok fun status _ =>
    (mirror (O (some stage)) D limit).pure ?_
  exact ⟨rfl, Making.shows_pyramid hpyramid (hlimit _ _ hpyramid),
    Making.shows_plane halpha (hlimit _ _ halpha)⟩

/-- **Rendering a mosaic of fixed images** shows what can be computed without a cache. -/
theorem mirrors_render {O : Option (Stage ℚ) → Pledge (Value format ℚ)}
    {D : Drift (Workspace σ ℚ)} {stage : Stage ℚ} {limit : Nat}
    (hlimit : ∀ h o, O (some stage) h o → h.index < limit) {c : Composite}
    {stills : List (Still format ℚ)}
    (hD : ∀ w, D.Fits w → c.geometry? w = some stage.geometry)
    (hsources : List.Forall₂ (Prints O) stills.zipIdx c.sources)
    (hblend : c.options.draft = false) (area : Rect) :
    (c.render area).Mirrors (O (some stage)) D limit Eq (Still.render stills stage area) := by
  unfold render Still.render Still.prints
  refine (Mirrors.observe hD).bind_ok ?_
  rintro _ rfl
  refine (mirror (O (some stage)) D limit).bind ((mirror (O (some stage)) D limit).mapM
    (hsources.imp fun _ _ h => shows_patchSource hlimit h)) fun prints sources h => ?_
  dsimp only
  rw [hblend, if_neg Bool.false_ne_true]
  obtain ⟨x, hx, heq⟩ := Patch.shows_blend_unflagged h area ⟨stage.geometry.levels,
    stage.geometry.fillHoles, stage.geometry.frame.columns, stage.geometry.frame.rows⟩
  exact Mirrors.congr hx heq

end Composite

end Patchwork
