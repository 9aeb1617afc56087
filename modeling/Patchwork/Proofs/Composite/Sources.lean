import Patchwork.Composite.Basic
import Patchwork.Proofs.Cache.Pledges
import Patchwork.Proofs.Cache.Pool
import Patchwork.Proofs.Grassfire

/-!
# The sources of a mosaic

The view of a source is only run when its pixels are needed, and again after they were evicted.  If
it makes the same pixels every time, the recipes of a mosaic's intermediate images are as good as
values: whatever the cache holds, an alpha or a distance plane that it gives is that of the source.

## Main definitions

* `Piece` — the pixels of a source and their place.
* `Workspace.drift` — the masks of a store stay while images are made.
* `Composite.Built` — how a mosaic comes about.

## Main statements

* `Composite.Built.stocked` — the distance planes that a mosaic's cache gives are those of its
  sources.
-/

namespace Patchwork

open Cache (Handle Promise Drift Recipe)

variable {σ κ : Type} {format : Format}

/-- The pixels of a source and their place. -/
structure Piece (format : Format) (κ : Type) where
  /-- What the source covers in the shared frame. -/
  placement : Rect
  /-- Its pixels. -/
  raster : Raster (Pixel format κ)

/-- The masks of the store stay, and so does what holds throughout. -/
def Workspace.drift [Channel κ] (Fits : Workspace σ κ → Prop) (store : Nat) :
    Drift (Workspace σ κ) where
  Fits := Fits
  Step w w' := Fits w' ∧ ∀ index, w'.loadMask store index = w.loadMask store index
  refl h := ⟨h, fun _ => rfl⟩
  trans h h' := ⟨h'.1, fun index => (h'.2 index).trans (h.2 index)⟩
  fits h := h.1

theorem Workspace.euclidean_drift [Channel κ] (Fits : Workspace σ κ → Prop) (store : Nat) :
    (Workspace.drift Fits store).Euclidean :=
  fun h h' => ⟨h'.1, fun index => (h'.2 index).trans (h.2 index).symm⟩

/-- Saving a mask leaves the geometries. -/
theorem Workspace.geometries_saveMask [Channel κ] (w : Workspace σ κ) (store index : Nat)
    (mask : Raster κ) : (w.saveMask store index mask).2.geometries = w.geometries := by
  unfold Workspace.saveMask
  split <;> rfl

/-! ## Recipes of intermediate images -/

section Recipes

variable {T : Promise (Value format κ)} {D : Drift (Workspace σ κ)} {h : Handle}
  {raster : Raster (Pixel format κ)}

theorem Making.quiet_pixels (hT : ∀ v, T h v → v = .pixels raster) :
    (Making.pixels h : Making σ format κ _).Quiet T D (· = raster) := by
  apply (Recipe.Quiet.fetch h).bind
  intro v hv
  obtain rfl := hT v hv
  exact Recipe.Quiet.done rfl

theorem Making.gathers_plane {plane : Raster κ} (hT : ∀ v, T h v → v = .plane plane) :
    (Making.plane h : Making σ format κ _).Gathers T (· = plane) := by
  apply (Recipe.Gathers.fetch h).bind
  intro v hv
  obtain rfl := hT v hv
  exact rfl

/-- The view of a raster makes its pixels. -/
theorem View.quiet_ofRaster [Channel κ] (h : raster.Fills raster.bounds) :
    (View.ofRaster raster : View (Making σ format κ) _).rasterizeAll.Quiet T D (· = raster) := by
  apply Recipe.Quiet.lift
  intro made hmade
  have hcut : made = raster.cut raster.bounds := (Raster.ends_region raster _).of_ok hmade
  rw [hcut]
  exact Raster.cut_bounds h

theorem Composite.quiet_pixelsRecipe {view : View (Making σ format κ) (Pixel format κ)}
    (hview : view.rasterizeAll.Quiet T D (· = raster)) :
    (pixelsRecipe view).Quiet T D (· = .pixels raster) := by
  refine hview.bind_eq ?_
  split
  · exact (Recipe.Quiet.lift fun _ _ => trivial).bind fun _ _ => Recipe.Quiet.done rfl
  · exact Recipe.Quiet.done rfl

variable [Channel κ]

theorem Composite.quiet_alphaRecipe (hT : ∀ v, T h v → v = .pixels raster) :
    (alphaRecipe h : Making σ format κ _).Quiet T D (· = .plane raster.alphaPlane) := by
  refine (Making.quiet_pixels hT).bind_eq ?_
  exact (Recipe.Quiet.demote h).bind fun _ _ => Recipe.Quiet.done rfl

theorem Composite.quiet_distanceRecipe {alpha : Raster κ} (hT : ∀ v, T h v → v = .plane alpha) :
    (distanceRecipe h : Making σ format κ _).Quiet T D
      (· = .plane (Grassfire.distances alpha)) := by
  apply (Making.gathers_plane hT).quiet.bind
  intro plane hplane
  rw [hplane]
  have hdistances : ∀ plane, grassfire alpha = .ok plane → plane = Grassfire.distances alpha :=
    fun _ => (Grassfire.ends_grassfire alpha).of_ok
  apply (Recipe.Quiet.lift hdistances).bind
  intro plane hplane
  exact Recipe.Quiet.done (congrArg Value.plane hplane)

/-- The recipe of the bands promises nothing, and changes nothing. -/
theorem Composite.quiet_pyramidRecipe (mosaic store index : Nat) (placement : Rect) :
    (pyramidRecipe mosaic store index placement h : Making σ format κ _).Quiet T D
      fun _ => True := by
  refine (Recipe.Quiet.observe _).bind fun geometry? _ => ?_
  cases geometry? with
  | none => exact Recipe.Quiet.lift fun _ _ => trivial
  | some geometry =>
    have hpixels := (Recipe.Quiet.fetch h : (Recipe.fetch h : Making σ format κ _).Quiet T D (T h))
    refine Recipe.Quiet.bind (P := fun _ => True) ?_ ?_
    · apply hpixels.bind
      intro v _
      cases v with
      | pixels raster => exact Recipe.Quiet.done trivial
      | plane raster => exact Recipe.Quiet.lift fun _ _ => trivial
      | pyramid pyramid => exact Recipe.Quiet.lift fun _ _ => trivial
    · intro raster _
      apply (Recipe.Quiet.demote h).bind
      intro _ _
      apply (Recipe.Quiet.observe _).bind
      intro loaded _
      apply (Recipe.Quiet.lift fun _ _ => trivial).bind
      intro mask _
      apply (Recipe.Quiet.lift fun _ _ => trivial).bind
      intro place _
      exact (Recipe.Quiet.lift fun _ _ => trivial).bind fun _ _ => Recipe.Quiet.done trivial

end Recipes

/-! ## Mosaics -/

section Mosaics

variable [Channel κ] {T : Promise (Value format κ)} {D : Drift (Workspace σ κ)}

/-- What is promised of the images of a source whose first handle has a number. -/
def promised (T : Promise (Value format κ)) (number : Nat) (raster : Raster (Pixel format κ)) :
    Promise (Value format κ) :=
  (((T.grant ⟨number⟩ (· = .pixels raster)).grant ⟨number + 1⟩
    (· = .plane raster.alphaPlane)).grant ⟨number + 2⟩
    (· = .plane (Grassfire.distances raster.alphaPlane))).grant ⟨number + 3⟩ fun _ => True

theorem promised_weaker {number : Nat} {raster : Raster (Pixel format κ)} {h : Handle}
    {v : Value format κ} (hv : promised T number raster h v) : T h v :=
  hv.1.1.1.1

namespace Composite

variable {c c' : Composite} {studio studio' : Studio σ format κ} {index : Nat}
  {view : View (Making σ format κ) (Pixel format κ)} {x y : Int}

/-- The store once the images of a source are registered. -/
def enrol (c : Composite) (studio : Studio σ format κ)
    (view : View (Making σ format κ) (Pixel format κ)) (placement : Rect) : Studio σ format κ :=
  let number := studio.catalogue.size
  let pixelBytes := planeBytes view.width view.height (Cell.bytes (Pixel format κ))
  let planeBytes := planeBytes view.width view.height (Cell.bytes κ)
  let studio := (studio.insert c.cache pixelBytes (pixelsRecipe view) []).2
  let studio := (studio.insert c.cache planeBytes (alphaRecipe ⟨number⟩) [⟨number⟩]).2
  let studio := (studio.insert c.cache planeBytes (distanceRecipe ⟨number + 1⟩) [⟨number + 1⟩]).2
  (studio.insert c.cache (Pyramid.estimatedBytes pixelBytes)
    (pyramidRecipe c.number c.maskStore c.sources.length placement ⟨number⟩) [⟨number⟩]).2

/-- The sizes that are declared for a source. -/
theorem declared_enrol (c : Composite) (studio : Studio σ format κ)
    (view : View (Making σ format κ) (Pixel format κ)) (placement : Rect) :
    (c.enrol studio view placement).declared = studio.declared +
      planeBytes view.width view.height (Cell.bytes (Pixel format κ)) +
      planeBytes view.width view.height (Cell.bytes κ) +
      planeBytes view.width view.height (Cell.bytes κ) +
      Pyramid.estimatedBytes
        (planeBytes view.width view.height (Cell.bytes (Pixel format κ))) := by
  simp only [enrol, Cache.Store.declared_insert]

/-- A source whose images have consecutive numbers. -/
def numbered (placement : Rect) (number : Nat) : SourceRecord :=
  ⟨placement, ⟨number⟩, ⟨number + 1⟩, ⟨number + 2⟩, ⟨number + 3⟩⟩

/-- Adding a source, in three checks and two frames. -/
theorem insert_eq (c : Composite) (studio : Studio σ format κ)
    (view : View (Making σ format κ) (Pixel format κ)) (x y : Int) :
    c.insert studio view x y = (do
      if (c.geometry? studio.world).isSome then
        Outcome.invalid .lateSource
      let placement ← view.bounds.translate x y
      if placement.IsEmpty then
        Outcome.invalid (.emptySource x y)
      let viewFrame ← c.viewFrame.grow placement
      let dataFrame ← c.dataFrame.grow placement
      return (c.sources.length, { c with
        sources := c.sources ++ [numbered placement studio.catalogue.size]
        viewFrame
        dataFrame
        smallestSide := min c.smallestSide (min placement.columns placement.rows) },
        c.enrol studio view placement)) := by
  simp only [Composite.insert, Cache.Store.handle_insert, Cache.Store.size_insert]
  rfl

/-- A source is accepted while the mosaic waits to be prepared, if it has pixels. -/
theorem accepted_of_insert (h : c.insert studio view x y = .ok (index, c', studio')) :
    ∃ placement viewFrame dataFrame, c.geometry? studio.world = none ∧
      view.bounds.translate x y = .ok placement ∧ ¬ placement.IsEmpty ∧
      c.viewFrame.grow placement = .ok viewFrame ∧ c.dataFrame.grow placement = .ok dataFrame ∧
      index = c.sources.length ∧
      c' = { c with
        sources := c.sources ++ [numbered placement studio.catalogue.size]
        viewFrame
        dataFrame
        smallestSide := min c.smallestSide (min placement.columns placement.rows) } ∧
      studio' = c.enrol studio view placement := by
  rw [insert_eq] at h
  by_cases hlate : (c.geometry? studio.world).isSome
  · rw [if_pos hlate] at h
    cases h
  rw [if_neg hlate] at h
  obtain ⟨placement, hplacement, h⟩ := Outcome.bind_eq_ok_iff.mp h
  by_cases hempty : placement.IsEmpty
  · rw [if_pos hempty] at h
    cases h
  rw [if_neg hempty] at h
  obtain ⟨viewFrame, hviewFrame, h⟩ := Outcome.bind_eq_ok_iff.mp h
  obtain ⟨dataFrame, hdataFrame, h⟩ := Outcome.bind_eq_ok_iff.mp h
  cases h
  exact ⟨placement, viewFrame, dataFrame, Option.not_isSome_iff_eq_none.mp hlate, hplacement,
    hempty, hviewFrame, hdataFrame, rfl, rfl, rfl⟩

/-- A source that is accepted has a place and four handles. -/
theorem exists_of_insert (h : c.insert studio view x y = .ok (index, c', studio')) :
    ∃ placement viewFrame dataFrame, view.bounds.translate x y = .ok placement ∧
      c.viewFrame.grow placement = .ok viewFrame ∧
      c' = { c with
        sources := c.sources ++ [numbered placement studio.catalogue.size]
        viewFrame
        dataFrame
        smallestSide := min c.smallestSide (min placement.columns placement.rows) } ∧
      studio' = c.enrol studio view placement := by
  obtain ⟨placement, viewFrame, dataFrame, -, hplacement, -, hviewFrame, -, -, hc, hstudio⟩ :=
    accepted_of_insert h
  exact ⟨placement, viewFrame, dataFrame, hplacement, hviewFrame, hc, hstudio⟩

/-- Registering the images of a source keeps the promises. -/
theorem keeps_enrol (K : studio.Keeps T D) (c : Composite) (placement : Rect)
    {raster : Raster (Pixel format κ)} (hview : view.rasterizeAll.Quiet T D (· = raster)) :
    (c.enrol studio view placement).Keeps (promised T studio.catalogue.size raster) D := by
  have K1 := K.insert (quiet_pixelsRecipe hview) c.cache
    (planeBytes view.width view.height (Cell.bytes (Pixel format κ))) []
  have K2 := K1.insert (quiet_alphaRecipe fun v hv => hv.2 rfl) c.cache
    (planeBytes view.width view.height (Cell.bytes κ)) [⟨studio.catalogue.size⟩]
  rw [Cache.Store.size_insert] at K2
  have K3 := K2.insert (quiet_distanceRecipe fun v hv => hv.2 rfl) c.cache
    (planeBytes view.width view.height (Cell.bytes κ)) [⟨studio.catalogue.size + 1⟩]
  simp only [Cache.Store.size_insert] at K3
  have K4 := K3.insert (quiet_pyramidRecipe (h := ⟨studio.catalogue.size⟩) c.number c.maskStore
    c.sources.length placement) c.cache (Pyramid.estimatedBytes (planeBytes view.width view.height
      (Cell.bytes (Pixel format κ)))) [⟨studio.catalogue.size⟩]
  simp only [Cache.Store.size_insert] at K4
  exact K4

/-- A source that is accepted has a place, four handles and promises about them. -/
theorem insert_eq_ok (K : studio.Keeps T D)
    (h : c.insert studio view x y = .ok (index, c', studio')) {raster : Raster (Pixel format κ)}
    (hview : view.rasterizeAll.Quiet T D (· = raster)) :
    ∃ placement, view.bounds.translate x y = .ok placement ∧
      c'.sources = c.sources ++ [⟨placement, ⟨studio.catalogue.size⟩,
        ⟨studio.catalogue.size + 1⟩, ⟨studio.catalogue.size + 2⟩, ⟨studio.catalogue.size + 3⟩⟩] ∧
      c'.maskStore = c.maskStore ∧
      studio'.Keeps (promised T studio.catalogue.size raster) D := by
  obtain ⟨placement, viewFrame, dataFrame, hplacement, -, rfl, rfl⟩ := exists_of_insert h
  exact ⟨placement, hplacement, rfl, rfl, keeps_enrol K c placement hview⟩

/-- How a mosaic comes about.  It starts in any store that keeps promises, sources are added whose
views make the same pixels every time, options are set, and anything else may happen in between as
long as the store keeps its promises.  The pieces are the sources so far. -/
inductive Built (D : Drift (Workspace σ κ)) (store : Nat) :
    Promise (Value format κ) → Composite → Studio σ format κ → List (Piece format κ) → Prop
  | create {T : Promise (Value format κ)} {studio : Studio σ format κ} (K : studio.Keeps T D)
      (hgeometry : ∀ w geometries, D.Fits w → D.Fits { w with geometries }) (cache : Nat)
      (options : Options) :
      Built D store T (create studio cache store options).1 (create studio cache store options).2 []
  | insert {T : Promise (Value format κ)} {c c' : Composite} {studio studio' : Studio σ format κ}
      {pieces : List (Piece format κ)} (B : Built D store T c studio pieces)
      {view : View (Making σ format κ) (Pixel format κ)} {raster : Raster (Pixel format κ)}
      (hview : view.rasterizeAll.Quiet T D (· = raster)) {x y : Int} {placement : Rect}
      (hplacement : view.bounds.translate x y = .ok placement) {index : Nat}
      (hinsert : c.insert studio view x y = .ok (index, c', studio')) :
      Built D store (promised T studio.catalogue.size raster) c' studio'
        (pieces ++ [⟨placement, raster⟩])
  | choose {T : Promise (Value format κ)} {c : Composite} {studio : Studio σ format κ}
      {pieces : List (Piece format κ)} (B : Built D store T c studio pieces) (options : Options) :
      Built D store T { c with options } studio pieces
  | meanwhile {T T' : Promise (Value format κ)} {c : Composite}
      {studio studio' : Studio σ format κ} {pieces : List (Piece format κ)}
      (B : Built D store T c studio pieces) (K : studio'.Keeps T' D)
      (hpromises : ∀ h v, T' h v → T h v) : Built D store T' c studio' pieces

/-- The sources of a mosaic are the pieces, and its distance planes are theirs. -/
structure Stocked (T : Promise (Value format κ)) (c : Composite) (pieces : List (Piece format κ)) :
    Prop where
  /-- The sources lie where the pieces lie. -/
  placements : c.sources.map (·.placement) = pieces.map (·.placement)
  /-- Their distance planes are promised. -/
  distances : ∀ (i : Nat) source piece, c.sources[i]? = some source → pieces[i]? = some piece →
    ∀ v, T source.distance v → v = .plane (Grassfire.distances piece.raster.alphaPlane)

/-- **The images of a mosaic** are those of its sources, whatever the caches keep. -/
theorem Built.stocked {store : Nat} {pieces : List (Piece format κ)}
    (B : Built D store T c studio pieces) :
    studio.Keeps T D ∧ c.maskStore = store ∧ Stocked T c pieces := by
  induction B with
  | create K hgeometry cache options =>
    exact ⟨K.amend (hgeometry _ _ K.fits), rfl, rfl, by simp [Composite.create]⟩
  | insert B hview hplacement hinsert ih =>
    obtain ⟨K, hstore, S⟩ := ih
    obtain ⟨placement, hplacement', hsources, hsame, K'⟩ := insert_eq_ok K hinsert hview
    obtain rfl := Except.ok.inj (hplacement'.symm.trans hplacement)
    refine ⟨K', hsame.trans hstore, ?_, ?_⟩
    · rw [hsources, List.map_append, List.map_append, S.placements]
      rfl
    · intro i source piece hsource hpiece v hv
      have hlength := congrArg List.length S.placements
      rw [List.length_map, List.length_map] at hlength
      rw [hsources, List.getElem?_append, hlength] at hsource
      rw [List.getElem?_append] at hpiece
      split at hsource
      · next hold =>
        rw [if_pos hold] at hpiece
        exact S.distances i source piece hsource hpiece v (promised_weaker hv)
      · next hnew =>
        rw [if_neg hnew] at hpiece
        obtain rfl := List.mem_singleton.mp (List.mem_of_getElem? hsource)
        obtain rfl := List.mem_singleton.mp (List.mem_of_getElem? hpiece)
        exact hv.1.2 rfl
  | choose B options ih => exact ⟨ih.1, ih.2.1, ih.2.2.placements, ih.2.2.distances⟩
  | meanwhile B K hpromises ih =>
    exact ⟨K, ih.2.1, ih.2.2.placements, fun i source piece hsource hpiece v hv =>
      ih.2.2.distances i source piece hsource hpiece v (hpromises _ v hv)⟩

end Composite

end Mosaics

end Patchwork
