import Patchwork.Proofs.Cache.Sturdy
import Patchwork.Proofs.Composite.Preparing
import Patchwork.Proofs.Composite.Sources
import Patchwork.Proofs.Ownership
import Patchwork.Proofs.Patch.Sane

/-!
# Mosaics that never break

As long as the sources and the frame of a mosaic lie on a wall that memory can hold, nothing that is
done with it ends with a fault: every coordinate that any of its recipes computes is in range, every
raster fits memory, and every image is of the kind that is expected of it.  The wall may be anywhere
but at the least coordinate.  Sources may still be refused, files be unreadable or unwritable, and
images change behind the back of the mosaic; all of these are problems.

## Main definitions

* `Rect.IsWall` — where a mosaic may lie.
* `Workspace.Ready` — what holds of the world throughout.
* `SourceRecord.Promised`, `Composite.Promised` — what is promised of a source, and of a mosaic.
* `Composite.Sturdy` — a mosaic that never breaks in a store.

## Main statements

* `Composite.sturdy_create`, `Composite.sturdy_insert` — a new mosaic, and adding a source.
* `Composite.sturdy_prepare`, `Composite.sturdy_render` — making the masks, and patches.
-/

namespace Patchwork

open Cache (Handle Promise Recipe Schedule)
open Outcome Coordinate

/-! ## Rectangles on a wall -/

namespace Rect

/-- Where a mosaic may lie, anywhere in the range of coordinates: the coordinates there have
opposites, and memory can hold a raster of all of it. -/
structure IsWall (wall : Rect) : Prop where
  /-- The least column has no opposite. -/
  left : lowest < wall.x
  /-- The column past the far one. -/
  right : wall.x + wall.width ≤ highest
  /-- A row of it fits memory. -/
  across : wall.width ≤ longest
  /-- The least row has no opposite. -/
  top : lowest < wall.y
  /-- The row past the far one. -/
  bottom : wall.y + wall.height ≤ highest
  /-- A column of it fits memory. -/
  down : wall.height ≤ longest

instance (wall : Rect) : Decidable wall.IsWall :=
  decidable_of_iff (lowest < wall.x ∧ wall.x + wall.width ≤ highest ∧ wall.width ≤ longest ∧
      lowest < wall.y ∧ wall.y + wall.height ≤ highest ∧ wall.height ≤ longest)
    ⟨fun ⟨hl, hr, ha, ht, hb, hd⟩ => ⟨hl, hr, ha, ht, hb, hd⟩,
      fun ⟨hl, hr, ha, ht, hb, hd⟩ => ⟨hl, hr, ha, ht, hb, hd⟩⟩

variable {wall a b r : Rect}

theorem IsWall.isSheet (h : wall.IsWall) : wall.IsSheet := by
  obtain ⟨_, _, _, _, _, _⟩ := h
  simp only [longest] at *
  constructor <;> simp only [highest] at * <;> omega

namespace LiesOn

variable {E : Failure → Prop} (hwall : wall.IsWall)
include hwall

theorem columns_le (h : r.LiesOn wall) : r.columns ≤ 759250124 := by
  obtain ⟨_, _, _, _, _, _⟩ := hwall
  obtain ⟨⟨_, _, _, _⟩, _, _⟩ := h
  simp only [columns, longest] at *
  omega

theorem rows_le (h : r.LiesOn wall) : r.rows ≤ 759250124 := by
  obtain ⟨_, _, _, _, _, _⟩ := hwall
  obtain ⟨⟨_, _, _, _⟩, _, _⟩ := h
  simp only [rows, longest] at *
  omega

/-- What lies on the wall is in range from the corner of anything else there. -/
theorem roomy_seenFrom (ha : a.LiesOn wall) (hb : b.LiesOn wall) : (a.seenFrom b).Roomy := by
  obtain ⟨_, _, _, _, _, _⟩ := hwall
  obtain ⟨⟨_, _, _, _⟩, _, _⟩ := ha
  obtain ⟨⟨_, _, _, _⟩, _, _⟩ := hb
  simp only [longest] at *
  constructor
  · constructor <;> simp only [seenFrom, roomyReach] <;> omega
  all_goals
    simp only [seenFrom, longest]
    omega

/-- The rectangle of everything a viewer sees. -/
theorem roomy_ofSize (h : r.LiesOn wall) : (Rect.ofSize r.columns r.rows).Roomy := by
  have hcolumns := h.columns_le hwall
  have hrows := h.rows_le hwall
  constructor
  · constructor <;> simp only [ofSize, clamped, ofSide, highest, roomyReach] <;> omega
  all_goals
    simp only [ofSize, clamped, ofSide, highest, longest]
    omega

/-- The rectangle of a size, moved to its place on the wall. -/
theorem answers_ofSize {x y : Int} {width height : Nat}
    (h : (⟨x, y, width, height⟩ : Rect).LiesOn wall) :
    Ends E (· = ⟨x, y, width, height⟩) ((Rect.ofSize width height).translate x y) := by
  obtain ⟨_, _, _, _, _, _⟩ := hwall
  obtain ⟨⟨_, _, _, _⟩, _, _⟩ := h
  simp only [longest] at *
  apply Rect.answers_ofSize
  all_goals
    simp only [Fits, lowest, highest] at *
    omega

end LiesOn

/-- The frame around some sources lies on the wall, or there are none. -/
def Frames (wall : Rect) (sources : List SourceRecord) (frame : Rect) : Prop :=
  sources = [] ∧ frame = .none ∨ frame.LiesOn wall

namespace Frames

variable {sources : List SourceRecord} {frame placement : Rect}

/-- One more source on the wall. -/
theorem answers_grow {E : Failure → Prop} (hwall : wall.IsWall) (h : wall.Frames sources frame)
    (hplacement : placement.LiesOn wall) (hpixels : ¬ placement.IsEmpty) :
    Ends E (·.LiesOn wall) (frame.grow placement) := by
  obtain ⟨-, rfl⟩ | hframe := h
  · rw [none_grow hpixels]
    exact hplacement
  · refine (hframe.answers_grow hwall.isSheet hplacement).imp ?_
    rintro _ rfl
    exact hframe.join hplacement

theorem roomy_ofSize (hwall : wall.IsWall) (h : wall.Frames sources frame) :
    (Rect.ofSize frame.columns frame.rows).Roomy := by
  obtain ⟨-, rfl⟩ | hframe := h
  · exact ⟨by decide, by decide, by decide⟩
  · exact hframe.roomy_ofSize hwall

end Frames

end Rect

/-! ## Masks and files -/

section Masks

variable {m : Type → Type} [Monad m] [MonadLiftT Outcome m] (L : Logic m IsProblem)
  {σ κ : Type} [Channel κ]

namespace Ownership

/-- A mask is made of planes of any size: a plane that does not fit its source is refused. -/
theorem ensures_mask_of_liesOn {sheet : Rect} (hsheet : sheet.IsSheet) {placements : List Rect}
    (hplacements : ∀ p ∈ placements, p.LiesOn sheet) {plane : Nat → m (Raster κ)}
    (hplane : ∀ i < placements.length, L.Ensures (fun _ => True) (plane i)) (index : Nat) :
    L.Ensures (fun _ => True) (mask index placements plane) := by
  unfold mask
  cases hplacement : placements[index]? with
  | none => exact L.lift (isProblem _)
  | some placement =>
    have hat := List.getElem?_eq_some_iff.mp hplacement
    have hmine := hplacements placement (List.mem_of_getElem? hplacement)
    refine L.bind (hplane index hat.1) fun mine _ =>
      L.bind (L.lift (ends_checkPlane (.inr isProblem))) fun _ _ =>
        L.bind (L.foldlM (I := fun _ _ => True) trivial fun _ rival kept hrival _ => ?_) fun _ _ =>
          L.pure trivial
    obtain ⟨its, other⟩ := rival
    have hrival := List.mem_zipIdx' hrival
    have hits := hplacements its (hrival.2 ▸ List.getElem_mem hrival.1)
    unfold contest
    by_cases hself : other = index
    · simp only [if_pos hself]
      exact L.pure trivial
    simp only [if_neg hself]
    apply L.bind_eq (L.lift (hmine.answers_intersects hsheet hits))
    by_cases hmeets : Rect.Meets placement its
    · simp only [hmeets, decide_true, Bool.not_true, Bool.false_eq_true, if_false]
      refine L.bind (hplane other hrival.1) fun theirs _ =>
        L.bind (L.lift (ends_checkPlane (.inr isProblem))) fun _ _ => ?_
      exact L.bind_eq (L.lift (hmine.answers_intersect hsheet hits)) (L.pure trivial)
    · simp only [hmeets, decide_false, Bool.not_false, if_true]
      exact L.pure trivial

end Ownership

variable {format : Format}

theorem Files.ends_loadImage (files : Files) (path : String) :
    Ends IsProblem (fun _ => True) (files.loadImage path : Outcome (Raster (Pixel format κ))) := by
  unfold Files.loadImage
  split
  · trivial
  · exact isProblem _

theorem Files.ends_loadMask (files : Files) (path : String) :
    Ends IsProblem (fun _ => True) (files.loadMask path : Outcome (Raster κ)) := by
  unfold Files.loadMask
  split
  · trivial
  · exact isProblem _

theorem Files.ends_deliver (files : Files) (path : String) (content : Content) :
    Ends IsProblem (fun _ => True) (files.deliver path content).1 := by
  unfold Files.deliver
  dsimp only
  split
  · exact isProblem _
  · split
    · exact isProblem _
    · trivial

theorem Files.ends_saveMask (files : Files) (path : String) (mask : Raster κ) :
    Ends IsProblem (fun _ => True) (files.saveMask path mask).1 := by
  unfold Files.saveMask Files.savePicture
  split
  · exact files.ends_deliver path _
  · exact (files.ends_deliver path _).bind fun _ _ => isProblem _

omit [Channel κ] in
theorem MaskStore.ends_reported {α : Type} (answer : Except Problem α) :
    Ends IsProblem (fun _ => True) (reported answer) := by
  cases answer with
  | ok value => trivial
  | error cause => exact isProblem cause

theorem MaskStore.ends_load (store : MaskStore σ κ) (own : σ) (files : Files) (index : Nat) :
    Ends IsProblem (fun _ => True) (store.load own files index) := by
  unfold MaskStore.load
  cases store with
  | memory masks =>
    dsimp only
    split
    · trivial
    · exact isProblem _
  | directory folder =>
    dsimp only
    split
    · exact files.ends_loadMask _
    · exact isProblem _
  | custom load save => exact ends_reported _

theorem MaskStore.ends_save (store : MaskStore σ κ) (own : σ) (files : Files) (index : Nat)
    (mask : Raster κ) : Ends IsProblem (fun _ => True) (store.save own files index mask).1 := by
  cases store with
  | memory masks => trivial
  | directory folder => exact files.ends_saveMask _ mask
  | custom load save => exact ends_reported _

end Masks

variable {σ κ : Type} [Channel κ] {format : Format}

/-! ## The world of a mosaic -/

/-- The store of masks exists, and the frame of the mosaic lies on the wall once it is fixed. -/
structure Workspace.Ready (wall : Rect) (mosaic store : Nat) (w : Workspace σ κ) : Prop where
  /-- There is a store of masks. -/
  masks : store < w.maskStores.size
  /-- The frame and the depth of the mosaic. -/
  geometry : ∀ geometry, w.geometry? mosaic = some geometry →
    geometry.frame.LiesOn wall ∧ geometry.levels ≤ 28

namespace Workspace.Ready

variable {wall : Rect} {mosaic store index : Nat} {w : Workspace σ κ}

theorem ends_loadMask (h : w.Ready wall mosaic store) :
    Ends IsProblem (fun _ => True) (w.loadMask store index) := by
  unfold loadMask
  rw [Array.getElem?_eq_getElem h.masks]
  exact MaskStore.ends_load _ _ _ _

theorem saveMask (h : w.Ready wall mosaic store) (mask : Raster κ) :
    Ends IsProblem (fun _ => True) (w.saveMask store index mask).1 ∧
      (w.saveMask store index mask).2.Ready wall mosaic store := by
  have hgeometries := w.geometries_saveMask store index mask
  unfold Workspace.saveMask at *
  rw [Array.getElem?_eq_getElem h.masks] at *
  refine ⟨MaskStore.ends_save _ _ _ _ _, ?_, h.geometry⟩
  simpa using h.masks

omit [Channel κ] in
theorem fix (h : w.Ready wall mosaic store) {geometry : Geometry}
    (hframe : geometry.frame.LiesOn wall) (hlevels : geometry.levels ≤ 28) :
    (w.fix mosaic geometry).Ready wall mosaic store := by
  refine ⟨h.masks, fun fixed hfixed => ?_⟩
  simp only [Workspace.fix, Workspace.geometry?, Array.getElem?_setIfInBounds_self] at hfixed
  split at hfixed
  · cases hfixed
    exact ⟨hframe, hlevels⟩
  · cases hfixed

end Workspace.Ready

/-! ## The images of a source -/

namespace Value

/-- The value is an image of pixels. -/
def IsPixels (P : Raster (Pixel format κ) → Prop) (v : Value format κ) : Prop :=
  ∃ raster, v = .pixels raster ∧ P raster

/-- The value is a plane. -/
def IsPlane (P : Raster κ → Prop) (v : Value format κ) : Prop :=
  ∃ plane, v = Value.plane plane ∧ P plane

/-- The value is a pyramid. -/
def IsPyramid (P : Pyramid format κ → Prop) (v : Value format κ) : Prop :=
  ∃ bands, v = Value.pyramid bands ∧ P bands

end Value

/-- A pyramid is built over a placement in range, unless the mask has another size or there are no
levels. -/
theorem Pyramid.ends_build_of_roomy {source : Raster (Pixel format κ)} {placement : Rect}
    (hsource : source.Fills placement) (hplacement : placement.Roomy) (columns rows : Nat)
    (mask : Raster κ) (levels : Nat) (fillHoles : Bool) :
    Ends IsProblem Pyramid.Roomy (build source placement columns rows mask levels fillHoles) := by
  by_cases hfit : 0 < levels ∧ mask.width = source.width ∧ mask.height = source.height
  · obtain ⟨hlevels, hwidth, hheight⟩ := hfit
    exact answers_build hplacement ⟨hlevels, hsource, hsource.1.trans hwidth.symm,
      hsource.2.trans hheight.symm⟩ columns rows fillHoles
  · unfold build
    by_cases hzero : levels = 0
    · rw [if_pos hzero]
      exact isProblem _
    · have hsize : mask.width ≠ source.width ∨ mask.height ≠ source.height := by
        by_contra hsame
        simp only [not_or, not_not] at hsame
        exact hfit ⟨Nat.pos_of_ne_zero hzero, hsame⟩
      rw [if_neg hzero, if_pos hsize]
      exact isProblem _

section Images

variable {T : Promise (Value format κ)} {I : Workspace σ κ → Prop} {limit : Nat} {h : Handle}

namespace Making

omit [Channel κ] in
theorem sturdy_pixels {P : Raster (Pixel format κ) → Prop} (hh : h.index < limit)
    (hT : ∀ v, T h v → v.IsPixels P) :
    (Making.pixels h : Making σ format κ _).Sturdy T I limit P := by
  refine (Recipe.Sturdy.fetch hh).bind fun v hv => ?_
  obtain ⟨raster, rfl, hraster⟩ := hT v hv
  exact hraster

omit [Channel κ] in
theorem sturdy_plane {P : Raster κ → Prop} (hh : h.index < limit)
    (hT : ∀ v, T h v → v.IsPlane P) :
    (Making.plane h : Making σ format κ _).Sturdy T I limit P := by
  refine (Recipe.Sturdy.fetch hh).bind fun v hv => ?_
  obtain ⟨plane, rfl, hplane⟩ := hT v hv
  exact hplane

omit [Channel κ] in
theorem sturdy_pyramid {P : Pyramid format κ → Prop} (hh : h.index < limit)
    (hT : ∀ v, T h v → v.IsPyramid P) :
    (Making.pyramid h : Making σ format κ _).Sturdy T I limit P := by
  refine (Recipe.Sturdy.fetch hh).bind fun v hv => ?_
  obtain ⟨bands, rfl, hbands⟩ := hT v hv
  exact hbands

end Making

namespace Composite

variable {wall placement : Rect}

omit [Channel κ] in
theorem sturdy_pixelsRecipe {view : View (Making σ format κ) (Pixel format κ)}
    (hview : view.rasterizeAll.Sturdy T I limit fun _ => True)
    (hcolumns : placement.columns = view.width) (hrows : placement.rows = view.height) :
    (pixelsRecipe view).Sturdy T I limit (Value.IsPixels (·.Fills placement)) := by
  refine hview.bind fun raster _ => ?_
  by_cases hsize : raster.width ≠ view.width ∨ raster.height ≠ view.height
  · rw [if_pos hsize]
    exact isProblem _
  · rw [if_neg hsize]
    simp only [not_or, not_not] at hsize
    exact ⟨raster, rfl, hcolumns.trans hsize.1.symm, hrows.trans hsize.2.symm⟩

theorem sturdy_alphaRecipe (hh : h.index < limit)
    (hT : ∀ v, T h v → v.IsPixels (·.Fills placement)) :
    (alphaRecipe h : Making σ format κ _).Sturdy T I limit (Value.IsPlane (·.Fills placement)) :=
  (Making.sturdy_pixels hh hT).bind fun raster hraster =>
    (Recipe.Sturdy.demote h).bind fun _ _ => ⟨raster.alphaPlane, rfl, hraster⟩

theorem sturdy_distanceRecipe (hh : h.index < limit)
    (hT : ∀ v, T h v → v.IsPlane (·.Fills placement)) (hwall : wall.IsWall)
    (hplacement : placement.LiesOn wall) :
    (distanceRecipe h : Making σ format κ _).Sturdy T I limit (Value.IsPlane fun _ => True) := by
  refine (Making.sturdy_plane hh hT).bind fun alpha halpha => ?_
  have hcolumns := hplacement.columns_le hwall
  have hrows := hplacement.rows_le hwall
  rw [halpha.1] at hcolumns
  rw [halpha.2] at hrows
  have hroom : Ends IsProblem (fun _ => True) (grassfire alpha) :=
    (Raster.answers_allocate Channel.slim hcolumns hrows).bind fun _ _ => trivial
  exact (Recipe.Sturdy.lift hroom).bind fun plane _ => ⟨plane, rfl, trivial⟩

theorem sturdy_pyramidRecipe {mosaic store : Nat} (index : Nat) (hh : h.index < limit)
    (hT : ∀ v, T h v → v.IsPixels (·.Fills placement)) (hwall : wall.IsWall)
    (hplacement : placement.LiesOn wall) :
    (pyramidRecipe mosaic store index placement h : Making σ format κ _).Sturdy T
      (Workspace.Ready wall mosaic store) limit (Value.IsPyramid Pyramid.Roomy) := by
  unfold pyramidRecipe
  refine (Recipe.Sturdy.observe _).bind fun geometry? hgeometry => ?_
  cases geometry? with
  | none => exact Recipe.Sturdy.lift (isProblem _)
  | some geometry =>
    obtain ⟨w, hw, hgeometry⟩ := hgeometry
    have hframe := (hw.geometry geometry hgeometry).1
    refine (Making.sturdy_pixels hh hT).bind fun raster hraster =>
      (Recipe.Sturdy.demote h).bind fun _ _ =>
        (Recipe.Sturdy.observe _).bind fun loaded hloaded => ?_
    obtain ⟨w', hw', rfl⟩ := hloaded
    refine (Recipe.Sturdy.lift hw'.ends_loadMask).bind fun mask _ =>
      (Recipe.Sturdy.lift (hplacement.answers_relativeTo hwall.isSheet hwall.left hwall.top
        hframe)).bind ?_
    rintro _ rfl
    have hfills : raster.Fills (placement.seenFrom geometry.frame) := hraster
    have hbuild := Pyramid.ends_build_of_roomy hfills
      (hplacement.roomy_seenFrom hwall hframe)
      geometry.frame.columns geometry.frame.rows mask geometry.levels geometry.fillHoles
    exact (Recipe.Sturdy.lift hbuild).bind fun bands hbands => ⟨bands, rfl, hbands⟩

end Composite

end Images

/-! ## The sources of a mosaic -/

/-- What is promised of a source: its images are of their kinds, and registered. -/
structure SourceRecord.Promised (wall : Rect) (T : Promise (Value format κ)) (limit : Nat)
    (s : SourceRecord) : Prop where
  /-- The source lies on the wall. -/
  placement : s.placement.LiesOn wall
  /-- Its pixels. -/
  pixels : s.pixels.index < limit ∧ ∀ v, T s.pixels v → v.IsPixels (·.Fills s.placement)
  /-- Its coverage. -/
  alpha : s.alpha.index < limit ∧ ∀ v, T s.alpha v → v.IsPlane (·.Fills s.placement)
  /-- The depth of its pixels. -/
  distance : s.distance.index < limit ∧ ∀ v, T s.distance v → v.IsPlane fun _ => True
  /-- Its bands. -/
  pyramid : s.pyramid.index < limit ∧ ∀ v, T s.pyramid v → v.IsPyramid Pyramid.Roomy

omit [Channel κ] in
/-- More may be promised, and more be registered. -/
theorem SourceRecord.Promised.mono {wall : Rect} {T T' : Promise (Value format κ)}
    {limit limit' : Nat} {s : SourceRecord} (h : s.Promised wall T limit)
    (hT : ∀ h v, T' h v → T h v) (hlimit : limit ≤ limit') : s.Promised wall T' limit' := by
  obtain ⟨hplacement, hpixels, halpha, hdistance, hpyramid⟩ := h
  refine ⟨hplacement, ⟨?_, ?_⟩, ⟨?_, ?_⟩, ⟨?_, ?_⟩, ?_, ?_⟩
  · exact Nat.lt_of_lt_of_le hpixels.1 hlimit
  · exact fun v hv => hpixels.2 v (hT _ v hv)
  · exact Nat.lt_of_lt_of_le halpha.1 hlimit
  · exact fun v hv => halpha.2 v (hT _ v hv)
  · exact Nat.lt_of_lt_of_le hdistance.1 hlimit
  · exact fun v hv => hdistance.2 v (hT _ v hv)
  · exact Nat.lt_of_lt_of_le hpyramid.1 hlimit
  · exact fun v hv => hpyramid.2 v (hT _ v hv)

namespace Composite

/-- What is promised of a mosaic. -/
structure Promised (wall : Rect) (T : Promise (Value format κ)) (limit : Nat) (c : Composite) :
    Prop where
  /-- Where it lies. -/
  isWall : wall.IsWall
  /-- Its images belong to the first cache. -/
  cache : c.cache = 0
  /-- Its sources are as promised. -/
  sources : ∀ s ∈ c.sources, s.Promised wall T limit
  /-- The viewer's frame lies on the wall. -/
  viewFrame : wall.Frames c.sources c.viewFrame
  /-- So does the frame of the data. -/
  dataFrame : wall.Frames c.sources c.dataFrame
  /-- The smallest side is a coordinate. -/
  smallestSide : c.sources ≠ [] → c.smallestSide < 2147483648

/-- The mosaic never breaks in this store. -/
def Sturdy (wall : Rect) (c : Composite) (studio : Studio σ format κ) : Prop :=
  ∃ T, c.Promised wall T studio.catalogue.size ∧
    studio.Sturdy T (Workspace.Ready wall c.number c.maskStore)

/-- The bytes that are declared for the images of a source. -/
def declaredBytes (format : Format) (κ : Type) [Channel κ] (width height : Nat) : Nat :=
  let pixelBytes := planeBytes width height (Cell.bytes (Pixel format κ))
  let planeBytes := planeBytes width height (Cell.bytes κ)
  pixelBytes + planeBytes + planeBytes + Pyramid.estimatedBytes pixelBytes

variable {c : Composite} {studio : Studio σ format κ} {T : Promise (Value format κ)}
  {view : View (Making σ format κ) (Pixel format κ)} {wall placement : Rect}

/-- What is promised of the images of a source whose first handle has a number. -/
def granted (T : Promise (Value format κ)) (number : Nat) (placement : Rect) :
    Promise (Value format κ) :=
  (((T.grant ⟨number⟩ (Value.IsPixels (·.Fills placement))).grant ⟨number + 1⟩
    (Value.IsPlane (·.Fills placement))).grant ⟨number + 2⟩
    (Value.IsPlane fun _ => True)).grant ⟨number + 3⟩ (Value.IsPyramid Pyramid.Roomy)

omit [Channel κ] in
/-- A new mosaic in a store with a new cache. -/
theorem sturdy_create (hwall : wall.IsWall) {world : Workspace σ κ} {store : Nat}
    (hstore : store < world.maskStores.size) (budget : Nat) (options : Options) :
    let studio : Studio σ format κ := ((Cache.Store.empty world).newCache budget).2
    (create studio 0 store options).1.Sturdy wall (create studio 0 store options).2 ∧
      (create studio 0 store options).2.world.files = world.files ∧
      (create studio 0 store options).2.declared = 0 := by
  intro studio
  have hbefore : world.Ready wall world.geometries.size store := by
    refine ⟨hstore, fun geometry hgeometry => ?_⟩
    simp [Workspace.geometry?] at hgeometry
  let reserve (w : Workspace σ κ) : Workspace σ κ := { w with geometries := w.geometries.push none }
  have hafter : (reserve world).Ready wall world.geometries.size store := by
    refine ⟨hstore, fun geometry hgeometry => ?_⟩
    simp [reserve, Workspace.geometry?] at hgeometry
  have S : studio.Sturdy (fun _ _ => True) (Workspace.Ready wall world.geometries.size store) :=
    .empty hbefore budget
  have hamended : (studio.amend reserve).Sturdy (fun _ _ => True)
      (Workspace.Ready wall world.geometries.size store) := S.amend hafter
  have hnone : wall.Frames [] .none := .inl ⟨rfl, rfl⟩
  exact ⟨⟨fun _ _ => True, ⟨hwall, rfl, List.forall_mem_nil _, hnone, hnone,
    fun h => absurd rfl h⟩, hamended⟩, rfl, rfl⟩

/-- The images of a source are registered as promised. -/
theorem sturdy_enrol (C : c.Promised wall T studio.catalogue.size)
    (S : studio.Sturdy T (Workspace.Ready wall c.number c.maskStore))
    (hview : ∀ {T limit}, view.rasterizeAll.Sturdy T (Workspace.Ready wall c.number c.maskStore)
      limit fun _ => True)
    (hplacement : placement.LiesOn wall) (hcolumns : placement.columns = view.width)
    (hrows : placement.rows = view.height)
    (hroom : studio.declared + declaredBytes format κ view.width view.height ≤ wordMax) :
    (c.enrol studio view placement).Sturdy (granted T studio.catalogue.size placement)
      (Workspace.Ready wall c.number c.maskStore) := by
  simp only [declaredBytes] at hroom
  have before : ∀ (i : Nat) {j : Nat}, i < j → ∀ g ∈ [(⟨i⟩ : Handle)], g.index < j :=
    fun i j hij => List.forall_mem_singleton.mpr hij
  generalize hnumber : studio.catalogue.size = number at *
  have S1 := S.insert number hnumber (sturdy_pixelsRecipe hview hcolumns hrows)
    (planeBytes view.width view.height (Cell.bytes (Pixel format κ))) (List.forall_mem_nil _)
    (by omega)
  have S2 := S1.insert (number + 1) (by rw [Cache.Store.size_insert, hnumber])
    (sturdy_alphaRecipe (h := ⟨number⟩) (Nat.lt_succ_self number) fun v hv => hv.2 rfl)
    (planeBytes view.width view.height (Cell.bytes κ)) (before number (Nat.lt_succ_self number))
    (by rw [Cache.Store.declared_insert]; omega)
  have S3 := S2.insert (number + 2) (by simp only [Cache.Store.size_insert, hnumber])
    (sturdy_distanceRecipe (h := ⟨number + 1⟩) (Nat.lt_succ_self (number + 1))
      (fun v hv => hv.2 rfl) C.isWall hplacement)
    (planeBytes view.width view.height (Cell.bytes κ)) (before (number + 1) (Nat.lt_succ_self _))
    (by simp only [Cache.Store.declared_insert]; omega)
  have S4 := S3.insert (number + 3) (by simp only [Cache.Store.size_insert, hnumber])
    (sturdy_pyramidRecipe (h := ⟨number⟩) c.sources.length (by simp) (fun v hv => hv.1.1.2 rfl)
      C.isWall hplacement)
    (Pyramid.estimatedBytes (planeBytes view.width view.height (Cell.bytes (Pixel format κ))))
    (before number (by omega)) (by simp only [Cache.Store.declared_insert]; omega)
  simpa only [enrol, C.cache, hnumber, granted] using S4

omit [Channel κ] in
theorem promised_numbered {number : Nat} (hplacement : placement.LiesOn wall) :
    (numbered placement number).Promised wall (granted T number placement) (number + 4) := by
  refine ⟨hplacement, ⟨?_, ?_⟩, ⟨?_, ?_⟩, ⟨?_, ?_⟩, ?_, ?_⟩
  · simp [numbered]
  · exact fun v hv => hv.1.1.1.2 rfl
  · simp [numbered]
  · exact fun v hv => hv.1.1.2 rfl
  · simp [numbered]
  · exact fun v hv => hv.1.2 rfl
  · simp [numbered]
  · exact fun v hv => hv.2 rfl

/-- **Adding a source** on the wall does not break, and leaves a mosaic that never breaks. -/
theorem sturdy_insert (C : c.Sturdy wall studio)
    (hview : ∀ {T I limit}, view.rasterizeAll.Sturdy T I limit fun _ => True) {x y : Int}
    (hplace : (⟨x, y, view.width, view.height⟩ : Rect).LiesOn wall)
    (hroom : studio.declared + declaredBytes format κ view.width view.height ≤ wordMax) :
    Ends IsProblem (fun added => added.2.1.Sturdy wall added.2.2 ∧ added.2.2.world = studio.world ∧
        added.2.2.declared = studio.declared + declaredBytes format κ view.width view.height)
      (c.insert studio view x y) := by
  obtain ⟨T, C, S⟩ := C
  have hcolumns : (⟨x, y, view.width, view.height⟩ : Rect).columns = view.width := rfl
  have hrows : (⟨x, y, view.width, view.height⟩ : Rect).rows = view.height := rfl
  rw [insert_eq]
  by_cases hlate : (c.geometry? studio.world).isSome
  · rw [if_pos hlate]
    exact isProblem _
  rw [if_neg hlate]
  refine (hplace.answers_ofSize C.isWall).bind_eq ?_
  by_cases hempty : (⟨x, y, view.width, view.height⟩ : Rect).IsEmpty
  · rw [if_pos hempty]
    exact isProblem _
  rw [if_neg hempty]
  refine (C.viewFrame.answers_grow C.isWall hplace hempty).bind fun viewFrame hviewFrame => ?_
  refine (C.dataFrame.answers_grow C.isWall hplace hempty).bind fun dataFrame hdataFrame => ?_
  refine ⟨⟨granted T studio.catalogue.size _, ⟨C.isWall, C.cache, ?_, .inr hviewFrame,
    .inr hdataFrame, fun _ => ?_⟩, sturdy_enrol C S hview hplace hcolumns hrows hroom⟩, ?_,
    (declared_enrol c studio view _).trans (by simp only [declaredBytes]; omega)⟩
  · have hsize : (c.enrol studio view ⟨x, y, view.width, view.height⟩).catalogue.size =
        studio.catalogue.size + 4 := by
      simp only [enrol, Cache.Store.size_insert]
    rw [hsize]
    refine List.forall_mem_append.mpr ⟨fun s hs => ?_, List.forall_mem_singleton.mpr ?_⟩
    · exact (C.sources s hs).mono (fun _ _ hv => hv.1.1.1.1) (Nat.le_add_right _ _)
    · exact promised_numbered hplace
  · have hside : (⟨x, y, view.width, view.height⟩ : Rect).columns ≤ 759250124 :=
      hplace.columns_le C.isWall
    exact Nat.lt_of_le_of_lt (Nat.min_le_right _ _)
      (Nat.lt_of_le_of_lt (Nat.min_le_left _ _) (Nat.lt_of_le_of_lt hside (by decide)))
  · simp only [enrol, Cache.Store.world_insert]

/-! ## Preparing and rendering -/

variable {limit : Nat}

/-- Making the masks does not break, in whatever order. -/
theorem sturdy_makeMasks (C : c.Promised wall T limit) (schedule : Schedule) :
    (c.makeMasks schedule : Making σ format κ Unit).Sturdy T
      (Workspace.Ready wall c.number c.maskStore) limit fun _ => True := by
  let L := Recipe.sturdy T
    (Workspace.Ready wall c.number c.maskStore : Workspace σ κ → Prop) limit
  have hplacements : ∀ p ∈ c.sources.map (·.placement), p.LiesOn wall := by
    intro p hp
    obtain ⟨s, hs, rfl⟩ := List.mem_map.mp hp
    exact (C.sources s hs).placement
  have hplane : ∀ i < (c.sources.map (·.placement)).length,
      L.Ensures (fun _ => True) (c.distancePlane i) := by
    intro i hi
    rw [List.length_map] at hi
    have hdistance := (C.sources _ (List.getElem_mem hi)).distance
    unfold distancePlane
    rw [List.getElem?_eq_getElem hi]
    exact Making.sturdy_plane hdistance.1 hdistance.2
  unfold makeMasks Ownership.generate
  refine L.bind (P := fun _ => True) (L.bind (Recipe.interruptible_sturdy.pool_map
    (R := fun _ _ => True) schedule fun index _ => ?_) fun _ _ => L.pure trivial)
    fun _ _ => L.forM fun source _ => trivial
  exact L.bind (Ownership.ensures_mask_of_liesOn L C.isWall.isSheet hplacements hplane index)
    fun mask _ => Recipe.Sturdy.act fun w hw => hw.saveMask mask

/-- What preparing does before the geometry is fixed does not break, and it gets to the end only if
there are sources. -/
theorem sturdy_groundwork (C : c.Promised wall T limit) (schedule : Schedule)
    (total : Option Rect) :
    (c.groundwork schedule total : Making σ format κ Unit).Sturdy T
      (Workspace.Ready wall c.number c.maskStore) limit fun _ => c.sources ≠ [] := by
  unfold groundwork
  refine (Recipe.Sturdy.observe _).bind fun prepared _ => ?_
  by_cases htwice : prepared.isSome
  · rw [if_pos htwice]
    exact isProblem _
  rw [if_neg htwice]
  by_cases hnone : c.sources.isEmpty
  · rw [if_pos hnone]
    exact isProblem _
  rw [if_neg hnone]
  by_cases hframe : total.isSome ∧ (total.getD c.viewFrame).IsEmpty
  · rw [if_pos hframe]
    exact isProblem _
  rw [if_neg hframe]
  have hsources : c.sources ≠ [] := by simpa using hnone
  by_cases hmake : (!c.options.draft && !c.options.reuseMasks) = true
  · simp only [if_pos hmake]
    exact (sturdy_makeMasks C schedule).mono (fun _ _ => id) (Nat.le_refl _) fun _ _ => hsources
  · simp only [if_neg hmake]
    exact hsources

/-- **Preparing** does not break, and leaves a mosaic that never breaks. -/
theorem sturdy_prepare (C : c.Sturdy wall studio) (schedule : Schedule) {total : Option Rect}
    (htotal : ∀ frame, total = some frame → frame.LiesOn wall) :
    Ends IsProblem (·.Sturdy wall (studio.perform (c.prepare schedule total)).2)
      (studio.perform (c.prepare schedule total)).1 := by
  obtain ⟨T, C, S⟩ := C
  have hframe (hsources : c.sources ≠ []) : (total.getD c.viewFrame).LiesOn wall := by
    cases total with
    | none => exact C.viewFrame.resolve_left fun hnone => hsources hnone.1
    | some frame => exact htotal frame rfl
  have hprepare : (c.prepare schedule total : Making σ format κ Composite).Sturdy T
      (Workspace.Ready wall c.number c.maskStore) studio.catalogue.size
      (fun c' => c' = { c with viewFrame := total.getD c.viewFrame } ∧ c.sources ≠ []) := by
    rw [prepare_eq]
    refine (sturdy_groundwork C schedule total).bind fun _ hsources =>
      (Recipe.Sturdy.amend fun w hw => ?_).bind fun _ _ => ⟨rfl, hsources⟩
    exact hw.fix (hframe hsources) (Pyramid.depth_le (C.smallestSide hsources)).2
  obtain ⟨hanswer, S'⟩ := S.perform hprepare
  refine hanswer.imp ?_
  rintro _ ⟨rfl, hsources⟩
  exact ⟨T, ⟨C.isWall, C.cache, C.sources, .inr (hframe hsources), C.dataFrame, C.smallestSide⟩, S'⟩

/-- A source of a patch gives bands and parts of its pixels. -/
theorem sturdy_patchSource (hwall : wall.IsWall) {geometry : Geometry}
    (hframe : geometry.frame.LiesOn wall) {s : SourceRecord} (hs : s.Promised wall T limit)
    {I : Workspace σ κ → Prop} :
    (patchSource geometry s : Making σ format κ _).Sturdy T I limit fun source =>
      source.Blendable (Recipe.sturdy T I limit) ∧ source.Draftable (Recipe.sturdy T I limit) := by
  have hplacement := hs.placement.roomy_seenFrom hwall hframe
  unfold patchSource
  refine (Recipe.Sturdy.lift (hs.placement.answers_relativeTo hwall.isSheet hwall.left hwall.top
    hframe)).bind ?_
  rintro _ rfl
  refine (Recipe.Sturdy.statusOf s.pyramid).bind fun status _ =>
    ⟨⟨hplacement, ?_, ?_⟩, ⟨hplacement, fun part hpart hsub => ?_⟩⟩
  · exact Making.sturdy_pyramid hs.pyramid.1 hs.pyramid.2
  · exact (Making.sturdy_plane hs.alpha.1 hs.alpha.2).mono (fun _ _ => id) (Nat.le_refl _)
      fun _ _ => trivial
  · refine (Making.sturdy_pixels hs.pixels.1 hs.pixels.2).bind fun raster _ => ?_
    have hslim : Cell.Slim (Pixel format κ) := Pixel.slim
    have hroom := Raster.room_of_le hslim hplacement.columns_le hplacement.rows_le
    rw [Raster.region_seenFrom raster hpart hsub hplacement.sized hroom]
    exact Raster.fills_cut raster _

/-- **Rendering** a rectangle in range does not break. -/
theorem sturdy_render (C : c.Sturdy wall studio) {area : Rect} (harea : area.Roomy) :
    Ends IsProblem (·.Fills area) (studio.perform (c.render area)).1 := by
  obtain ⟨T, C, S⟩ := C
  let L := Recipe.sturdy T
    (Workspace.Ready wall c.number c.maskStore : Workspace σ κ → Prop) studio.catalogue.size
  have hrender : L.Ensures (·.Fills area) (c.render area : Making σ format κ _) := by
    unfold render
    refine L.bind (Recipe.Sturdy.observe _) fun geometry? hgeometry => ?_
    cases geometry? with
    | none => exact L.lift (isProblem _)
    | some geometry =>
      obtain ⟨w, hw, hgeometry⟩ := hgeometry
      obtain ⟨hframe, hlevels⟩ := hw.geometry geometry hgeometry
      refine L.bind (L.mapM_all fun s hs => sturdy_patchSource C.isWall hframe (C.sources s hs))
        fun sources hsources => ?_
      dsimp only
      split
      · exact Patch.ensures_draft_of_roomy L harea fun s hs => (hsources s hs).2
      · exact Patch.ensures_blend_of_roomy L harea hlevels fun s hs => (hsources s hs).1
  exact (S.perform hrender).1

end Composite

end Patchwork
