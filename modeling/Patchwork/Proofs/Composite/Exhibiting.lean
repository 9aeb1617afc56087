import Patchwork.Proofs.Composite.Assembling
import Patchwork.Proofs.Composite.Steady

/-!
# Exhibiting mosaics of fixed images

Preparing a mosaic of fixed images decides its geometry and its masks.  Both depend on the sources
and on what was asked for, and on nothing else: the masks are made out of distance planes that the
cache may evict at any time, but a pixel has one owner.  From then on every image of the mosaic is
pledged.  Rendering, at once or in tiles, for good or in vain, only drifts, and clearing the cache
takes away what can be made again.

So a rectangle that is blended is the same image for any budget and after any history.

## Main definitions

* `Commission` — what is asked for when a mosaic is prepared.
* `Composite.Exhibited` — how a mosaic of fixed images is prepared and used.

## Main statements

* `Commission.Settles.render_eq` — what is asked for decides every rectangle.
* `Composite.Exhibited.exhibition` — what stays while a mosaic is used.
* `Composite.blends_alike` — a blend does not depend on the order of the sources, nor on the cache.
-/

namespace Patchwork

open Cache (Handle Pledge Drift Recipe Schedule)
open Cache.Recipe (Mirrors mirror)
open Channel Outcome

/-- Computations that agree on a list. -/
theorem mapM_congr {m : Type → Type} [Monad m] [LawfulMonad m] {α β : Type}
    {f g : α → m β} {l : List α} (h : ∀ a ∈ l, f a = g a) : l.mapM f = l.mapM g := by
  induction l with
  | nil => rfl
  | cons a l ih =>
    obtain ⟨ha, hl⟩ := List.forall_mem_cons.mp h
    rw [List.mapM_cons, List.mapM_cons, ha, ih hl]

variable {σ κ : Type} [Channel κ] {format : Format}

/-! ## What is asked for -/

namespace Still

/-- The pixels of a source, if there are any. -/
def raster (still : Still format κ) : Raster (Pixel format κ) :=
  still.pixels.toOption.getD (Raster.zeros 0 0)

/-- The sources with their pixels, if there are any. -/
def pieces (stills : List (Still format κ)) : List (Piece format κ) :=
  stills.map fun still => ⟨still.placement, still.raster⟩

/-- If there are depths, they are those of the pixels. -/
theorem eq_distances {still : Still format κ} {plane : Raster κ} (h : still.distance = .ok plane) :
    plane = Grassfire.distances still.raster.alphaPlane := by
  obtain ⟨alpha, halpha, h⟩ := bind_eq_ok_iff.mp h
  obtain ⟨raster, hraster, halpha⟩ := bind_eq_ok_iff.mp halpha
  cases halpha
  have heq : still.raster = raster := by
    simp only [Still.raster, hraster, Except.toOption, Option.getD_some]
  rw [heq]
  exact (Grassfire.ends_grassfire raster.alphaPlane).of_ok h

end Still

/-- What is asked for when a mosaic is prepared. -/
structure Commission (κ : Type) where
  /-- The frame, if not that of the sources. -/
  total : Option Rect
  /-- Transparent pixels are holes to fill. -/
  fillHoles : Bool
  /-- The masks, if none are made. -/
  masks : Option (Nat → Outcome (Raster κ))

/-- What is asked for leads to this geometry and these masks. -/
structure Commission.Settles (commission : Commission κ) (stills : List (Still format κ))
    (stage : Stage κ) : Prop where
  /-- The frame is the one that is asked for or that of the sources, and the smallest of these
  decides the depth. -/
  geometry : ∃ frame, Still.frame stills = .ok frame ∧
    stage.geometry = ⟨commission.total.getD frame, Pyramid.depth (Still.smallestSide stills),
      commission.fillHoles⟩
  /-- Masks that are given. -/
  given : ∀ masks, commission.masks = some masks → stage.masks = masks
  /-- Masks that are made. -/
  made : commission.masks = none → ∀ (i : Nat) piece, (Still.pieces stills)[i]? = some piece →
    ∃ mask, stage.masks i = .ok mask ∧
      Ownership.IsMask ((Still.pieces stills).map (·.placement))
        (Piece.planes (Still.pieces stills)) i piece.placement mask

namespace Commission.Settles

variable {commission : Commission κ} {stills : List (Still format κ)} {stage other : Stage κ}

theorem masks_eq (h : commission.Settles stills stage) (h' : commission.Settles stills other)
    {i : Nat} {still : Still format κ} (hi : stills[i]? = some still) :
    stage.masks i = other.masks i := by
  cases hgiven : commission.masks with
  | some masks => rw [h.given masks hgiven, h'.given masks hgiven]
  | none =>
    have hpiece : (Still.pieces stills)[i]? = some ⟨still.placement, still.raster⟩ := by
      rw [Still.pieces, List.getElem?_map, hi]
      rfl
    obtain ⟨mask, hload, hmask⟩ := h.made hgiven i _ hpiece
    obtain ⟨mask', hload', hmask'⟩ := h'.made hgiven i _ hpiece
    rw [hload, hload', hmask.unique hmask']

/-- **What is asked for decides every rectangle.** -/
theorem render_eq (h : commission.Settles stills stage) (h' : commission.Settles stills other)
    (area : Rect) : Still.render stills stage area = Still.render stills other area := by
  have hgeometry : stage.geometry = other.geometry := by
    obtain ⟨frame, hframe, hgeometry⟩ := h.geometry
    obtain ⟨frame', hframe', hgeometry'⟩ := h'.geometry
    obtain rfl := Except.ok.inj (hframe.symm.trans hframe')
    rw [hgeometry, hgeometry']
  have hprints : Still.prints stills stage = Still.prints stills other := by
    apply mapM_congr
    rintro ⟨still, index⟩ hmem
    have hmasks := masks_eq h h' (List.mem_zipIdx_iff_getElem?.mp hmem)
    simp only [Still.print, Still.pyramid, hgeometry, hmasks]
  simp only [Still.render, hprints, hgeometry]

end Commission.Settles

/-! ## Preparing -/

namespace Composite

variable {Fits : Workspace σ κ → Prop} {store : Nat}
  {O : Option (Stage κ) → Pledge (Value format κ)}
  {stage : Stage κ} {c c' : Composite} {studio studio' : Studio σ format κ}
  {stills : List (Still format κ)}

/-- The source with a number. -/
theorem exists_still (hprints : List.Forall₂ (Prints O) stills.zipIdx c.sources) {i : Nat}
    {source : SourceRecord} (hsource : c.sources[i]? = some source) :
    ∃ still, stills[i]? = some still ∧ Prints O (still, i) source := by
  obtain ⟨hlt, rfl⟩ := List.getElem?_eq_some_iff.mp hsource
  have hlt' : i < stills.zipIdx.length := hprints.length_eq.symm ▸ hlt
  have hprint := hprints.get hlt' hlt
  rw [List.length_zipIdx] at hlt'
  refine ⟨stills[i], List.getElem?_eq_getElem hlt', ?_⟩
  simpa using hprint

/-- The distance planes that are pledged are those of the sources. -/
theorem stocked_pieces (hprints : List.Forall₂ (Prints O) stills.zipIdx c.sources) :
    Stocked (O none).promise c (Still.pieces stills) := by
  have hlength : c.sources.length = stills.length := by
    rw [← hprints.length_eq, List.length_zipIdx]
  refine ⟨?_, ?_⟩
  · apply List.ext_getElem?
    intro i
    rw [Still.pieces, List.map_map, List.getElem?_map, List.getElem?_map]
    cases hsource : c.sources[i]? with
    | none =>
      rw [List.getElem?_eq_none_iff, hlength] at hsource
      rw [List.getElem?_eq_none hsource]
      rfl
    | some source =>
      obtain ⟨still, hstill, hprint⟩ := exists_still hprints hsource
      rw [hstill]
      exact congrArg some hprint.placement
  · intro i source piece hsource hpiece v hv
    obtain ⟨still, hstill, hprint⟩ := exists_still hprints hsource
    rw [Still.pieces, List.getElem?_map, hstill] at hpiece
    cases hpiece
    have hvalue := hv _ (hprint.distance none)
    cases hdistance : still.distance with
    | error cause =>
      rw [hdistance] at hvalue
      cases hvalue
    | ok plane =>
      rw [hdistance] at hvalue
      cases hvalue
      rw [Still.eq_distances hdistance]

/-- What a prepared mosaic of fixed images relies on. -/
structure Exhibition (Fits : Workspace σ κ → Prop) (store : Nat)
    (O : Option (Stage κ) → Pledge (Value format κ)) (stage : Stage κ) (c : Composite)
    (studio : Studio σ format κ) (stills : List (Still format κ)) : Prop where
  /-- The store makes what it pledges. -/
  pledged : studio.Pledged O (Workspace.course Fits c.number store) (some stage)
  /-- The images of its sources are pledged. -/
  prints : List.Forall₂ (Prints O) stills.zipIdx c.sources
  /-- Its cache is the only one. -/
  cache : c.cache = 0

omit [Channel κ] in
/-- A geometry that is fixed can be read. -/
theorem geometry_fix {w : Workspace σ κ} {number : Nat} (h : w.geometries[number]? = some none)
    (geometry : Geometry) : Workspace.geometry? (w.fix number geometry) number = some geometry := by
  have hlt := (Array.getElem?_eq_some_iff.mp h).1
  rw [Workspace.geometry?, Workspace.fix, Array.getElem?_setIfInBounds_self_of_lt hlt,
    Option.getD_some]

/-- **Preparing passes to the stage** of the geometry that is fixed and the masks that are there. -/
theorem Assembly.prepare (A : Assembly Fits store O c studio stills)
    (hfix : ∀ w geometry, Fits w → Fits (w.fix c.number geometry)) {schedule : Schedule}
    {total : Option Rect} {Q : Workspace σ κ → Prop}
    (hground : (c.groundwork schedule total : Making σ format κ Unit).Ensures (O none).promise
      (Workspace.course Fits c.number store none) (fun _ => True) (fun _ => Q) studio.world)
    (hprepare : studio.perform (c.prepare schedule total) = (.ok c', studio')) :
    ∃ w, Q w ∧ Exhibition Fits store O ⟨c.geometryFor total, w.loadMask store⟩ c' studio'
      stills := by
  rw [prepare_eq] at hprepare
  obtain ⟨⟨⟩, mid, hperform, hrest⟩ := Cache.Store.perform_bind_eq_ok hprepare
  obtain ⟨S, -, hdone, -⟩ := A.pledged.perform_ensures hground hperform
  cases hrest
  have S' : (mid.amend fun w => w.fix c.number (c.geometryFor total)).Pledged O
      (Workspace.course Fits c.number store)
      (some ⟨c.geometryFor total, mid.world.loadMask store⟩) :=
    S.turn ⟨hfix _ _ S.fits.1, geometry_fix S.fits.2 _, fun _ => rfl⟩ (A.persists _)
  exact ⟨mid.world, hdone () rfl, S', A.prints, A.cache⟩

/-- How a mosaic of fixed images is prepared and used.  It was assembled and then prepared, with
masks that are made and kept or with masks that are given.  Afterwards options are set, rectangles
are rendered, at once or in tiles, and the cache is cleared, in any order. -/
inductive Exhibited (Fits : Workspace σ κ → Prop) (store : Nat) :
    Composite → Studio σ format κ → List (Still format κ) → Commission κ → Prop
  | prepare {O : Option (Stage κ) → Pledge (Value format κ)} {c c' : Composite}
      {studio studio' : Studio σ format κ} {stills : List (Still format κ)}
      (A : Assembled Fits store O c studio stills)
      (hfix : ∀ w geometry, Fits w → Fits (w.fix c.number geometry))
      (hblend : c.options.draft = false) (hmake : c.options.reuseMasks = false)
      {Kept : Workspace σ κ → Prop} (K : KeepsMasks Kept store)
      (hsave : SavesMasks (Workspace.course Fits c.number store none) Kept store)
      {schedule : Schedule} {total : Option Rect}
      (hprepare : studio.perform (c.prepare schedule total) = (.ok c', studio')) :
      Exhibited Fits store c' studio' stills ⟨total, c.options.fillHoles, none⟩
  | reuse {O : Option (Stage κ) → Pledge (Value format κ)} {c c' : Composite}
      {studio studio' : Studio σ format κ} {stills : List (Still format κ)}
      (A : Assembled Fits store O c studio stills)
      (hfix : ∀ w geometry, Fits w → Fits (w.fix c.number geometry))
      (hskip : c.options.draft = true ∨ c.options.reuseMasks = true)
      {schedule : Schedule} {total : Option Rect}
      (hprepare : studio.perform (c.prepare schedule total) = (.ok c', studio')) :
      Exhibited Fits store c' studio' stills
        ⟨total, c.options.fillHoles, some (studio.world.loadMask store)⟩
  | choose {c : Composite} {studio : Studio σ format κ} {stills : List (Still format κ)}
      {commission : Commission κ} (E : Exhibited Fits store c studio stills commission)
      (options : Options) : Exhibited Fits store { c with options } studio stills commission
  | render {c : Composite} {studio studio' : Studio σ format κ} {stills : List (Still format κ)}
      {commission : Commission κ} (E : Exhibited Fits store c studio stills commission)
      {area : Rect} {answer : Outcome (Raster (Pixel format κ))}
      (hrender : studio.perform (c.render area) = (answer, studio')) :
      Exhibited Fits store c studio' stills commission
  | renderTiled {c : Composite} {studio studio' : Studio σ format κ}
      {stills : List (Still format κ)} {commission : Commission κ}
      (E : Exhibited Fits store c studio stills commission) {schedule : Schedule} {region : Rect}
      {options : TileOptions} {token : Nat} {answer : Outcome (Raster (Pixel format κ))}
      (hrender : studio.perform (c.renderTiled schedule region options token) = (answer, studio')) :
      Exhibited Fits store c studio' stills commission
  | clear {c : Composite} {studio : Studio σ format κ} {stills : List (Still format κ)}
      {commission : Commission κ} (E : Exhibited Fits store c studio stills commission) :
      Exhibited Fits store c (studio.clear c.cache) stills commission

/-- Whatever only drifts leaves what a prepared mosaic relies on. -/
theorem Exhibition.perform (E : Exhibition Fits store O stage c studio stills) {α : Type}
    {r : Making σ format κ α}
    (hr : (Recipe.since (O (some stage)).promise
      (Workspace.course Fits c.number store (some stage)) studio.world).Completes r)
    {answer : Outcome α} (hrun : studio.perform r = (answer, studio')) :
    Exhibition Fits store O stage c studio' stills :=
  have hstart := (Workspace.course Fits c.number store (some stage)).refl E.pledged.fits
  ⟨(E.pledged.perform_ensures (hr _ hstart) hrun).1, E.prints, E.cache⟩

/-- **What a prepared mosaic of fixed images relies on stays**, however it is used, and what was
asked for decides its geometry and its masks. -/
theorem Exhibited.exhibition [Counting κ] {commission : Commission κ}
    (E : Exhibited Fits store c studio stills commission) :
    ∃ O stage, Exhibition Fits store O stage c studio stills ∧
      commission.Settles stills stage := by
  induction E with
  | @prepare O c c' studio studio' stills A hfix hblend hmake Kept K hsave schedule total
      hprepare =>
    obtain A := A.assembly
    have hskip : ∀ {p : Prop}, c.options.draft = true ∨ c.options.reuseMasks = true → p := fun h =>
      h.elim (fun h => nomatch hblend.symm.trans h) (fun h => nomatch hmake.symm.trans h)
    obtain ⟨w, ⟨-, hstored⟩, E⟩ := A.prepare hfix (ensures_groundwork c schedule total
      (fun _ _ => ensures_makeMasks K hsave (stocked_pieces A.prints) A.maskStore schedule
        A.pledged.fits) hskip) hprepare
    refine ⟨_, _, E, ⟨_, A.frame, ?_⟩, nofun, fun _ i piece hpiece => ?_⟩
    · rw [geometryFor, A.smallestSide]
    · exact hstored.2 i piece.placement (Piece.getElem?_placements hpiece)
  | @reuse O c c' studio studio' stills A hfix hskip schedule total hprepare =>
    obtain A := A.assembly
    have hmake : ∀ {p : Prop}, c.options.draft = false → c.options.reuseMasks = false → p :=
      fun hblend hmake =>
        hskip.elim (fun h => nomatch hblend.symm.trans h) (fun h => nomatch hmake.symm.trans h)
    obtain ⟨w, rfl, E⟩ := A.prepare hfix (Q := (· = studio.world))
      (ensures_groundwork c schedule total hmake fun _ => rfl) hprepare
    refine ⟨_, _, E, ⟨_, A.frame, ?_⟩, fun masks hmasks => Option.some.inj hmasks, nofun⟩
    rw [geometryFor, A.smallestSide]
  | choose _ _ ih =>
    obtain ⟨O, stage, E, hsettles⟩ := ih
    exact ⟨O, stage, { E with }, hsettles⟩
  | render _ hrender ih =>
    obtain ⟨O, stage, E, hsettles⟩ := ih
    exact ⟨O, stage, E.perform (completes_render _ _) hrender, hsettles⟩
  | renderTiled _ hrender ih =>
    obtain ⟨O, stage, E, hsettles⟩ := ih
    exact ⟨O, stage, E.perform
      (completes_renderTiled (Workspace.euclidean_course _ _ _ _) _ _ _ _ _) hrender, hsettles⟩
  | clear _ ih =>
    obtain ⟨O, stage, E, hsettles⟩ := ih
    refine ⟨O, stage, ⟨?_, E.prints, E.cache⟩, hsettles⟩
    rw [E.cache]
    exact E.pledged.clear

/-- A blend of a prepared mosaic of fixed images is what can be computed without a cache. -/
theorem Exhibition.blend {Fits : Workspace σ ℚ → Prop}
    {O : Option (Stage ℚ) → Pledge (Value format ℚ)} {stage : Stage ℚ} {studio : Studio σ format ℚ}
    {stills : List (Still format ℚ)} (E : Exhibition Fits store O stage c studio stills)
    (hblend : c.options.draft = false) (area : Rect) :
    Alike Eq (Still.render stills stage area) (studio.perform (c.render area)).1 := by
  have hgeometry : ∀ w, (Workspace.course Fits c.number store (some stage)).Fits w →
      c.geometry? w = some stage.geometry := fun _ hw => hw.2.1
  exact E.pledged.perform (mirrors_render (fun _ _ ho => E.pledged.lt_size (some stage) ho)
    hgeometry E.prints hblend area)

/-- **A blend depends neither on the order of the sources nor on the cache.**  With exact channel
values, sources of the same places, bands and coverages give the same image in any order, whatever
is said to be at hand.  So when two mosaics of the same fixed images are prepared in the same way,
each with a cache of its own and with whatever was rendered before, a rectangle that one of them
blends is the same image in the other. -/
theorem blends_alike :
    (∀ sources sources' : List (PatchSource Outcome format ℚ),
      (sources.map PatchSource.unflagged).Perm (sources'.map PatchSource.unflagged) →
      ∀ area params out, Patch.blend area params sources = .ok out ↔
        Patch.blend area params sources' = .ok out) ∧
    ∀ {σ σ' : Type} {Fits : Workspace σ ℚ → Prop} {Fits' : Workspace σ' ℚ → Prop}
      {store store' : Nat} {c c' : Composite} {studio : Studio σ format ℚ}
      {studio' : Studio σ' format ℚ} {stills : List (Still format ℚ)} {commission : Commission ℚ},
      Exhibited Fits store c studio stills commission →
      Exhibited Fits' store' c' studio' stills commission →
      c.options.draft = false → c'.options.draft = false →
      ∀ area out, (studio.perform (c.render area)).1 = .ok out ↔
        (studio'.perform (c'.render area)).1 = .ok out := by
  constructor
  · intro sources sources' hperm area params out
    exact ⟨Patch.blend_perm hperm, Patch.blend_perm hperm.symm⟩
  · intro σ σ' Fits Fits' store store' c c' studio studio' stills commission E E' hblend hblend'
      area out
    obtain ⟨O, stage, E, hsettles⟩ := E.exhibition
    obtain ⟨O', stage', E', hsettles'⟩ := E'.exhibition
    have hanswer := E.blend hblend area
    have hanswer' := E'.blend hblend' area
    rw [hsettles'.render_eq hsettles] at hanswer'
    exact (Alike.eq_iff.mp hanswer out).symm.trans (Alike.eq_iff.mp hanswer' out)

/-- Half a pixel's coverage beside all of it. -/
def canvas : Raster (Pixel .grayAlpha ℚ) :=
  Raster.tabulate 2 1 fun x _ => ⟨#v[1 / 4, if x = 0 then 1 / 2 else 1]⟩

/-- Two pixels alike. -/
def sketch : Raster (Pixel .grayAlpha ℚ) := Raster.tabulate 2 1 fun _ _ => ⟨#v[1 / 2, 1]⟩

/-- One of them as a source of a patch. -/
def panel (raster : Raster (Pixel .grayAlpha ℚ)) (placement : Rect) (resident : Bool) :
    PatchSource Outcome .grayAlpha ℚ where
  placement
  resident
  pyramid := Pyramid.build raster placement 3 1 (Raster.tabulate 2 1 fun _ _ => 1) 1 false
  alpha := .ok raster.alphaPlane
  pixels area := .ok (raster.cut area)

/-- A room with a mask store in memory and a cache. -/
def hall (budget : Nat) : Studio Unit .grayAlpha ℚ :=
  ((Cache.Store.empty ⟨Files.empty, #[MaskStore.empty], #[], #[false], ()⟩).newCache budget).2

/-- The mosaic of the two in such a room, prepared. -/
def vernissage (budget : Nat) : Outcome (Composite × Studio Unit .grayAlpha ℚ) := do
  let (c, studio) := create (hall budget) 0 0 ⟨false, false, false⟩
  let (_, c, studio) ← c.insert studio (View.ofRaster canvas) 0 0
  let (_, c, studio) ← c.insert studio (View.ofRaster sketch) 1 0
  let (prepared, studio) := studio.perform (c.prepare inTurns none)
  return (← prepared, studio)

theorem exhibited_vernissage {budget : Nat} {studio : Studio Unit .grayAlpha ℚ}
    (h : vernissage budget = .ok (c, studio)) :
    Exhibited (InMemory 0) 0 c studio
      [⟨View.ofRaster canvas, ⟨0, 0, 2, 1⟩⟩, ⟨View.ofRaster sketch, ⟨1, 0, 2, 1⟩⟩]
      ⟨none, false, none⟩ := by
  obtain ⟨⟨_, c1, studio1⟩, hcanvas, h⟩ := bind_eq_ok_iff.mp h
  obtain ⟨⟨_, c2, studio2⟩, hsketch, h⟩ := bind_eq_ok_iff.mp h
  obtain ⟨c, hprepared, h⟩ := bind_eq_ok_iff.mp h
  cases h
  obtain ⟨_, _, _, -, -, hc1, hstudio1⟩ := exists_of_insert hcanvas
  obtain ⟨_, _, _, -, -, hc2, hstudio2⟩ := exists_of_insert hsketch
  have hsize1 : studio1.declared = 58 := by
    rw [hstudio1, declared_enrol]
    rfl
  have hsize2 : studio2.declared = 116 := by
    rw [hstudio2, declared_enrol, hsize1]
    rfl
  have hstart : (Workspace.course (InMemory 0) 0 0 none).Fits
      (⟨Files.empty, #[MaskStore.empty], #[none], #[false], ()⟩ : Workspace Unit ℚ) :=
    ⟨⟨_, rfl⟩, rfl⟩
  have S : (create (hall budget) 0 0 ⟨false, false, false⟩).2.Pledged (fun _ _ _ => False)
      (Workspace.course (InMemory 0) 0 0) none :=
    .empty (D := Workspace.course (InMemory 0) 0 0) hstart budget
  have A := Assembled.create S
  have A1 : Assembled (InMemory 0) 0 _ c1 studio1 [⟨View.ofRaster canvas, ⟨0, 0, 2, 1⟩⟩] :=
    A.insert (fun _ => View.shown_ofRaster _ canvas) rfl hcanvas (hsize1 ▸ by decide)
  have A2 : Assembled (InMemory 0) 0 _ c2 studio2
      [⟨View.ofRaster canvas, ⟨0, 0, 2, 1⟩⟩, ⟨View.ofRaster sketch, ⟨1, 0, 2, 1⟩⟩] :=
    A1.insert (fun _ => View.shown_ofRaster _ sketch) rfl hsketch (hsize2 ▸ by decide)
  subst hc2 hc1
  have K := keepsMasks_inMemory (σ := Unit) (κ := ℚ) 0
  exact .prepare A2 (fun _ _ => id) rfl rfl K (K.saves_course _) (Prod.ext hprepared rfl)

/-- The two panels in either order, and the mosaic with a cache that keeps nothing beside one that
keeps everything and was used before. -/
theorem blends_alike_vernissage :
    (∃ image, Patch.blend ⟨0, 0, 3, 1⟩ ⟨1, false, 3, 1⟩
        [panel canvas ⟨0, 0, 2, 1⟩ true, panel sketch ⟨1, 0, 2, 1⟩ false] = .ok image ∧
      Patch.blend ⟨0, 0, 3, 1⟩ ⟨1, false, 3, 1⟩
        [panel sketch ⟨1, 0, 2, 1⟩ true, panel canvas ⟨0, 0, 2, 1⟩ false] = .ok image) ∧
    ∃ (c c' : Composite) (roomy tight : Studio Unit .grayAlpha ℚ)
        (out : Raster (Pixel .grayAlpha ℚ)),
      vernissage 4096 = .ok (c, roomy) ∧ vernissage 0 = .ok (c', tight) ∧
      ((roomy.perform (c.render ⟨1, 0, 1, 1⟩)).2.perform (c.render ⟨0, 0, 3, 1⟩)).1 = .ok out ∧
      (tight.perform (c'.render ⟨0, 0, 3, 1⟩)).1 = .ok out := by
  have hpanels : (Patch.blend ⟨0, 0, 3, 1⟩ ⟨1, false, 3, 1⟩
      [panel canvas ⟨0, 0, 2, 1⟩ true, panel sketch ⟨1, 0, 2, 1⟩ false]).isOk := by decide +kernel
  have hroomy : (match vernissage 4096 with
    | .ok (c, studio) => !c.options.draft && ((studio.perform (c.render ⟨1, 0, 1, 1⟩)).2.perform
        (c.render ⟨0, 0, 3, 1⟩)).1.isOk
    | .error _ => false) = true := by decide +kernel
  have htight : (match vernissage 0 with
    | .ok (c, _) => !c.options.draft
    | .error _ => false) = true := by decide +kernel
  constructor
  · obtain ⟨image, himage⟩ := exists_eq_ok hpanels
    have hperm : ([panel canvas ⟨0, 0, 2, 1⟩ true, panel sketch ⟨1, 0, 2, 1⟩ false].map
        PatchSource.unflagged).Perm ([panel sketch ⟨1, 0, 2, 1⟩ true,
        panel canvas ⟨0, 0, 2, 1⟩ false].map PatchSource.unflagged) := .swap _ _ _
    exact ⟨image, himage, (blends_alike.1 _ _ hperm _ _ image).mp himage⟩
  cases hc : vernissage 4096 with
  | error cause =>
    rw [hc] at hroomy
    cases hroomy
  | ok roomy =>
    obtain ⟨c, roomy⟩ := roomy
    cases hc' : vernissage 0 with
    | error cause =>
      rw [hc'] at htight
      cases htight
    | ok tight =>
      obtain ⟨c', tight⟩ := tight
      simp only [hc, hc', Bool.and_eq_true, Bool.not_eq_true'] at hroomy htight
      obtain ⟨out, hout⟩ := exists_eq_ok hroomy.2
      have E := (exhibited_vernissage hc).render
        (Prod.mk.eta (p := roomy.perform (c.render ⟨1, 0, 1, 1⟩))).symm
      have E' := exhibited_vernissage hc'
      exact ⟨c, c', roomy, tight, out, rfl, rfl, hout,
        (blends_alike.2 E E' hroomy.1 htight _ out).mp hout⟩

end Composite

end Patchwork
