import Patchwork.Proofs.Composite.Draft
import Patchwork.Proofs.Composite.Steady
import Patchwork.Proofs.Tiling

/-!
# Drafts of a mosaic

A draft of a prepared mosaic shows the sources laid over one another.  It is the same image whatever
the cache keeps and has evicted, whatever was rendered before, and whether it is rendered at once or
in tiles of any size; and the frame that the mosaic was prepared with moves it and does nothing
else.

The pixels of a source come out of a cache.  They are promised (`Composite.Built`), so every answer
of the cache is the same.  The frame is read of the workspace, where rendering leaves it
(`Patchwork.Proofs.Composite.Steady`).

## Main definitions

* `SourceRecord.Gives` — the pixels of a source are those of a piece.
* `Composite.Prepared` — how a prepared mosaic is used.

## Main statements

* `Composite.Prepared.steady` — what stays all the time.
* `Composite.ensures_render_draft`, `Composite.ensures_renderTiled_draft` — one draft.
* `Composite.Prepared.drafts` — drafts of a mosaic.
-/

namespace Patchwork

open Cache (Handle Promise Drift Recipe Schedule)
open Outcome Coordinate

/-! ## Tiles pasted together -/

namespace Raster

variable {κ α : Type}

/-- Parts of an image at tiles that cover it, pasted over nothing, give the image. -/
theorem ends_pasted [Zero α] {E : Failure → Prop} {region : Rect} (hsize : region.Sized)
    {tiles : List Rect} (hcovers : Tiling.Covers region tiles) {image : Raster α}
    (himage : image.Fills region) {part : Rect → Raster α}
    (hpart : ∀ tile ∈ tiles, (part tile).Fills tile ∧
      ∀ p, p ∈ tile → (part tile).cell tile p = image.cell region p) :
    Ends E (· = image)
      ((tiles.map fun tile => (tile, part tile)).foldlM (fun patch (tile, raster) => do
        patch.paste raster (← checked (tile.x - region.x)) (← checked (tile.y - region.y)))
        (zeros region.columns region.rows)) := by
  rw [List.foldlM_map]
  have hcanvas : Ends E (Pasted region image tiles)
      (tiles.foldlM (fun patch tile => do
        patch.paste (part tile) (← checked (tile.x - region.x)) (← checked (tile.y - region.y)))
        (zeros region.columns region.rows)) := by
    refine Ends.foldlM (I := Pasted region image) (.blank image) ?_
    intro done tile canvas hmem hpasted
    obtain ⟨hfills, hcells⟩ := hpart tile hmem
    exact hpasted.ends_paste hsize (hcovers.not_isEmpty tile hmem) (hcovers.subset tile hmem)
      hfills hcells
  exact hcanvas.imp fun canvas hpasted => hpasted.eq_of_covers himage hcovers.exists_tile

end Raster

/-! ## Sources -/

section Sources

variable {σ κ : Type} {format : Format} {T T' : Promise (Value format κ)}

/-- A source lies where a piece lies, and its pixels are promised to be those of the piece. -/
structure SourceRecord.Gives (T : Promise (Value format κ)) (source : SourceRecord)
    (piece : Piece format κ) : Prop where
  /-- The same place. -/
  placement : source.placement = piece.placement
  /-- The same pixels. -/
  pixels : ∀ v, T source.pixels v → v = .pixels piece.raster

theorem SourceRecord.Gives.mono {source : SourceRecord} {piece : Piece format κ}
    (h : source.Gives T piece) (hpromises : ∀ h v, T' h v → T h v) : source.Gives T' piece :=
  ⟨h.placement, fun v hv => h.pixels v (hpromises _ v hv)⟩

variable [Channel κ] {D : Drift (Workspace σ κ)} {c : Composite} {studio : Studio σ format κ}
  {store : Nat} {pieces : List (Piece format κ)}

/-- **The sources of a mosaic** give the pieces it was made of. -/
theorem Composite.Built.gives (B : Composite.Built D store T c studio pieces) :
    List.Forall₂ (SourceRecord.Gives T) c.sources pieces := by
  induction B with
  | create => exact .nil
  | insert B hview hplacement hinsert ih =>
    obtain ⟨placement, hplacement', hsources, -, -⟩ :=
      Composite.insert_eq_ok B.stocked.1 hinsert hview
    obtain rfl := Except.ok.inj (hplacement'.symm.trans hplacement)
    rw [hsources]
    exact List.rel_append (ih.imp fun _ _ h => h.mono fun _ _ => promised_weaker)
      (.cons ⟨rfl, fun v hv => hv.1.1.1.2 rfl⟩ .nil)
  | choose _ _ ih => exact ih
  | meanwhile _ _ hpromises ih => exact ih.imp fun _ _ h => h.mono hpromises

/-- What holds throughout does not speak of geometries. -/
theorem Composite.Built.fits_geometries (B : Composite.Built D store T c studio pieces)
    (w : Workspace σ κ) (geometries : Array (Option Geometry)) (hw : D.Fits w) :
    D.Fits { w with geometries } := by
  induction B with
  | create _ hgeometry => exact hgeometry w geometries hw
  | insert _ _ _ _ ih => exact ih
  | choose _ _ ih => exact ih
  | meanwhile _ _ _ ih => exact ih

end Sources

/-! ## Drafts -/

namespace Composite

variable {σ κ : Type} [Channel κ] {format : Format} {T : Promise (Value format κ)}
  {Fits : Workspace σ κ → Prop} {start : Workspace σ κ} {c : Composite}
  {pieces : List (Piece format κ)} {frame : Rect}

/-- A source as a patch sees it gives the piece, seen from the viewer's frame. -/
theorem ensures_patchSource_shows {D : Drift (Workspace σ κ)} (geometry : Geometry)
    (source : SourceRecord) :
    (Recipe.since T D start).Ensures
      (fun s => ∀ piece : Piece format κ, source.Gives T piece →
        s.Shows (Recipe.since T D start) (piece.seenFrom geometry.frame))
      (patchSource geometry source : Making σ format κ _) := by
  unfold patchSource
  refine Logic.bind_eq _ (Logic.lift _ ((Rect.ends_relativeTo source.placement
    geometry.frame).weaken fun _ _ => trivial)) ?_
  refine Logic.bind _ (Recipe.quiet_statusOf _).since fun status _ => Logic.pure _ ?_
  intro piece hpiece
  refine ⟨congrArg (Rect.seenFrom · geometry.frame) hpiece.placement, fun place => ?_⟩
  refine Logic.bind_eq _ (Making.quiet_pixels hpiece.pixels).since (Logic.lift _ ?_)
  exact (Raster.ends_region _ _).weaken fun _ _ => trivial

/-- The sources of a patch show the pieces that the sources of the mosaic give. -/
theorem forall₂_shows {E : Failure → Prop} (L : Logic (Making σ format κ) E)
    {records : List SourceRecord} {sources : List (PatchSource (Making σ format κ) format κ)}
    (hgives : List.Forall₂ (SourceRecord.Gives T) records pieces)
    (hsources : List.Forall₂ (fun record s => ∀ piece : Piece format κ, record.Gives T piece →
      s.Shows L (piece.seenFrom frame)) records sources) :
    List.Forall₂ (PatchSource.Shows L) sources (pieces.map (Piece.seenFrom frame)) := by
  induction hgives generalizing sources with
  | nil =>
    cases hsources
    exact .nil
  | cons hpiece _ ih =>
    cases hsources with
    | cons hsource hrest => exact .cons (hsource _ hpiece) (ih hrest)

variable (hgives : List.Forall₂ (SourceRecord.Gives T) c.sources pieces)
  (hframe : ∀ geometry, c.geometry? start = some geometry → geometry.frame = frame)
  (hdraft : c.options.draft = true)

include hgives hframe hdraft

/-- **A draft** of a rectangle is the pieces laid over one another, there where the rectangle lies
in the shared frame. -/
theorem ensures_render_draft {area : Rect} (hsize : area.Sized) :
    (Recipe.since T (Workspace.steady Fits) start).Ensures
      (· = Piece.draft pieces (area.placedIn frame)) (c.render area : Making σ format κ _) := by
  unfold render
  have hstays : ∀ w, (Workspace.steady Fits).Step start w →
      c.geometry? w = c.geometry? start := by
    intro w hw
    rw [Composite.geometry?, Composite.geometry?, Workspace.geometry?, Workspace.geometry?, hw.2]
  refine Logic.bind_eq _ (Recipe.since_observe hstays) ?_
  cases hgeometry : c.geometry? start with
  | none => exact Logic.lift _ trivial
  | some geometry =>
    obtain rfl := hframe geometry hgeometry
    refine Logic.bind _ (Logic.mapM _ fun source _ => ensures_patchSource_shows geometry source) ?_
    intro sources hsources
    dsimp only
    rw [if_pos hdraft, ← Piece.draft_seenFrom]
    exact Patch.ensures_draft _ (fun _ _ => trivial) hsize _ (forall₂_shows _ hgives hsources)

/-- **A draft in tiles** is the same image, in whatever order the tiles are made. -/
theorem ensures_renderTiled_draft {region : Rect} (hsize : region.Sized) (schedule : Schedule)
    (options : TileOptions) (token : Nat) :
    (Recipe.since T (Workspace.steady Fits) start).Ensures
      (· = Piece.draft pieces (region.placedIn frame))
      (c.renderTiled schedule region options token : Making σ format κ _) := by
  unfold renderTiled
  refine Logic.bind _ (completes_unlessRaised token) fun _ _ => ?_
  refine Logic.bind _ (Logic.lift _ ((Tiling.ends_grid_covers region options.tileSize).weaken
    fun _ _ => trivial)) ?_
  intro tiles hcovers
  -- a tile shows the same part of the shared frame as the region does
  have hpart : ∀ tile ∈ tiles, (Piece.draft pieces (tile.placedIn frame)).Fills tile ∧
      ∀ p, p ∈ tile → (Piece.draft pieces (tile.placedIn frame)).cell tile p =
        (Piece.draft pieces (region.placedIn frame)).cell region p := by
    intro tile htile
    refine ⟨Piece.fills_draft_placedIn pieces tile frame, fun p hp => ?_⟩
    rw [Piece.cell_draft_placedIn hp, Piece.cell_draft_placedIn (hcovers.subset tile htile p hp)]
  dsimp only
  by_cases hthreads : options.threads = some 0
  · rw [if_pos hthreads]
    exact Logic.bind _ (P := fun _ => False) (Logic.lift _ trivial) fun _ hnone => hnone.elim
  rw [if_neg hthreads]
  have hrendered : (Recipe.since T (Workspace.steady Fits) start).Ensures
      (· = tiles.map fun tile => (tile, Piece.draft pieces (tile.placedIn frame)))
      (Recipe.pool schedule (tiles.map fun tile => do
        unlessRaised token
        return (tile, ← c.render tile)) : Making σ format κ _) := by
    have hD : (Workspace.steady Fits).Euclidean := Workspace.euclidean_steady Fits
    refine (Recipe.interruptible_since hD).pool_eq schedule fun tile htile => ?_
    have htilesize := hsize.of_subset (hcovers.not_isEmpty tile htile) (hcovers.subset tile htile)
    refine Logic.bind _ (completes_unlessRaised token) fun _ _ => ?_
    exact Logic.bind_eq _ (ensures_render_draft hgives hframe hdraft htilesize) (Logic.pure _ rfl)
  refine Logic.bind_eq _ hrendered ?_
  refine Logic.bind _ (Logic.lift _ ((Raster.ends_blankFor region).weaken fun _ _ => trivial)) ?_
  rintro _ ⟨rfl, -⟩
  exact Logic.lift _ (Raster.ends_pasted hsize hcovers
    (Piece.fills_draft_placedIn pieces region frame) hpart)

end Composite

/-! ## Using a prepared mosaic -/

namespace Composite

section Life

variable {σ κ : Type} [Channel κ] {format : Format}

/-- How a prepared mosaic is used.  It was built, with anything else going on in between, and then
prepared; its masks may be saved if that keeps what holds throughout.  Afterwards options are set
and rectangles are rendered, at once or in tiles, and anything else may happen as long as the store
keeps its promises and the geometries stay.  The frame is the one it was prepared with. -/
inductive Prepared (Fits : Workspace σ κ → Prop) :
    Promise (Value format κ) → Composite → Studio σ format κ → List (Piece format κ) → Rect → Prop
  | prepare {store : Nat} {T : Promise (Value format κ)} {c c' : Composite}
      {studio studio' : Studio σ format κ} {pieces : List (Piece format κ)}
      (B : Built (Workspace.steady Fits) store T c studio pieces)
      (hsave : c.options.draft = true ∨ c.options.reuseMasks = true ∨
        ∀ w index (mask : Raster κ), Fits w → Fits (w.saveMask c.maskStore index mask).2)
      {schedule : Schedule} {total : Option Rect}
      (hprepare : studio.perform (c.prepare schedule total) = (.ok c', studio')) :
      Prepared Fits T c' studio' pieces (total.getD c.viewFrame)
  | choose {T : Promise (Value format κ)} {c : Composite} {studio : Studio σ format κ}
      {pieces : List (Piece format κ)} {frame : Rect} (P : Prepared Fits T c studio pieces frame)
      (options : Options) : Prepared Fits T { c with options } studio pieces frame
  | render {T : Promise (Value format κ)} {c : Composite} {studio studio' : Studio σ format κ}
      {pieces : List (Piece format κ)} {frame : Rect} (P : Prepared Fits T c studio pieces frame)
      {area : Rect} {answer : Outcome (Raster (Pixel format κ))}
      (hrender : studio.perform (c.render area) = (answer, studio')) :
      Prepared Fits T c studio' pieces frame
  | renderTiled {T : Promise (Value format κ)} {c : Composite} {studio studio' : Studio σ format κ}
      {pieces : List (Piece format κ)} {frame : Rect} (P : Prepared Fits T c studio pieces frame)
      {schedule : Schedule} {region : Rect} {options : TileOptions} {token : Nat}
      {answer : Outcome (Raster (Pixel format κ))}
      (hrender : studio.perform (c.renderTiled schedule region options token) =
        (answer, studio')) :
      Prepared Fits T c studio' pieces frame
  | meanwhile {T T' : Promise (Value format κ)} {c : Composite}
      {studio studio' : Studio σ format κ} {pieces : List (Piece format κ)} {frame : Rect}
      (P : Prepared Fits T c studio pieces frame) (K : studio'.Keeps T' (Workspace.steady Fits))
      (hpromises : ∀ h v, T' h v → T h v)
      (hgeometries : studio'.world.geometries = studio.world.geometries) :
      Prepared Fits T' c studio' pieces frame

variable {Fits : Workspace σ κ → Prop} {T : Promise (Value format κ)} {c : Composite}
  {studio studio' : Studio σ format κ} {pieces : List (Piece format κ)} {frame : Rect}

/-- What stays while a prepared mosaic is used. -/
structure Steady (Fits : Workspace σ κ → Prop) (T : Promise (Value format κ)) (c : Composite)
    (studio : Studio σ format κ) (pieces : List (Piece format κ)) (frame : Rect) : Prop where
  /-- The store keeps its promises. -/
  keeps : studio.Keeps T (Workspace.steady Fits)
  /-- The sources are the pieces. -/
  gives : List.Forall₂ (SourceRecord.Gives T) c.sources pieces
  /-- The frame is fixed. -/
  frame_eq : ∀ geometry, c.geometry? studio.world = some geometry → geometry.frame = frame

omit [Channel κ] in
/-- Whatever only drifts keeps this. -/
theorem Steady.perform {α : Type} (S : Steady Fits T c studio pieces frame)
    {r : Making σ format κ α}
    (hr : (Recipe.since T (Workspace.steady Fits) studio.world).Completes r) {answer : Outcome α}
    (hrun : studio.perform r = (answer, studio')) : Steady Fits T c studio' pieces frame := by
  obtain ⟨K, hok, herror⟩ :=
    S.keeps.perform (hr _ ((Workspace.steady Fits).refl S.keeps.fits)) hrun
  have hstep : (Workspace.steady Fits).Step studio.world studio'.world := by
    cases answer with
    | ok a => exact (hok a rfl).2
    | error cause => exact herror cause rfl
  refine ⟨K, S.gives, fun geometry hgeometry => S.frame_eq geometry ?_⟩
  rwa [Composite.geometry?, Workspace.geometry?, hstep.2] at hgeometry

/-- **What a prepared mosaic relies on stays**, whatever is done with it. -/
theorem Prepared.steady (P : Prepared Fits T c studio pieces frame) :
    Steady Fits T c studio pieces frame := by
  induction P with
  | prepare B hsave hprepare =>
    have hkeeps := B.stocked.1
    obtain ⟨K, hok, -⟩ := hkeeps.perform
      (ensures_prepare_fixed _ _ B.fits_geometries hsave _ hkeeps.fits) hprepare
    obtain ⟨-, rfl, hframe⟩ := hok _ rfl
    exact ⟨K, B.gives, hframe⟩
  | choose _ _ ih => exact ⟨ih.keeps, ih.gives, ih.frame_eq⟩
  | render _ hrender ih => exact ih.perform (completes_render _ _) hrender
  | renderTiled _ hrender ih =>
    exact ih.perform (completes_renderTiled (Workspace.euclidean_steady Fits) _ _ _ _ _) hrender
  | meanwhile _ K hpromises hgeometries ih =>
    refine ⟨K, ih.gives.imp fun _ _ h => h.mono hpromises, fun geometry hgeometry =>
      ih.frame_eq geometry ?_⟩
    rwa [Composite.geometry?, Workspace.geometry?, hgeometries] at hgeometry

/-- **A draft has one meaning.**  When a prepared mosaic of sources that make the same pixels every
time is rendered as a draft, at once or in tiles of any size, with whatever cache and after whatever
else was rendered, every image that comes out is the sources laid over one another in the rectangle
of the shared frame.  Neither the number of threads nor the order of their turns makes a
difference. -/
theorem Prepared.drafts (P : Prepared Fits T c studio pieces frame)
    (hdraft : c.options.draft = true) {region : Rect} (hsize : region.Sized)
    {out : Raster (Pixel format κ)} :
    (studio.perform (c.render region) = (.ok out, studio') →
      out = Piece.draft pieces (region.placedIn frame)) ∧
    ∀ schedule options token,
      studio.perform (c.renderTiled schedule region options token) = (.ok out, studio') →
        out = Piece.draft pieces (region.placedIn frame) := by
  obtain ⟨K, hgives, hframe⟩ := P.steady
  have hstart := (Workspace.steady Fits).refl K.fits
  constructor
  · intro hrender
    have hdone := ensures_render_draft hgives hframe hdraft hsize _ hstart
    exact ((K.perform hdone hrender).2.1 out rfl).1
  · intro schedule options token hrender
    have hdone :=
      ensures_renderTiled_draft hgives hframe hdraft hsize schedule options token _ hstart
    exact ((K.perform hdone hrender).2.1 out rfl).1

end Life

/-- Half a pixel's coverage beside all of it. -/
def veil : Raster (Pixel .grayAlpha Float32) :=
  Raster.tabulate 2 1 fun x _ => ⟨#v[0.25, if x = 0 then 0.5 else 1]⟩

/-- A pixel to be laid over. -/
def ground : Raster (Pixel .grayAlpha Float32) := Raster.tabulate 1 1 fun _ _ => .replicate 1

/-- A cache that cannot keep the pixels of two sources. -/
def easel : Studio Unit .grayAlpha Float32 :=
  ((Cache.Store.empty ⟨Files.empty, #[MaskStore.empty], #[], #[false], ()⟩).newCache 16).2

/-- The mosaic of the two rasters, one over the other. -/
def veiled : Outcome (Composite × Studio Unit .grayAlpha Float32) := do
  let (c, studio) := create easel 0 0 ⟨true, false, false⟩
  let (_, c, studio) ← c.insert studio (View.ofRaster ground) 4 7
  let (_, c, studio) ← c.insert studio (View.ofRaster veil) 4 7
  return (c, studio)

/-- The mosaic, prepared with a frame of its own: two tiles, after the whole. -/
theorem drafts_veiled :
    ∃ (c c' : Composite) (studio studio' after : Studio Unit .grayAlpha Float32)
        (out : Raster (Pixel .grayAlpha Float32)),
      veiled = .ok (c, studio) ∧
      studio.perform (c.prepare .inOrder (some ⟨3, 7, 3, 1⟩)) = (.ok c', studio') ∧
      (studio'.perform (c'.render ⟨0, 0, 3, 1⟩)).2.perform
        (c'.renderTiled inTurns ⟨0, 0, 3, 1⟩ ⟨2, none⟩ 0) = (.ok out, after) ∧
      out = Piece.draft [⟨⟨4, 7, 1, 1⟩, ground⟩, ⟨⟨4, 7, 2, 1⟩, veil⟩] ⟨3, 7, 3, 1⟩ := by
  have hok : (match veiled with
    | .ok (c, studio) =>
      match studio.perform (c.prepare .inOrder (some ⟨3, 7, 3, 1⟩)) with
      | (.ok c', studio) => c.options.draft && c'.options.draft &&
        ((studio.perform (c'.render ⟨0, 0, 3, 1⟩)).2.perform
          (c'.renderTiled inTurns ⟨0, 0, 3, 1⟩ ⟨2, none⟩ 0)).1.isOk
      | (.error _, _) => false
    | .error _ => false) = true := by decide +kernel
  cases hbuilt : veiled with
  | error cause =>
    rw [hbuilt] at hok
    cases hok
  | ok built =>
    obtain ⟨c, studio⟩ := built
    simp only [hbuilt] at hok
    rcases hprepare : studio.perform (c.prepare .inOrder (some ⟨3, 7, 3, 1⟩)) with
      ⟨cause | c', studio'⟩
    · rw [hprepare] at hok
      cases hok
    simp only [hprepare, Bool.and_eq_true] at hok
    obtain ⟨⟨hdraft, hdraft'⟩, hok⟩ := hok
    rcases htiled : (studio'.perform (c'.render ⟨0, 0, 3, 1⟩)).2.perform
      (c'.renderTiled inTurns ⟨0, 0, 3, 1⟩ ⟨2, none⟩ 0) with ⟨cause | out, after⟩
    · rw [htiled] at hok
      cases hok
    have hkeeps : easel.Keeps (fun _ _ => True) (Workspace.steady fun _ => True) :=
      (Cache.Store.Keeps.empty (D := Workspace.steady fun _ => True) trivial).newCache 16
    obtain ⟨⟨_, c1, studio1⟩, hground, hbuilt⟩ := Outcome.bind_eq_ok_iff.mp hbuilt
    obtain ⟨⟨_, c2, studio2⟩, hveil, hbuilt⟩ := Outcome.bind_eq_ok_iff.mp hbuilt
    cases hbuilt
    have B1 := (Built.create hkeeps (fun _ _ hw => hw) 0 _).insert
      (View.quiet_ofRaster ⟨rfl, rfl⟩) rfl hground
    have B2 := B1.insert (View.quiet_ofRaster ⟨rfl, rfl⟩) rfl hveil
    have P := (Prepared.prepare B2 (.inl hdraft) hprepare).render
      (Prod.mk.eta (p := studio'.perform (c'.render ⟨0, 0, 3, 1⟩))).symm
    have hsize : Rect.Sized ⟨0, 0, 3, 1⟩ := by constructor <;> decide
    exact ⟨c, c', studio, studio', after, out, rfl, hprepare, htiled,
      (P.drafts hdraft' hsize).2 inTurns ⟨2, none⟩ 0 htiled⟩

end Composite

end Patchwork
