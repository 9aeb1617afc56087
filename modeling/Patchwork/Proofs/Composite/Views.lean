import Patchwork.Proofs.Composite.Draft
import Patchwork.Proofs.Composite.Lifecycle
import Patchwork.Proofs.Patch.Vacant
import Patchwork.Proofs.View

/-!
# Mosaics seen as views

A prepared mosaic is a view that renders whatever is asked for, also outside its bounds.  What it
shows there is decided by the sources alone.  Where none of them lies a draft is zero, and so is a
blend unless holes are filled.  The frame that is the union of the sources leaves none of them
outside; a frame that is given may.

A view is rendered in any state of the cache, at any later time: all that is known is that the
geometry of the mosaic is still the one it was prepared with.

## Main definitions

* `Recipe.anywhere` — what a recipe answers wherever it runs.
* `Session.Covers`, `Session.Unfilled` — a source lies at a point; no light is spread to others.

## Main statements

* `Composite.vacates_of_render` — what a mosaic shows where no source lies.
* `Session.Framed.after` — the viewer's frame is that of the geometry.
* `views_read_zero_outside` — constructed views and mosaics outside their bounds.
-/

namespace Patchwork

open Cache (Handle Promise Drift Recipe)
open Outcome Logic

namespace Cache

variable {ω V α : Type}

/-- What a recipe answers wherever it runs, whatever the values are that it asks for. -/
def Recipe.anywhere : Logic (Recipe ω V) fun _ => True where
  Ensures P r := ∀ c visit s a s', r.run c visit s = (.ok a, s') → P a
  pure h _ _ _ _ _ hrun := by
    cases hrun
    exact h
  bind {_ _ _ _ x f} h hf c visit s b s' hrun := by
    rw [Recipe.bind_eq_bind, Recipe.run_bind] at hrun
    rcases hx : x.run c visit s with ⟨cause | a, after⟩
    · rw [hx] at hrun
      cases hrun
    · rw [hx] at hrun
      exact hf a (h c visit s a after hx) c visit after b s' hrun
  lift {_ _ x} h _ _ _ _ _ hrun := by
    cases x with
    | ok a =>
      cases hrun
      exact h
    | error cause => cases hrun

/-- A recipe that is performed in a store. -/
theorem Store.of_perform {P : α → Prop} {r : Recipe ω V α} (h : Recipe.anywhere.Ensures P r)
    {s s' : Store ω V} {a : α} (hperform : s.perform r = (.ok a, s')) : P a := by
  rcases hrun : r.run s.catalogue (s.catalogue.visit s.catalogue.size []) s.shelf with
    ⟨answer, shelf⟩
  rw [Store.perform, hrun] at hperform
  cases hperform
  exact h _ _ _ _ _ hrun

end Cache

/-! ## Rendering where no source lies -/

variable {σ κ : Type} [Channel κ] {format : Format}

namespace Composite

omit [Channel κ] in
theorem serves_anywhere (source : PatchSource (Making σ format κ) format κ) :
    source.Serves Recipe.anywhere :=
  ⟨fun _ _ _ _ _ _ => trivial, fun _ _ _ _ _ _ => trivial, fun _ _ _ _ _ _ _ => trivial⟩

/-- A source lies where its record says, seen from the corner of the frame. -/
theorem ensures_patchSource_placement (geometry : Geometry) (record : SourceRecord) :
    Recipe.anywhere.Ensures (·.placement = record.placement.seenFrom geometry.frame)
      (patchSource geometry record : Making σ format κ _) := by
  unfold patchSource
  refine Logic.bind_eq _ (ensures_exact (Rect.ends_relativeTo _ _)) ?_
  exact Logic.bind (P := fun _ => True) _ (fun _ _ _ _ _ _ => trivial) fun _ _ => Logic.pure _ rfl

/-- What a mosaic with this geometry shows of a rectangle: an image of its size that is zero where
no source lies, unless holes are filled. -/
def Vacates (c : Composite) (geometry : Geometry) (area : Rect) (out : Raster (Pixel format κ)) :
    Prop :=
  out.Fills area ∧ (c.options.draft = true ∨ geometry.fillHoles = false →
    ∀ p, p ∈ area → (∀ record ∈ c.sources, p ∉ record.placement.seenFrom geometry.frame) →
      (out.cell area p).same 0 = true)

/-- **Rendering** fills the rectangle and shows nothing where no source lies. -/
theorem vacates_of_render [Channel.Vanishing κ] {c : Composite} {geometry : Geometry}
    {area : Rect} (hsize : area.Sized) {studio after : Studio σ format κ}
    (hgeometry : c.geometry? studio.world = some geometry) {out : Raster (Pixel format κ)}
    (hrender : studio.perform (c.render area) = (.ok out, after)) :
    c.Vacates geometry area out := by
  unfold render at hrender
  obtain ⟨read, studio', hread, hrender⟩ := Cache.Store.perform_bind_eq_ok hrender
  cases hread
  have hread : c.geometry? studio.shelf.world = some geometry := hgeometry
  simp only [hread] at hrender
  refine Cache.Store.of_perform ?_ hrender
  refine Logic.bind _ (Logic.mapM_all (P := fun s => ∃ record ∈ c.sources,
    s.placement = record.placement.seenFrom geometry.frame) _ fun record hrecord =>
    Logic.imp _ (ensures_patchSource_placement geometry record) fun _ h => ⟨record, hrecord, h⟩)
    fun sources hsources => ?_
  have hserves : ∀ s ∈ sources, s.Serves Recipe.anywhere := fun s _ => serves_anywhere s
  have hvacant : ∀ p, (∀ record ∈ c.sources, p ∉ record.placement.seenFrom geometry.frame) →
      Patch.Vacant sources p := by
    intro p hp s hs
    obtain ⟨record, hrecord, hplacement⟩ := hsources s hs
    rw [hplacement]
    exact hp record hrecord
  by_cases hdraft : c.options.draft = true
  · simp only [if_pos hdraft]
    refine Logic.imp _ (Patch.ensures_draft_vacant hsize hserves) ?_
    rintro out ⟨hfills, hcells⟩
    refine ⟨hfills, fun _ p hp hout => ?_⟩
    rw [hcells p hp (hvacant p hout)]
    exact Pixel.same_zero
  · simp only [if_neg hdraft]
    refine Logic.imp _ (Patch.ensures_blend_vacant hsize hserves) ?_
    rintro out ⟨hfills, hcells⟩
    refine ⟨hfills, fun hmode p hp hout => ?_⟩
    exact hcells (hmode.resolve_left hdraft) p hp (hvacant p hout)

end Composite

/-! ## Sessions -/

namespace Session

variable {s s' : Session σ format κ} {calls : List (Call σ format κ)}

/-- A source covers a point of the viewer's frame. -/
def Covers (s : Session σ format κ) (p : Point) : Prop :=
  ∃ source ∈ s.mosaic.sources, p ∈ source.placement.seenFrom s.mosaic.viewFrame

/-- Nothing spreads beyond the sources: they are laid over one another, or holes stay. -/
def Unfilled (s : Session σ format κ) : Prop :=
  s.mosaic.options.draft = true ∨ ∀ geometry, s.geometry? = some geometry →
    geometry.fillHoles = false

/-- Once there is a geometry, its frame is the viewer's. -/
def Framed (s : Session σ format κ) : Prop :=
  ∀ geometry, s.geometry? = some geometry → s.mosaic.viewFrame = geometry.frame

omit [Channel κ] in
theorem Framed.step {call : Call σ format κ} {answer : Outcome (Reply format κ)}
    (h : s.Framed) (S : s.Step call answer s') : s'.Framed := by
  intro geometry hgeometry
  cases S with
  | accept hwaits hplacement hpixels hview hdata K =>
    cases hwaits.symm.trans ((K.geometry?_eq rfl).symm.trans hgeometry)
  | fix hwaits hsources K hfixed =>
    simp only [Session.geometry?, Composite.geometry?, Workspace.geometry?, hfixed] at hgeometry
    cases hgeometry
    rfl
  | choose change => exact h geometry hgeometry
  | image K | refuse K => exact h geometry ((K.geometry?_eq rfl).symm.trans hgeometry)

theorem Framed.after (h : s.Framed) (O : s.Orderly)
    (hcalls : ∀ call ∈ calls, call.Modest s.mosaic.number) : (s.after calls).Framed := by
  induction calls generalizing s with
  | nil => exact h
  | cons call rest ih =>
    obtain ⟨hcall, hrest⟩ := List.forall_mem_cons.mp hcalls
    have S := O.step hcall
    rw [← S.number] at hrest
    exact ih (h.step S) (S.orderly O) hrest

/-- What an image that the mosaic's view answers with shows outside the view. -/
structure Answered (s : Session σ format κ) (view : View (Making σ format κ) (Pixel format κ))
    (area : Rect) (out : Raster (Pixel format κ)) : Prop where
  /-- The image has the size of the request. -/
  fills : out.Fills area
  /-- It is zero where no source lies. -/
  zero : s.Unfilled → ∀ p, p ∈ area → ¬ s.Covers p → (out.cell area p).same 0 = true
  /-- The union of the sources leaves no source outside the view. -/
  inside : s.mosaic.viewFrame = s.mosaic.dataFrame → ∀ p, s.Covers p → view.Has p

/-- The view of a mosaic, asked at any time at which the geometry is what it was. -/
theorem answered [Channel.Vanishing κ] (O : s.Orderly) (hframed : s.Framed)
    {view : View (Making σ format κ) (Pixel format κ)}
    (hview : s.mosaic.toView s.studio = .ok view) {later after : Studio σ format κ}
    (hgeometry : s.mosaic.geometry? later.world = s.geometry?) {area : Rect}
    (hsize : area.Sized) {out : Raster (Pixel format κ)}
    (hrender : later.perform (view.rasterize area) = (.ok out, after)) :
    s.Answered view area out := by
  unfold Composite.toView at hview
  split at hview
  · next hprepared =>
    cases hview
    obtain ⟨geometry, hfixed⟩ := Option.isSome_iff_exists.mp hprepared
    have hvacates := Composite.vacates_of_render hsize (hgeometry.trans hfixed) hrender
    refine ⟨hvacates.1, fun hmode p hp hout => ?_, fun hunion p hp => ?_⟩
    · refine hvacates.2 (hmode.imp_right fun h => h geometry hfixed) p hp fun record hrecord hmem =>
        hout ⟨record, hrecord, ?_⟩
      rw [hframed geometry hfixed]
      exact hmem
    · obtain ⟨source, hsource, hmem⟩ := hp
      have hinside := O.encloses.holds _ (List.mem_map_of_mem hsource)
        ⟨p.x + s.mosaic.viewFrame.x, p.y + s.mosaic.viewFrame.y⟩
      simp only [Rect.mem_iff, Rect.seenFrom] at hmem hinside
      simp only [View.Has, Composite.columns, Composite.rows, Rect.columns, Rect.rows]
      rw [hunion] at hmem hinside ⊢
      omega
  · cases hview

end Session

/-- **Views outside their bounds.**  A view that is constructed from a raster or a function by any
chain of crops and coverages answers with the size of the request, and reads zero outside its
bounds; only the coverage of a format without alpha reads one there until it is cropped.  A mosaic
seen as a view, at any time after any calls, answers with the size of the request, too.  Unless
holes are filled it reads zero where no source lies, which is everywhere outside its bounds when
the frame is the union of the sources. -/
theorem views_read_zero_outside [Channel.Vanishing κ] :
    (∀ {format : Format} (c : Construction κ format) (area : Rect) (out : Raster (Pixel format κ)),
      area.Sized → c.view.rasterize area = .ok out → out.Fills area ∧
        ∀ p, p ∈ area → ¬ c.view.Has p →
          out.cell area p = if c.Fades then 0 else Pixel.replicate 1) ∧
    ∀ {σ : Type} {format : Format} {studio : Studio σ format κ} (cache store : Nat)
      (options : Options) (calls : List (Call σ format κ)),
      studio.Keeps Promise.none (Workspace.unmoved studio.world.geometries.size) →
      (∀ call ∈ calls, call.Modest studio.world.geometries.size) →
      let s := (Session.start studio cache store options).after calls
      ∀ (view : View (Making σ format κ) (Pixel format κ)) (later after : Studio σ format κ)
        (area : Rect) (out : Raster (Pixel format κ)),
        s.mosaic.toView s.studio = .ok view → s.mosaic.geometry? later.world = s.geometry? →
        area.Sized → later.perform (view.rasterize area) = (.ok out, after) →
        s.Answered view area out := by
  refine ⟨fun c area out hsize hout => (c.reads_outside area hsize).of_ok hout, ?_⟩
  intro σ format studio cache store options calls K hcalls s view later after area out hview
    hgeometry hsize hout
  have O := Session.orderly_start K cache store options
  have hnone := Session.geometry?_start studio cache store options
  have hframed : (Session.start studio cache store options).Framed := fun geometry h => by
    rw [hnone] at h
    cases h
  exact Session.answered (O.after hcalls).1 (hframed.after O hcalls) hview hgeometry hsize hout

namespace Session

/-- Two grey pixels. -/
def stripe : Raster (Pixel .gray Float32) := Raster.tabulate 2 1 fun _ _ => ⟨#v[0.5]⟩

/-- The two pixels in a frame that shows the first of them only. -/
def placards : List (Call Unit .gray Float32) :=
  [.insert (View.ofRaster stripe) 0 0, .prepare .inOrder (some ⟨0, 0, 1, 1⟩)]

theorem modest_ofRaster {raster : Raster (Pixel format κ)} {x y : Int} {mosaic : Nat} :
    (Call.insert (View.ofRaster raster) x y : Call σ format κ).Modest mosaic :=
  Recipe.Quiet.lift fun _ _ => trivial

/-- An empty store. -/
def depot : Studio Unit .gray Float32 :=
  ((Cache.Store.empty ⟨Files.empty, #[MaskStore.empty], #[], #[], ()⟩).newCache 64).2

/-- The mosaic of the two pixels, as a draft. -/
def placard : Session Unit .gray Float32 := (start depot 0 0 ⟨true, false, false⟩).after placards

/-- A view of the mosaic that is asked for a rectangle. -/
theorem exists_of_render (s : Session Unit .gray Float32) (hprepared : s.geometry?.isSome)
    (area : Rect) (test : Raster (Pixel .gray Float32) → Bool)
    (h : ((s.studio.perform (s.mosaic.render area)).1.toOption.any test) = true) :
    ∃ view out after, s.mosaic.toView s.studio = .ok view ∧
      view.width = s.mosaic.columns ∧ view.height = s.mosaic.rows ∧
      s.studio.perform (view.rasterize area) = (.ok out, after) ∧ test out = true := by
  obtain ⟨out, hout, htest⟩ := exists_eq_ok_of_any _ test h
  exact ⟨⟨s.mosaic.columns, s.mosaic.rows, s.mosaic.render⟩, out, _, if_pos hprepared, rfl, rfl,
    Prod.ext hout rfl, htest⟩

/-- Two half covered pixels. -/
def film : Raster (Pixel .grayAlpha Float32) := Raster.tabulate 2 1 fun _ _ => ⟨#v[0.25, 0.5]⟩

/-- The coverage of the second pixel, read from its left to its right, and the mosaic, read from the
left of its frame. -/
theorem views_read_zero_outside_placard :
    (∃ out, (Construction.alpha (.crop (.raster film) ⟨1, 0, 1, 1⟩)).view.rasterize ⟨-1, 0, 3, 1⟩ =
        .ok out ∧ out.Fills ⟨-1, 0, 3, 1⟩ ∧ out.cell ⟨-1, 0, 3, 1⟩ ⟨-1, 0⟩ = 0) ∧
    ∃ view out after, placard.mosaic.toView placard.studio = .ok view ∧
      placard.studio.perform (view.rasterize ⟨-1, 0, 3, 1⟩) = (.ok out, after) ∧
      out.Fills ⟨-1, 0, 3, 1⟩ ∧ (out.cell ⟨-1, 0, 3, 1⟩ ⟨-1, 0⟩).same 0 = true := by
  have hsize : (⟨-1, 0, 3, 1⟩ : Rect).Sized := by constructor <;> decide
  have hleft : (⟨-1, 0⟩ : Point) ∈ (⟨-1, 0, 3, 1⟩ : Rect) := by decide
  constructor
  · obtain ⟨out, hout, -⟩ := exists_eq_ok_of_any
      ((Construction.alpha (.crop (.raster film) ⟨1, 0, 1, 1⟩)).view.rasterize ⟨-1, 0, 3, 1⟩)
      (fun _ => true) (by decide +kernel)
    obtain ⟨hfills, hcells⟩ := views_read_zero_outside.1 _ _ out hsize hout
    exact ⟨out, hout, hfills, hcells ⟨-1, 0⟩ hleft fun h => absurd h.1 (by decide)⟩
  · obtain ⟨view, out, after, hview, -, -, hout, -⟩ := exists_of_render placard
      (by decide +kernel) ⟨-1, 0, 3, 1⟩ (fun _ => true) (by decide +kernel)
    have K : depot.Keeps Promise.none (Workspace.unmoved 0) :=
      (Cache.Store.Keeps.empty (D := Workspace.unmoved 0) trivial).newCache 64
    have hmodest : ∀ call ∈ placards, call.Modest 0 := by
      simp only [placards, List.forall_mem_cons]
      exact ⟨modest_ofRaster, trivial, nofun⟩
    have hanswered : placard.Answered view ⟨-1, 0, 3, 1⟩ out :=
      views_read_zero_outside.2 0 0 ⟨true, false, false⟩ placards K hmodest view placard.studio
        after ⟨-1, 0, 3, 1⟩ out hview rfl hsize hout
    have hdraft : placard.mosaic.options.draft = true := by decide +kernel
    have hvacant : ∀ source ∈ placard.mosaic.sources,
        (⟨-1, 0⟩ : Point) ∉ source.placement.seenFrom placard.mosaic.viewFrame := by decide +kernel
    refine ⟨view, out, after, hview, hout, hanswered.fills, hanswered.zero (.inl hdraft) _ hleft ?_⟩
    rintro ⟨source, hsource, hmem⟩
    exact hvacant source hsource hmem

/-- The coverage of a grey pixel is one to its left, and a mosaic shows a source that lies to the
right of its frame. -/
theorem not_zero_outside :
    (∃ out, (Construction.alpha (.raster stripe)).view.rasterize ⟨-1, 0, 1, 1⟩ = .ok out ∧
      ¬ (Construction.alpha (.raster stripe)).view.Has ⟨-1, 0⟩ ∧
      (out.cell ⟨-1, 0, 1, 1⟩ ⟨-1, 0⟩).same 0 = false) ∧
    ∃ view out after, placard.mosaic.toView placard.studio = .ok view ∧
      placard.studio.perform (view.rasterize ⟨1, 0, 1, 1⟩) = (.ok out, after) ∧
      ¬ view.Has ⟨1, 0⟩ ∧ (out.cell ⟨1, 0, 1, 1⟩ ⟨1, 0⟩).same 0 = false := by
  constructor
  · obtain ⟨out, hout, htest⟩ := exists_eq_ok_of_any
      ((Construction.alpha (.raster stripe)).view.rasterize ⟨-1, 0, 1, 1⟩)
      (fun out => !(out.cell ⟨-1, 0, 1, 1⟩ ⟨-1, 0⟩).same 0) (by decide +kernel)
    exact ⟨out, hout, fun h => absurd h.1 (by decide), by simpa using htest⟩
  · have hcolumns : placard.mosaic.columns = 1 := by decide +kernel
    obtain ⟨view, out, after, hview, hwidth, -, hout, htest⟩ := exists_of_render placard
      (by decide +kernel) ⟨1, 0, 1, 1⟩
      (fun out => !(out.cell ⟨1, 0, 1, 1⟩ ⟨1, 0⟩).same 0) (by decide +kernel)
    refine ⟨view, out, after, hview, hout, fun h => ?_, by simpa using htest⟩
    have hright : (1 : Int) < view.width := h.2.1
    rw [hwidth, hcolumns] at hright
    exact absurd hright (by decide)

end Session

end Patchwork
