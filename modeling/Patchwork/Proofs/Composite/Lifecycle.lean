import Patchwork.Proofs.Cache.Pledges
import Patchwork.Proofs.Composite.Preparing
import Patchwork.Proofs.Composite.Sources
import Patchwork.Proofs.Composite.Steady
import Patchwork.Proofs.Rect.Exact

/-!
# The life of a mosaic

A mosaic is used in any order: sources are added, it is prepared, options are set and rectangles are
rendered, and each of these may be refused.  What a user sees of it follows one course.  As long as
nothing prepared it, it waits: sources get the numbers 0, 1, 2, …, the frame is the smallest
rectangle around them, and rendering is refused.  The first time that preparing succeeds decides the
frame, the depth and the treatment of holes, and closes the list of sources; nothing changes any of
them afterwards.  A refusal changes nothing, wherever it comes from: preparing may fail after some
of the masks were made, and the mosaic still waits.

Whether a mosaic is prepared is written in the workspace, where the views of its sources could reach
it.  They are asked to leave the geometries alone (`Call.Modest`); apart from that they may do
anything and fail at any time.

## Main definitions

* `Call`, `Reply`, `Session` — using a mosaic.
* `Rect.Encloses`, `IsSmallestSide` — the smallest rectangle around sources, their smallest side.
* `Session.places` — where accepted calls put their sources.
* `Session.Step` — what a call does.
* `Session.Orderly` — what holds all the time.
* `Session.Waiting`, `Session.Settled` — before and after the mosaic is prepared.

## Main statements

* `Session.Orderly.step` — what a call can do.
* `Session.Step.orderly`, `Session.Settled.step` — what every call keeps.
* `Session.lifecycle` — any sequence of calls.
-/

namespace Patchwork

open Cache (Handle Promise Drift Recipe Schedule)
open Outcome

variable {σ κ : Type} {format : Format}

/-! ## Using a mosaic -/

/-- What a user asks of a mosaic. -/
inductive Call (σ : Type) (format : Format) (κ : Type) where
  /-- Add a source. -/
  | insert (view : View (Making σ format κ) (Pixel format κ)) (x y : Int)
  /-- Fix the frame and make the masks, side by side. -/
  | prepare (schedule : Schedule) (total : Option Rect)
  /-- Lay sources over one another, or blend them. -/
  | setDraft (draft : Bool)
  /-- Fill holes from now on, or do not. -/
  | setFillHoles (fillHoles : Bool)
  /-- Take the masks that are stored from now on, or make them. -/
  | setReuseMasks (reuseMasks : Bool)
  /-- Make the pixels of a rectangle. -/
  | render (area : Rect)

/-- What the user is given. -/
inductive Reply (format : Format) (κ : Type) where
  /-- The number of a source. -/
  | index (index : Nat)
  /-- The mosaic is prepared. -/
  | prepared
  /-- The option is set. -/
  | set
  /-- The pixels of a rectangle. -/
  | image (raster : Raster (Pixel format κ))

/-- The number, if a source was accepted. -/
def Reply.index? : Outcome (Reply format κ) → Option Nat
  | .ok (.index number) => some number
  | _ => none

/-- Where a call puts a source, if the source was accepted. -/
def Call.place? : Outcome (Reply format κ) → Call σ format κ → Option (Outcome Rect)
  | .ok (.index _), .insert view x y => some (view.bounds.translate x y)
  | _, _ => none

/-- Preparing succeeded. -/
def Reply.isPrepared : Outcome (Reply format κ) → Bool
  | .ok .prepared => true
  | _ => false

theorem Reply.isPrepared_iff {answer : Outcome (Reply format κ)} :
    Reply.isPrepared answer = true ↔ answer = .ok .prepared := by
  constructor
  · intro h
    unfold isPrepared at h
    split at h
    · rfl
    · cases h
  · rintro rfl
    rfl

/-- A mosaic and the store that it works in. -/
structure Session (σ : Type) (format : Format) (κ : Type) where
  /-- The mosaic. -/
  mosaic : Composite
  /-- The store. -/
  studio : Studio σ format κ

namespace Session

/-- The geometry of the mosaic, once fixed. -/
def geometry? (s : Session σ format κ) : Option Geometry := s.mosaic.geometry? s.studio.world

/-- An option is set. -/
def choose (s : Session σ format κ) (change : Options → Options) : Session σ format κ :=
  { s with mosaic := { s.mosaic with options := change s.mosaic.options } }

variable [Channel κ]

/-- A new mosaic in a store. -/
def start (studio : Studio σ format κ) (cache store : Nat) (options : Options) :
    Session σ format κ :=
  ⟨(Composite.create studio cache store options).1, (Composite.create studio cache store options).2⟩

/-- Serve a call.  A mosaic is replaced only when the call succeeds; the store may have worked for
nothing. -/
def serve (s : Session σ format κ) : Call σ format κ → Outcome (Reply format κ) × Session σ format κ
  | .insert view x y =>
    match s.mosaic.insert s.studio view x y with
    | .ok (index, mosaic, studio) => (.ok (.index index), ⟨mosaic, studio⟩)
    | .error cause => (.error cause, s)
  | .prepare schedule total =>
    match s.studio.perform (s.mosaic.prepare schedule total) with
    | (.ok mosaic, studio) => (.ok .prepared, ⟨mosaic, studio⟩)
    | (.error cause, studio) => (.error cause, { s with studio })
  | .setDraft draft => (.ok .set, s.choose fun options => { options with draft })
  | .setFillHoles fillHoles => (.ok .set, s.choose fun options => { options with fillHoles })
  | .setReuseMasks reuseMasks => (.ok .set, s.choose fun options => { options with reuseMasks })
  | .render area =>
    match s.studio.perform (s.mosaic.render area) with
    | (.ok raster, studio) => (.ok (.image raster), { s with studio })
    | (.error cause, studio) => (.error cause, { s with studio })

/-- The session after some calls. -/
def after (s : Session σ format κ) (calls : List (Call σ format κ)) : Session σ format κ :=
  calls.foldl (fun s call => (s.serve call).2) s

/-- What the calls are answered. -/
def answers (s : Session σ format κ) : List (Call σ format κ) → List (Outcome (Reply format κ))
  | [] => []
  | call :: rest => (s.serve call).1 :: (s.serve call).2.answers rest

theorem after_append (s : Session σ format κ) (calls more : List (Call σ format κ)) :
    s.after (calls ++ more) = (s.after calls).after more := List.foldl_append

end Session

/-! ## Rectangles and sides -/

/-- The smallest rectangle around others, and the plain rectangle without pixels when there are
none. -/
structure Rect.Encloses (r : Rect) (parts : List Rect) : Prop where
  /-- It holds all of them. -/
  holds : ∀ part ∈ parts, part ⊆ r
  /-- Every rectangle that holds all of them holds it. -/
  least : ∀ b : Rect, (∀ part ∈ parts, part ⊆ b) → r ⊆ b
  /-- It has pixels when there is something to hold. -/
  proper : parts ≠ [] → ¬ r.IsEmpty
  /-- Otherwise it is plain. -/
  plain : parts = [] → r = .none

namespace Rect

theorem encloses_nil : Rect.none.Encloses [] :=
  ⟨nofun, fun _ _ p hp => absurd hp (not_mem_of_isEmpty (.inl (Int.le_refl 0)) p),
    fun h => absurd rfl h, fun _ => rfl⟩

/-- Growing by one more keeps the smallest rectangle. -/
theorem Encloses.grow {r r' part : Rect} {parts : List Rect} (h : r.Encloses parts)
    (hpart : ¬ part.IsEmpty) (hgrow : r.grow part = .ok r') : r'.Encloses (parts ++ [part]) := by
  obtain rfl : r' = join r part := (ends_grow r part).of_ok hgrow
  refine ⟨?_, ?_, ?_, fun hnil => absurd hnil (by simp)⟩
  · intro a ha p hp
    rcases List.mem_append.mp ha with ha | ha
    · exact subset_join_left r part p (h.holds a ha p hp)
    · obtain rfl := List.mem_singleton.mp ha
      exact subset_join_right r a p hp
  · intro b hb
    obtain ⟨hparts, hlast⟩ := List.forall_mem_append.mp hb
    exact join_subset (h.least b hparts) (hlast part List.mem_cons_self)
  · intro _ hempty
    rw [isEmpty_iff] at hpart hempty
    exact hpart fun p hp => hempty p (subset_join_right r part p hp)

end Rect

/-- The smaller side of a source. -/
def SourceRecord.side (source : SourceRecord) : Nat :=
  min source.placement.columns source.placement.rows

/-- The smallest side of some sources, and the greatest machine word when there are none. -/
structure IsSmallestSide (side : Nat) (sources : List SourceRecord) : Prop where
  /-- No source has a smaller one. -/
  le : ∀ source ∈ sources, side ≤ source.side
  /-- Some source has it. -/
  attained : sources ≠ [] → ∃ source ∈ sources, source.side = side
  /-- Otherwise it is the greatest word. -/
  word : sources = [] → side = wordMax

theorem isSmallestSide_nil : IsSmallestSide wordMax [] :=
  ⟨nofun, fun h => absurd rfl h, fun _ => rfl⟩

/-- One more source. -/
theorem IsSmallestSide.concat {side : Nat} {sources : List SourceRecord} {source : SourceRecord}
    (h : IsSmallestSide side sources) (hsource : source.side ≤ wordMax) :
    IsSmallestSide (min side source.side) (sources ++ [source]) := by
  refine ⟨?_, fun _ => ?_, fun hnil => absurd hnil (by simp)⟩
  · refine List.forall_mem_append.mpr ⟨fun old hold => ?_, fun new hnew => ?_⟩
    · exact Nat.le_trans (Nat.min_le_left _ _) (h.le old hold)
    · obtain rfl := List.mem_singleton.mp hnew
      exact Nat.min_le_right _ _
  · rcases Nat.le_total side source.side with hle | hle
    · by_cases hnil : sources = []
      · have hword := h.word hnil
        exact ⟨source, by simp, by omega⟩
      · obtain ⟨old, hold, heq⟩ := h.attained hnil
        exact ⟨old, List.mem_append_left _ hold, heq.trans (Nat.min_eq_left hle).symm⟩
    · exact ⟨source, by simp, (Nat.min_eq_right hle).symm⟩

/-- The sides of a view's rectangle are coordinates. -/
theorem View.side_le {m : Type → Type} {α : Type} (view : View m α) {x y : Int} {placement : Rect}
    (h : view.bounds.translate x y = .ok placement) :
    min placement.columns placement.rows ≤ wordMax := by
  obtain rfl := (Rect.ends_translate _ _ _).of_ok h
  refine Nat.le_trans (Nat.min_le_left _ _) ?_
  simp only [View.bounds, Rect.ofSize, Rect.clamped, Rect.columns, Coordinate.ofSide,
    Coordinate.highest, wordMax]
  omega

/-! ## What the calls leave alone -/

/-- The geometry of a mosaic stays. -/
def Workspace.unmoved (mosaic : Nat) : Drift (Workspace σ κ) where
  Fits _ := True
  Step w w' := w'.geometries[mosaic]? = w.geometries[mosaic]?
  refl _ := rfl
  trans h h' := h'.trans h
  fits _ := trivial

theorem Workspace.euclidean_unmoved (mosaic : Nat) :
    (Workspace.unmoved mosaic : Drift (Workspace σ κ)).Euclidean :=
  fun h h' => h'.trans h.symm

/-- Nothing is promised. -/
abbrev Cache.Promise.none {V : Type} : Promise V := fun _ _ => True

/-- The view of a source leaves the geometry of the mosaic alone.  It may do anything else, and
fail. -/
def Call.Modest (mosaic : Nat) : Call σ format κ → Prop
  | .insert view _ _ =>
    view.rasterizeAll.Quiet Promise.none (Workspace.unmoved mosaic) fun _ => True
  | _ => True

section Recipes

variable {T : Promise (Value format κ)} {D : Drift (Workspace σ κ)}

/-- A recipe that only drifts from wherever it starts is quiet. -/
theorem Cache.Recipe.quiet_of_completes {ω V α : Type} {T : Promise V} {D : Drift ω}
    {r : Recipe ω V α} (h : ∀ start, (Recipe.since T D start).Completes r) :
    r.Quiet T D fun _ => True :=
  fun w hw => h w w (D.refl hw)

theorem Cache.Promise.grant_none {V : Type} (h : Handle) :
    (Promise.none : Promise V).grant h (fun _ => True) = Promise.none := by
  funext g v
  simp [Promise.grant]

namespace Composite

theorem quiet_pixelsRecipe_none {view : View (Making σ format κ) (Pixel format κ)}
    (hview : view.rasterizeAll.Quiet T D fun _ => True) :
    (pixelsRecipe view).Quiet T D fun _ => True := by
  refine hview.bind fun raster _ => ?_
  split
  · exact (Recipe.Quiet.lift fun _ _ => trivial).bind fun _ _ => Recipe.Quiet.done trivial
  · exact Recipe.Quiet.done trivial

variable [Channel κ]

theorem quiet_alphaRecipe_none (pixels : Handle) :
    (alphaRecipe pixels : Making σ format κ _).Quiet T D fun _ => True := by
  refine Recipe.quiet_of_completes fun start => ?_
  exact .bind (Making.completes_pixels pixels) fun raster =>
    .bind (Recipe.Quiet.demote pixels).since fun _ => .pure _

theorem quiet_distanceRecipe_none (alpha : Handle) :
    (distanceRecipe alpha : Making σ format κ _).Quiet T D fun _ => True := by
  refine Recipe.quiet_of_completes fun start => ?_
  exact .bind (Making.completes_plane alpha) fun plane => .lift_bind fun _ _ => .pure _

/-- Registering the images of a source leaves the geometry of the mosaic alone. -/
theorem keeps_enrol_none {studio : Studio σ format κ} {mosaic : Nat}
    (K : studio.Keeps Promise.none (Workspace.unmoved mosaic)) (c : Composite) (placement : Rect)
    {view : View (Making σ format κ) (Pixel format κ)}
    (hview : view.rasterizeAll.Quiet Promise.none (Workspace.unmoved mosaic) fun _ => True) :
    (c.enrol studio view placement).Keeps Promise.none (Workspace.unmoved mosaic) := by
  have keep : ∀ {studio : Studio σ format κ} {recipe : Making σ format κ (Value format κ)},
      studio.Keeps Promise.none (Workspace.unmoved mosaic) →
      recipe.Quiet Promise.none (Workspace.unmoved mosaic) (fun _ => True) →
      ∀ size holds, (studio.insert c.cache size recipe holds).2.Keeps Promise.none
        (Workspace.unmoved mosaic) := by
    intro studio recipe K hrecipe size holds
    have K' := K.insert hrecipe c.cache size holds
    rwa [Promise.grant_none] at K'
  have K1 := keep K (quiet_pixelsRecipe_none hview)
    (planeBytes view.width view.height (Cell.bytes (Pixel format κ))) []
  have K2 := keep K1 (quiet_alphaRecipe_none ⟨studio.catalogue.size⟩)
    (planeBytes view.width view.height (Cell.bytes κ)) [⟨studio.catalogue.size⟩]
  have K3 := keep K2 (quiet_distanceRecipe_none ⟨studio.catalogue.size + 1⟩)
    (planeBytes view.width view.height (Cell.bytes κ)) [⟨studio.catalogue.size + 1⟩]
  exact keep K3 (quiet_pyramidRecipe c.number c.maskStore c.sources.length placement) _ _

/-- Making masks leaves every geometry alone, as far as it gets. -/
theorem completes_makeMasks_unmoved (c : Composite) (schedule : Schedule) {mosaic : Nat}
    (start : Workspace σ κ) :
    (Recipe.since T (Workspace.unmoved mosaic) start).Completes
      (c.makeMasks schedule : Making σ format κ _) :=
  c.completes_makeMasks (Workspace.euclidean_unmoved mosaic) schedule fun w index mask hw =>
    (congrArg (·[mosaic]?) (w.geometries_saveMask c.maskStore index mask)).trans hw

/-- What preparing does before the geometry is fixed leaves the geometry alone, as far as it gets,
and it gets to the end only if the mosaic waits to be prepared and has sources. -/
theorem ensures_groundwork_unmoved (c : Composite) (schedule : Schedule) (total : Option Rect)
    (w : Workspace σ κ) :
    (c.groundwork schedule total : Making σ format κ Unit).Ensures T (Workspace.unmoved c.number)
      ((Workspace.unmoved c.number).Step w)
      (fun _ w' => (Workspace.unmoved c.number).Step w w' ∧ c.geometry? w = none ∧
        c.sources ≠ []) w := by
  unfold groundwork
  have hread : (Recipe.observe fun w : Workspace σ κ => c.geometry? w :
      Making σ format κ (Option Geometry)).Ensures T (Workspace.unmoved c.number)
      ((Workspace.unmoved c.number).Step w)
      (fun prepared w' => prepared = c.geometry? w ∧ w' = w) w := ⟨rfl, rfl⟩
  apply hread.bind
  rintro _ w' ⟨rfl, rfl⟩
  by_cases htwice : (c.geometry? w').isSome
  · rw [if_pos htwice]
    exact rfl
  rw [if_neg htwice]
  by_cases hnone : c.sources.isEmpty
  · rw [if_pos hnone]
    exact rfl
  rw [if_neg hnone]
  by_cases hframe : total.isSome ∧ (total.getD c.viewFrame).IsEmpty
  · rw [if_pos hframe]
    exact rfl
  rw [if_neg hframe]
  have hready : c.geometry? w' = none ∧ c.sources ≠ [] :=
    ⟨Option.not_isSome_iff_eq_none.mp htwice, by simpa using hnone⟩
  by_cases hmake : (!c.options.draft && !c.options.reuseMasks) = true
  · simp only [if_pos hmake]
    exact (completes_makeMasks_unmoved c schedule w' w' rfl).mono (fun _ _ => id) (fun _ => id)
      fun _ _ h => ⟨h.2, hready⟩
  · simp only [if_neg hmake]
    exact ⟨rfl, hready⟩

/-- Preparing fixes the geometry of the mosaic if it succeeds, and leaves it alone otherwise. -/
theorem ensures_prepare_unmoved (c : Composite) (schedule : Schedule) (total : Option Rect)
    (w : Workspace σ κ) :
    (c.prepare schedule total : Making σ format κ _).Ensures T (Workspace.unmoved c.number)
      ((Workspace.unmoved c.number).Step w)
      (fun c' w' => c' = { c with viewFrame := total.getD c.viewFrame } ∧
        w'.geometries[c.number]? =
          w.geometries[c.number]?.map (fun _ => some (c.geometryFor total)) ∧
        c.geometry? w = none ∧ c.sources ≠ []) w := by
  rw [prepare_eq]
  apply (ensures_groundwork_unmoved c schedule total w).bind
  rintro _ w' ⟨hstep, hready⟩
  refine ⟨trivial, rfl, ?_, hready⟩
  simp only [Workspace.fix, Array.getElem?_setIfInBounds_self]
  rw [← hstep]
  split <;> simp_all

end Composite

end Recipes

/-! ## One call -/

namespace Session

variable {s s' before : Session σ format κ} {call : Call σ format κ}
  {answer : Outcome (Reply format κ)} {geometry : Geometry}

/-- The store keeps what making images leaves alone, and so far nothing happened to the geometry of
the mosaic. -/
structure Kept (s : Session σ format κ) (studio : Studio σ format κ) : Prop where
  /-- Making images leaves the geometry alone. -/
  keeps : studio.Keeps Promise.none (Workspace.unmoved s.mosaic.number)
  /-- It was left alone. -/
  geometry : (Workspace.unmoved s.mosaic.number).Step s.studio.world studio.world

/-- What a call does to a session. -/
inductive Step (s : Session σ format κ) :
    Call σ format κ → Outcome (Reply format κ) → Session σ format κ → Prop
  /-- A source is accepted as long as the mosaic waits. -/
  | accept {view : View (Making σ format κ) (Pixel format κ)} {x y : Int}
      {placement viewFrame dataFrame : Rect} {number : Nat} {studio : Studio σ format κ}
      (hwaits : s.geometry? = none) (hplacement : view.bounds.translate x y = .ok placement)
      (hpixels : ¬ placement.IsEmpty) (hview : s.mosaic.viewFrame.grow placement = .ok viewFrame)
      (hdata : s.mosaic.dataFrame.grow placement = .ok dataFrame) (K : s.Kept studio) :
      Step s (.insert view x y) (.ok (.index s.mosaic.sources.length))
        ⟨{ s.mosaic with
          sources := s.mosaic.sources ++ [Composite.numbered placement number]
          viewFrame
          dataFrame
          smallestSide := min s.mosaic.smallestSide
            (Composite.numbered placement number).side }, studio⟩
  /-- The geometry is fixed, once, if there are sources. -/
  | fix {schedule : Schedule} {total : Option Rect} {studio : Studio σ format κ}
      (hwaits : s.geometry? = none) (hsources : s.mosaic.sources ≠ [])
      (K : studio.Keeps Promise.none (Workspace.unmoved s.mosaic.number))
      (hgeometry : studio.world.geometries[s.mosaic.number]? =
        some (some (s.mosaic.geometryFor total))) :
      Step s (.prepare schedule total) (.ok .prepared)
        ⟨{ s.mosaic with viewFrame := total.getD s.mosaic.viewFrame }, studio⟩
  /-- An option is set. -/
  | choose {call : Call σ format κ} (change : Options → Options) :
      Step s call (.ok .set) (s.choose change)
  /-- An image is made. -/
  | image {area : Rect} {raster : Raster (Pixel format κ)} {studio : Studio σ format κ}
      (K : s.Kept studio) : Step s (.render area) (.ok (.image raster)) { s with studio }
  /-- Nothing, or some work that was for nothing. -/
  | refuse {call : Call σ format κ} {cause : Failure} {studio : Studio σ format κ}
      (K : s.Kept studio) : Step s call (.error cause) { s with studio }

/-- What holds of a session all the time. -/
structure Orderly (s : Session σ format κ) : Prop where
  /-- Making images leaves the geometry of the mosaic alone. -/
  keeps : s.studio.Keeps Promise.none (Workspace.unmoved s.mosaic.number)
  /-- The geometry has its place. -/
  placed : (s.studio.world.geometries[s.mosaic.number]?).isSome
  /-- The frame of the data is the smallest around the sources. -/
  encloses : s.mosaic.dataFrame.Encloses (s.mosaic.sources.map (·.placement))
  /-- The smallest side is that of the sources. -/
  smallestSide : IsSmallestSide s.mosaic.smallestSide s.mosaic.sources
  /-- The viewer's frame is that of the data until it is fixed. -/
  waits : s.geometry? = none → s.mosaic.viewFrame = s.mosaic.dataFrame

theorem Orderly.kept (O : s.Orderly) : s.Kept s.studio := ⟨O.keeps, rfl⟩

/-- The geometry is read where it has its place. -/
theorem Kept.geometry?_eq {mosaic : Composite} {studio : Studio σ format κ} (K : s.Kept studio)
    (hnumber : mosaic.number = s.mosaic.number) :
    Session.geometry? (⟨mosaic, studio⟩ : Session σ format κ) = s.geometry? := by
  simp only [Session.geometry?, Composite.geometry?, Workspace.geometry?, hnumber]
  rw [show studio.world.geometries[s.mosaic.number]? = _ from K.geometry]

namespace Step

theorem number (S : s.Step call answer s') : s'.mosaic.number = s.mosaic.number := by
  cases S <;> rfl

/-- Only preparing changes the geometry. -/
theorem geometry?_eq (S : s.Step call answer s') (hanswer : answer ≠ .ok .prepared) :
    s'.geometry? = s.geometry? := by
  cases S with
  | accept hwaits hplacement hpixels hview hdata K => exact K.geometry?_eq rfl
  | fix => exact absurd rfl hanswer
  | choose change => rfl
  | image K | refuse K => exact K.geometry?_eq rfl

/-- A refusal leaves the mosaic and its geometry. -/
theorem eq_of_error {cause : Failure} (S : s.Step call (.error cause) s') :
    s'.mosaic = s.mosaic ∧ s'.geometry? = s.geometry? := by
  refine ⟨?_, S.geometry?_eq nofun⟩
  cases S
  rfl

/-- The numbers that were given are those of the sources. -/
theorem range (S : s.Step call answer s') :
    List.range s.mosaic.sources.length ++ (Reply.index? answer).toList =
      List.range s'.mosaic.sources.length := by
  cases S with
  | accept => simp [Reply.index?, List.range_succ]
  | fix | choose | image | refuse => exact List.append_nil _

/-- A source that is accepted is recorded where the call puts it. -/
theorem places (S : s.Step call answer s') :
    s.mosaic.sources.map (fun source => Except.ok source.placement) ++
        (call.place? answer).toList =
      s'.mosaic.sources.map (fun source => Except.ok source.placement) := by
  cases S with
  | accept hwaits hplacement =>
    rw [Call.place?, hplacement, List.map_append]
    rfl
  | fix | choose | image | refuse => exact List.append_nil _

/-- What holds all the time is kept by every call. -/
theorem orderly (S : s.Step call answer s') (O : s.Orderly) : s'.Orderly := by
  cases S with
  | @accept view x y placement viewFrame dataFrame number studio hwaits hplacement hpixels hview
      hdata K =>
    refine ⟨K.keeps, ?_, ?_, O.smallestSide.concat (view.side_le hplacement), fun _ => ?_⟩
    · exact K.geometry ▸ O.placed
    · rw [List.map_append]
      exact O.encloses.grow hpixels hdata
    · rw [O.waits hwaits] at hview
      exact Except.ok.inj (hview.symm.trans hdata)
  | fix hwaits hsources K hgeometry =>
    refine ⟨K, ?_, O.encloses, O.smallestSide, fun hnone => ?_⟩
    · rw [hgeometry]
      rfl
    · simp [Session.geometry?, Composite.geometry?, Workspace.geometry?, hgeometry] at hnone
  | choose change => exact ⟨O.keeps, O.placed, O.encloses, O.smallestSide, O.waits⟩
  | image K | refuse K =>
    exact ⟨K.keeps, K.geometry ▸ O.placed, O.encloses, O.smallestSide, fun hnone =>
      O.waits ((K.geometry?_eq rfl).symm.trans hnone)⟩

end Step

/-- The geometry was fixed, and the sources were closed, when the session was as `before`. -/
structure Settled (before : Session σ format κ) (geometry : Geometry) (s : Session σ format κ) :
    Prop where
  /-- The geometry is fixed. -/
  geometry?_eq : s.geometry? = some geometry
  /-- It is what the viewer sees. -/
  viewFrame : s.mosaic.viewFrame = geometry.frame
  /-- The sources are those of then. -/
  sources : s.mosaic.sources = before.mosaic.sources
  /-- So is the frame around them. -/
  dataFrame : s.mosaic.dataFrame = before.mosaic.dataFrame

/-- Preparing settles the mosaic. -/
theorem Step.settled {schedule : Schedule} {total : Option Rect}
    (S : s.Step (.prepare schedule total) (.ok .prepared) s') :
    s.mosaic.sources ≠ [] ∧ Settled s (s.mosaic.geometryFor total) s' := by
  cases S with
  | fix hwaits hsources K hgeometry =>
    refine ⟨hsources, ?_, rfl, rfl, rfl⟩
    simp [Session.geometry?, Composite.geometry?, Workspace.geometry?, hgeometry]

/-- **A settled mosaic stays as it is**, whatever is asked of it. -/
theorem Settled.step (h : before.Settled geometry s) (S : s.Step call answer s') :
    before.Settled geometry s' := by
  have hanswer : answer ≠ .ok .prepared := by
    rintro rfl
    cases S with
    | fix hwaits => exact absurd (hwaits.symm.trans h.geometry?_eq) nofun
  have hgeometry := (S.geometry?_eq hanswer).trans h.geometry?_eq
  cases S with
  | accept hwaits => exact absurd (hwaits.symm.trans h.geometry?_eq) nofun
  | fix => exact absurd rfl hanswer
  | choose | image | refuse => exact ⟨hgeometry, h.viewFrame, h.sources, h.dataFrame⟩

/-! ## Serving calls -/

variable [Channel κ]

theorem Orderly.serve_insert (O : s.Orderly) (view : View (Making σ format κ) (Pixel format κ))
    (x y : Int) (hview : (Call.insert view x y).Modest s.mosaic.number) :
    s.Step (.insert view x y) (s.serve (.insert view x y)).1 (s.serve (.insert view x y)).2 := by
  rw [serve]
  cases hinsert : s.mosaic.insert s.studio view x y with
  | error cause => exact .refuse O.kept
  | ok accepted =>
    obtain ⟨index, mosaic, studio⟩ := accepted
    obtain ⟨placement, viewFrame, dataFrame, hwaits, hplacement, hpixels, hframe, hdata, rfl, rfl,
      rfl⟩ := Composite.accepted_of_insert hinsert
    refine .accept hwaits hplacement hpixels hframe hdata
      ⟨Composite.keeps_enrol_none O.keeps s.mosaic placement hview, ?_⟩
    simp only [Composite.enrol, Cache.Store.world_insert]
    rfl

theorem Orderly.serve_prepare (O : s.Orderly) (schedule : Schedule) (total : Option Rect) :
    s.Step (.prepare schedule total) (s.serve (.prepare schedule total)).1
      (s.serve (.prepare schedule total)).2 := by
  rw [serve]
  rcases hprepare : s.studio.perform (s.mosaic.prepare schedule total) with ⟨cause | mosaic, studio⟩
  all_goals obtain ⟨K, hok, herror⟩ :=
    O.keeps.perform (Composite.ensures_prepare_unmoved s.mosaic schedule total _) hprepare
  · exact .refuse ⟨K, herror cause rfl⟩
  · obtain ⟨rfl, hgeometry, hwaits, hsources⟩ := hok mosaic rfl
    obtain ⟨slot, hslot⟩ := Option.isSome_iff_exists.mp O.placed
    rw [hslot] at hgeometry
    exact .fix hwaits hsources K hgeometry

theorem Orderly.serve_render (O : s.Orderly) (area : Rect) :
    s.Step (.render area) (s.serve (.render area)).1 (s.serve (.render area)).2 := by
  rw [serve]
  have hrender : (Recipe.since Promise.none (Workspace.unmoved s.mosaic.number)
      s.studio.world).Completes (s.mosaic.render area : Making σ format κ _) :=
    Composite.completes_render s.mosaic area
  rcases hperform : s.studio.perform (s.mosaic.render area) with ⟨cause | raster, studio⟩
  all_goals obtain ⟨K, hok, herror⟩ := O.keeps.perform (hrender _ rfl) hperform
  · exact .refuse ⟨K, herror cause rfl⟩
  · exact .image ⟨K, (hok raster rfl).2⟩

/-- **Every call** does one of five things. -/
theorem Orderly.step (O : s.Orderly) (hcall : call.Modest s.mosaic.number) :
    s.Step call (s.serve call).1 (s.serve call).2 := by
  cases call with
  | insert view x y => exact O.serve_insert view x y hcall
  | prepare schedule total => exact O.serve_prepare schedule total
  | setDraft draft => exact .choose fun options => { options with draft }
  | setFillHoles fillHoles => exact .choose fun options => { options with fillHoles }
  | setReuseMasks reuseMasks => exact .choose fun options => { options with reuseMasks }
  | render area => exact O.serve_render area

/-! ## A mosaic that waits -/

/-- The mosaic waits to be prepared. -/
structure Waiting (s : Session σ format κ) : Prop where
  /-- There is no geometry. -/
  geometry?_eq : s.geometry? = none
  /-- The frame of the data is what a viewer would see. -/
  viewFrame : s.mosaic.viewFrame = s.mosaic.dataFrame
  /-- Rendering is refused. -/
  render : ∀ area, s.serve (.render area) = (.error (.problem (.validation .earlyRender)), s)
  /-- Preparing succeeds if there are sources and pixels in the frame, and if the masks can be made
  in case that they are to be made. -/
  prepare : ∀ schedule total, s.mosaic.sources ≠ [] →
    (∀ frame, total = some frame → ¬ frame.IsEmpty) →
    (s.mosaic.options.draft = true ∨ s.mosaic.options.reuseMasks = true ∨
      (s.studio.perform (s.mosaic.makeMasks schedule)).1 = .ok ()) →
    (s.serve (.prepare schedule total)).1 = .ok .prepared

/-- Rendering is refused at once. -/
theorem serve_render_of_none (hnone : s.geometry? = none) (area : Rect) :
    s.serve (.render area) = (.error (.problem (.validation .earlyRender)), s) := by
  have hearly : s.studio.perform (s.mosaic.render area) =
      (.error (.problem (.validation .earlyRender)), s.studio) := by
    unfold Composite.render
    have hread : s.studio.perform (Recipe.observe fun w => s.mosaic.geometry? w) =
        (.ok s.geometry?, s.studio) := rfl
    rw [Cache.Store.perform_bind, hread, hnone]
    rfl
  rw [serve, hearly]

/-- The first part of preparing is to make the masks, if they are to be made. -/
theorem perform_groundwork (hnone : s.geometry? = none) (hsources : s.mosaic.sources ≠ [])
    (schedule : Schedule) {total : Option Rect}
    (htotal : ∀ frame, total = some frame → ¬ frame.IsEmpty) :
    s.studio.perform (s.mosaic.groundwork schedule total) =
      if !s.mosaic.options.draft && !s.mosaic.options.reuseMasks then
        s.studio.perform (s.mosaic.makeMasks schedule)
      else (.ok (), s.studio) := by
  have hframe : ¬ (total.isSome ∧ (total.getD s.mosaic.viewFrame).IsEmpty) := by
    rintro ⟨hsome, hempty⟩
    obtain ⟨frame, rfl⟩ := Option.isSome_iff_exists.mp hsome
    exact htotal frame rfl hempty
  have hwaits : ¬ (s.mosaic.geometry? s.studio.world).isSome := by
    rw [show s.mosaic.geometry? s.studio.world = none from hnone]
    exact Bool.false_ne_true
  unfold Composite.groundwork
  rw [Cache.Store.perform_bind]
  change s.studio.perform (if (s.mosaic.geometry? s.studio.world).isSome then _ else _) = _
  rw [if_neg hwaits, if_neg (by simpa using hsources), if_neg hframe]
  split <;> rfl

/-- Preparing succeeds as soon as the masks can be made. -/
theorem serve_prepare_of_none (hnone : s.geometry? = none) (hsources : s.mosaic.sources ≠ [])
    {schedule : Schedule} {total : Option Rect}
    (htotal : ∀ frame, total = some frame → ¬ frame.IsEmpty)
    (hmasks : s.mosaic.options.draft = true ∨ s.mosaic.options.reuseMasks = true ∨
      (s.studio.perform (s.mosaic.makeMasks schedule)).1 = .ok ()) :
    (s.serve (.prepare schedule total)).1 = .ok .prepared := by
  have hground : (s.studio.perform (s.mosaic.groundwork schedule total)).1 = .ok () := by
    rw [perform_groundwork hnone hsources schedule htotal]
    split
    · next hmake =>
      rw [Bool.and_eq_true, Bool.not_eq_true', Bool.not_eq_true'] at hmake
      exact (hmasks.resolve_left (by simp [hmake.1])).resolve_left (by simp [hmake.2])
    · rfl
  rw [serve, Composite.prepare_eq, Cache.Store.perform_bind]
  rcases hrun : s.studio.perform (s.mosaic.groundwork schedule total) with ⟨cause | ⟨⟩, studio⟩
  · rw [hrun] at hground
    cases hground
  · rfl

theorem Orderly.waiting (O : s.Orderly) (hnone : s.geometry? = none) : s.Waiting :=
  ⟨hnone, O.waits hnone, serve_render_of_none hnone, fun _ _ hsources htotal =>
    serve_prepare_of_none hnone hsources htotal⟩

/-! ## Any sequence of calls -/

section Runs

variable {calls : List (Call σ format κ)}

/-- Where the calls put the sources that were accepted. -/
def places (s : Session σ format κ) (calls : List (Call σ format κ)) : List (Outcome Rect) :=
  (List.zipWith Call.place? (s.answers calls) calls).reduceOption

/-- What holds all the time holds after any calls, and sources were numbered and recorded in
order. -/
theorem Orderly.after (O : s.Orderly)
    (hcalls : ∀ call ∈ calls, call.Modest s.mosaic.number) :
    (s.after calls).Orderly ∧ (s.after calls).mosaic.number = s.mosaic.number ∧
      List.range s.mosaic.sources.length ++ (s.answers calls).filterMap Reply.index? =
        List.range (s.after calls).mosaic.sources.length ∧
      s.mosaic.sources.map (fun source => .ok source.placement) ++ s.places calls =
        (s.after calls).mosaic.sources.map fun source => .ok source.placement := by
  induction calls generalizing s with
  | nil => exact ⟨O, rfl, List.append_nil _, List.append_nil _⟩
  | cons call rest ih =>
    obtain ⟨hcall, hrest⟩ := List.forall_mem_cons.mp hcalls
    have S := O.step hcall
    rw [← S.number] at hrest
    obtain ⟨O', hnumber, hrange, hplaces⟩ := ih (S.orderly O) hrest
    refine ⟨O', hnumber.trans S.number, Eq.trans ?_ hrange, Eq.trans ?_ hplaces⟩
    · rw [← S.range, List.append_assoc, answers, List.filterMap_cons]
      cases Reply.index? (s.serve call).1 <;> rfl
    · rw [← S.places, List.append_assoc, places, answers, List.zipWith_cons_cons]
      cases call.place? (s.serve call).1 <;> rfl

/-- As long as preparing does not succeed the geometry stays. -/
theorem Orderly.geometry?_after (O : s.Orderly)
    (hcalls : ∀ call ∈ calls, call.Modest s.mosaic.number)
    (hanswers : ∀ answer ∈ s.answers calls, answer ≠ .ok .prepared) :
    Session.geometry? (s.after calls) = s.geometry? := by
  induction calls generalizing s with
  | nil => rfl
  | cons call rest ih =>
    obtain ⟨hcall, hrest⟩ := List.forall_mem_cons.mp hcalls
    obtain ⟨hanswer, hanswers⟩ := List.forall_mem_cons.mp hanswers
    have S := O.step hcall
    rw [← S.number] at hrest
    exact (ih (S.orderly O) hrest hanswers).trans (S.geometry?_eq hanswer)

/-- A settled mosaic stays as it is, whatever is asked of it. -/
theorem Settled.after (h : before.Settled geometry s) (O : s.Orderly)
    (hcalls : ∀ call ∈ calls, call.Modest s.mosaic.number) :
    before.Settled geometry (s.after calls) := by
  induction calls generalizing s with
  | nil => exact h
  | cons call rest ih =>
    obtain ⟨hcall, hrest⟩ := List.forall_mem_cons.mp hcalls
    have S := O.step hcall
    rw [← S.number] at hrest
    exact ih (h.step S) (S.orderly O) hrest

omit [Channel κ] in
/-- A new mosaic. -/
theorem orderly_start {studio : Studio σ format κ}
    (K : studio.Keeps Promise.none (Workspace.unmoved studio.world.geometries.size))
    (cache store : Nat) (options : Options) : (start studio cache store options).Orderly := by
  refine ⟨K.amend trivial, ?_, Rect.encloses_nil, isSmallestSide_nil, fun _ => rfl⟩
  simp [start, Composite.create, Cache.Store.amend, Cache.Store.world]

omit [Channel κ] in
theorem geometry?_start (studio : Studio σ format κ) (cache store : Nat) (options : Options) :
    Session.geometry? (start studio cache store options) = none := by
  simp [start, Composite.create, Cache.Store.amend, Cache.Store.world, geometry?,
    Composite.geometry?, Workspace.geometry?]

/-- **The life of a mosaic**, in any order of calls, with views that may fail.  The sources that are
accepted get the numbers 0, 1, 2, …, each is recorded where its call puts it, and the frame of the
data is the smallest around them.  As long as preparing did not succeed the mosaic waits.  The first
time it does settles the mosaic for good: the frame is what was asked for, or that of the data; the
depth is that of the smallest side of any source; holes are treated as the options say then.  And a
refusal leaves the mosaic and its geometry as they were. -/
theorem lifecycle {studio : Studio σ format κ}
    (K : studio.Keeps Promise.none (Workspace.unmoved studio.world.geometries.size))
    (cache store : Nat) (options : Options)
    (hcalls : ∀ call ∈ calls, call.Modest studio.world.geometries.size) :
    let opening := start studio cache store options
    let s := opening.after calls
    (opening.answers calls).filterMap Reply.index? = List.range s.mosaic.sources.length ∧
    opening.places calls = s.mosaic.sources.map (fun source => .ok source.placement) ∧
    s.mosaic.dataFrame.Encloses (s.mosaic.sources.map (·.placement)) ∧
    ((∀ answer ∈ opening.answers calls, answer ≠ .ok .prepared) → s.Waiting) ∧
    (∀ first schedule total rest, calls = first ++ .prepare schedule total :: rest →
      (∀ answer ∈ opening.answers first, answer ≠ .ok .prepared) →
      ((opening.after first).serve (.prepare schedule total)).1 = .ok .prepared →
      ∃ source ∈ (opening.after first).mosaic.sources,
        (∀ other ∈ (opening.after first).mosaic.sources, source.side ≤ other.side) ∧
        (opening.after first).Settled ⟨total.getD (opening.after first).mosaic.dataFrame,
          Pyramid.depth source.side, (opening.after first).mosaic.options.fillHoles⟩ s) ∧
    ∀ call : Call σ format κ, call.Modest studio.world.geometries.size → ∀ cause s',
      s.serve call = (.error cause, s') →
        s'.mosaic = s.mosaic ∧ s'.geometry? = s.geometry? := by
  intro opening s
  have O : opening.Orderly := orderly_start K cache store options
  have hnone : opening.geometry? = none := geometry?_start studio cache store options
  obtain ⟨Os, hnumber, hrange, hplaces⟩ := O.after hcalls
  refine ⟨hrange, hplaces, Os.encloses, fun hanswers => ?_, ?_,
    fun call hcall cause s' hserve => ?_⟩
  · exact Os.waiting ((O.geometry?_after hcalls hanswers).trans hnone)
  · rintro first schedule total rest rfl hanswers hsuccess
    obtain ⟨hfirst, hrest⟩ := List.forall_mem_append.mp hcalls
    obtain ⟨hcall, hrest⟩ := List.forall_mem_cons.mp hrest
    obtain ⟨Of, hnumber, -, -⟩ := O.after hfirst
    have hwaits := Of.waits ((O.geometry?_after hfirst hanswers).trans hnone)
    have S := Of.serve_prepare schedule total
    rw [hsuccess] at S
    rw [← show _ = studio.world.geometries.size from S.number.trans hnumber] at hrest
    obtain ⟨hsources, hsettled⟩ := S.settled
    obtain ⟨source, hmem, hside⟩ := Of.smallestSide.attained hsources
    refine ⟨source, hmem, fun other hother => hside ▸ Of.smallestSide.le other hother, ?_⟩
    rw [← hwaits, hside, show s = (opening.after first).after (.prepare schedule total :: rest) from
      after_append opening first _]
    exact hsettled.after (S.orderly Of) hrest
  · rw [← show s.mosaic.number = studio.world.geometries.size from hnumber] at hcall
    have S := Os.step hcall
    rw [hserve] at S
    exact S.eq_of_error

end Runs

/-- A pixel and a half. -/
def pebbles : Raster (Pixel .grayAlpha ℚ) :=
  Raster.tabulate 2 1 fun x _ => ⟨#v[1 / 4, if 0 < x then 1 else 1 / 2]⟩

/-- A view that fails when it is asked for the first time, and keeps that in mind. -/
def shy : View (Making Bool .grayAlpha ℚ) (Pixel .grayAlpha ℚ) where
  width := 2
  height := 1
  rasterize area := do
    let asked ← Recipe.observe Workspace.own
    Recipe.amend fun w => { w with own := true }
    if asked then
      (pebbles.region area : Outcome _)
    else
      (Outcome.undelivered (.because "not yet") : Outcome _)

/-- A cache for a few pixels. -/
def atelier : Studio Bool .grayAlpha ℚ :=
  ((Cache.Store.empty ⟨Files.empty, #[MaskStore.empty], #[], #[], false⟩).newCache 64).2

/-- Two sources are accepted; a render and a source without pixels are refused.  Preparing fails
after the first mask was stored. -/
def early : List (Call Bool .grayAlpha ℚ) :=
  [.render ⟨0, 0, 1, 1⟩, .insert (View.ofRaster pebbles) 0 0,
    .insert (View.ofRaster (.zeros 0 1)) 7 7, .insert shy 4 3, .prepare Composite.inTurns none,
    .setFillHoles true]

/-- A source and preparing are refused; an option is set and a rectangle rendered. -/
def late : List (Call Bool .grayAlpha ℚ) :=
  [.insert (View.ofRaster pebbles) 9 9, .prepare .inOrder none, .setFillHoles false,
    .render ⟨0, 0, 5, 1⟩]

/-- All of this, with a frame of its own when the mosaic is prepared in between. -/
def vicissitudes : List (Call Bool .grayAlpha ℚ) :=
  early ++ .prepare Composite.inTurns (some ⟨0, 0, 6, 4⟩) :: late

theorem modest_shy (x y : Int) : (Call.insert shy x y).Modest 0 := by
  refine (Recipe.Quiet.observe _).bind fun asked _ => Recipe.Quiet.bind (P := fun _ => True) ?_ ?_
  · exact fun w _ => ⟨trivial, trivial, rfl⟩
  · intro _ _
    split <;> exact Recipe.Quiet.lift fun _ _ => trivial

/-- A mosaic of which nothing was asked yet. -/
def opening : Session Bool .grayAlpha ℚ := start atelier 0 0 ⟨false, false, false⟩

/-- A mosaic that cannot be prepared at first, and can when it is asked again. -/
theorem lifecycle_shy :
    (opening.after early).Waiting ∧ (opening.after early).studio.world.own = true ∧
    ((opening.after early).studio.world.loadMask 0 0).isOk ∧
    (opening.answers vicissitudes).filterMap Reply.index? = [0, 1] ∧
    (opening.after vicissitudes).mosaic.sources.map (·.placement) = [⟨0, 0, 2, 1⟩, ⟨4, 3, 2, 1⟩] ∧
    Session.geometry? (opening.after vicissitudes) = some ⟨⟨0, 0, 6, 4⟩, 1, true⟩ ∧
    (opening.after vicissitudes).mosaic.sources.length = 2 ∧
    (opening.after vicissitudes).mosaic.options.fillHoles = false := by
  have K : atelier.Keeps Promise.none (Workspace.unmoved 0) :=
    (Cache.Store.Keeps.empty (D := Workspace.unmoved 0) trivial).newCache 64
  have hfixed : ∀ {raster : Raster (Pixel .grayAlpha ℚ)} {x y : Int},
      (Call.insert (View.ofRaster raster) x y : Call Bool .grayAlpha ℚ).Modest 0 :=
    Recipe.Quiet.lift fun _ _ => trivial
  have hearly : ∀ call ∈ early, call.Modest 0 := by
    simp only [early, List.forall_mem_cons]
    exact ⟨trivial, hfixed, hfixed, modest_shy 4 3, trivial, trivial, nofun⟩
  have hcalls : ∀ call ∈ vicissitudes, call.Modest 0 := by
    refine List.forall_mem_append.mpr ⟨hearly, ?_⟩
    simp only [late, List.forall_mem_cons]
    exact ⟨trivial, hfixed, trivial, trivial, trivial, nofun⟩
  have hunprepared : (opening.answers early).all (fun answer => !Reply.isPrepared answer) := by
    decide +kernel
  have hwaits : ∀ answer ∈ opening.answers early, answer ≠ .ok .prepared := by
    intro answer hanswer hprepared
    have hnot := List.all_eq_true.mp hunprepared answer hanswer
    rw [Reply.isPrepared_iff.mpr hprepared] at hnot
    cases hnot
  have hprepared : ((opening.after early).serve
      (.prepare Composite.inTurns (some ⟨0, 0, 6, 4⟩))).1 = .ok .prepared :=
    Reply.isPrepared_iff.mp (by decide +kernel)
  have hsides : ∀ source ∈ (opening.after early).mosaic.sources, source.side = 1 := by
    decide +kernel
  have hfill : (opening.after early).mosaic.options.fillHoles = true := by decide +kernel
  have hlength : (opening.after vicissitudes).mosaic.sources.length = 2 := by decide +kernel
  have hasked : (opening.after early).studio.world.own = true := by decide +kernel
  have hstored : ((opening.after early).studio.world.loadMask 0 0).isOk := by decide +kernel
  have hchosen : (opening.after vicissitudes).mosaic.options.fillHoles = false := by decide +kernel
  have hput : opening.places vicissitudes = [⟨0, 0, 2, 1⟩, ⟨4, 3, 2, 1⟩].map .ok := by
    decide +kernel
  obtain ⟨-, -, -, hwaiting, -, -⟩ := lifecycle K 0 0 ⟨false, false, false⟩ hearly
  obtain ⟨hrange, hplaces, -, -, hsettled, -⟩ := lifecycle K 0 0 ⟨false, false, false⟩ hcalls
  have hopening : start atelier 0 0 ⟨false, false, false⟩ = opening := rfl
  rw [hopening] at hwaiting hrange hplaces hsettled
  -- from here on nothing is to be computed
  generalize opening = opening at *
  obtain ⟨source, hsource, -, S⟩ := hsettled early _ (some ⟨0, 0, 6, 4⟩) late rfl hwaits hprepared
  rw [hsides source hsource, hfill] at S
  rw [hlength] at hrange
  have hrecorded : (opening.after vicissitudes).mosaic.sources.map (·.placement) =
      [⟨0, 0, 2, 1⟩, ⟨4, 3, 2, 1⟩] := by
    apply List.map_injective_iff.mpr fun _ _ => Except.ok.inj
    rw [List.map_map, ← hput, hplaces]
    rfl
  exact ⟨hwaiting hwaits, hasked, hstored, hrange, hrecorded, S.geometry?_eq, hlength, hchosen⟩

end Session

end Patchwork
