import Patchwork.Proofs.Composite.Masks
import Patchwork.Tiling

/-!
# What making images leaves alone

Rendering a mosaic reads the workspace and changes nothing in it; only the views of the sources may,
when their pixels are needed.  So whatever is rendered, in tiles or not, the cache keeps its
promises and the geometries stay.  Preparing a mosaic stores masks and then fixes its geometry.

## Main definitions

* `Recipe.since` — postconditions of recipes wherever the world may have drifted.
* `Workspace.steady` — the geometries stay.
* `Logic.Completes` — a computation without a promise about its answer.

## Main statements

* `Composite.completes_render`, `Composite.completes_renderTiled` — rendering only drifts.
* `Composite.ensures_prepare_fixed` — preparing fixes the frame.
-/

namespace Patchwork

open Cache (Handle Promise Drift Recipe Schedule)

namespace Cache.Recipe

variable {ω V α : Type} {T : Promise V} {D : Drift ω} {start : ω}

/-- The postconditions of recipes that only drift, run in any world to which `start` may drift. -/
def since (T : Promise V) (D : Drift ω) (start : ω) : Logic (Recipe ω V) fun _ => True where
  Ensures P r := ∀ w, D.Step start w →
    r.Ensures T D (D.Step start) (fun a w' => P a ∧ D.Step start w') w
  pure h _ hw := ⟨h, hw⟩
  bind h hf w hw := (h w hw).bind fun a w' ha => hf a ha.1 w' ha.2
  lift h _ hw := Ensures.lift hw fun _ ha => ⟨h.of_ok ha, hw⟩

theorem Quiet.since {P : α → Prop} {r : Recipe ω V α} (h : r.Quiet T D P) :
    (since T D start).Ensures P r :=
  fun w hw => (h w (D.fits hw)).mono (fun _ _ => id) (fun _ hu => D.trans hw hu)
    fun _ _ ha => ⟨ha.1, D.trans hw ha.2⟩

/-- What no drift changes is read as it was. -/
theorem since_observe {part : ω → α} {a : α} (hpart : ∀ w, D.Step start w → part w = a) :
    (since T D start).Ensures (· = a) (Recipe.observe part : Recipe ω V α) :=
  fun w hw => ⟨hpart w hw, hw⟩

/-- A value may stand anywhere. -/
theorem quiet_statusOf (h : Handle) :
    (Recipe.statusOf h : Recipe ω V Status).Quiet T D fun _ => True :=
  fun _ hw _ => ⟨trivial, D.refl hw⟩

/-- Going on to the next request leaves a recipe that only drifts from where it starts: by induction
over the steps before the request, after each of which the world may have drifted from `start`. -/
theorem Ensures.toRequest_since (hD : D.Euclidean) {P : α → Prop} {r : Recipe ω V α} {w : ω}
    (hw : D.Fits w) (h : r.Ensures T D (D.Step start) (fun a w' => P a ∧ D.Step start w') w) :
    r.toRequest.Ensures T D (D.Step start)
      (fun left w' => (since T D start).Ensures P left ∧ D.Step start w') w := by
  induction r generalizing w with
  | done value => exact ⟨fun w' hw' => ⟨h.1, hw'⟩, h.2⟩
  | stop cause =>
    cases cause with
    | problem problem => exact ⟨fun w' hw' => hw', h⟩
    | fault fault => exact h
  | access g next ih =>
    have hstart := (h w (D.refl hw)).1
    exact ⟨fun u hu u' hu' => h u' (D.trans (hD hstart hu) hu'), hstart⟩
  | lower g next ih => exact ih hw h
  | inspect g next ih => exact fun status => ih status hw (h status)
  | read next ih => exact ih w hw h
  | write change next ih => exact ⟨h.1, ih h.1 h.2⟩

/-- Tasks that only drift may interrupt one another. -/
theorem interruptible_since (hD : D.Euclidean) : Interruptible (since T D start) where
  turn {α P r} h w hw := by
    cases r with
    | access g next =>
      intro w' hw'
      obtain ⟨hstart, hok, herror⟩ := h w hw w' hw'
      refine ⟨hstart, fun value hvalue => ⟨fun u hu => ?_, hstart⟩, fun cause =>
        ⟨fun u hu => ?_, hstart⟩⟩
      · exact (h w hw u (hD hw hu)).2.1 value hvalue
      · exact (h w hw u (hD hw hu)).2.2 cause
    | _ => exact (h w hw).toRequest_since hD (D.fits hw)
  stop _ := trivial

end Cache.Recipe

/-- The geometries of all mosaics stay while images are made, and so does what holds throughout. -/
def Workspace.steady {σ κ : Type} (Fits : Workspace σ κ → Prop) : Drift (Workspace σ κ) where
  Fits := Fits
  Step w w' := Fits w' ∧ w'.geometries = w.geometries
  refl h := ⟨h, rfl⟩
  trans h h' := ⟨h'.1, h'.2.trans h.2⟩
  fits h := h.1

theorem Workspace.euclidean_steady {σ κ : Type} (Fits : Workspace σ κ → Prop) :
    (Workspace.steady Fits).Euclidean :=
  fun h h' => ⟨h'.1, h'.2.trans h.2.symm⟩

/-! ## Computations without a promise about their answer -/

namespace Logic

variable {m : Type → Type} [Monad m] [MonadLiftT Outcome m] {L : Logic m fun _ => True}
  {α β γ : Type}

/-- The computation is one that the logic speaks of; nothing is said of its answer. -/
def Completes (L : Logic m fun _ => True) (x : m α) : Prop := L.Ensures (fun _ => True) x

theorem Completes.pure (a : α) : L.Completes (Pure.pure a) := L.pure trivial

theorem Completes.lift (x : Outcome α) : L.Completes (liftM x : m α) :=
  L.lift (by cases x <;> trivial)

theorem Completes.bind {x : m α} {f : α → m β} (h : L.Completes x)
    (hf : ∀ a, L.Completes (f a)) : L.Completes (x >>= f) :=
  L.bind h fun a _ => hf a

/-- Whatever an outcome is. -/
theorem Completes.lift_bind {x : Outcome α} {f : α → m β}
    (hf : ∀ a, x = .ok a → L.Completes (f a)) : L.Completes ((liftM x : m α) >>= f) := by
  refine L.bind (P := fun a => x = .ok a) (L.lift ?_) hf
  cases x with
  | ok a => exact rfl
  | error cause => exact trivial

theorem Completes.foldlM {f : β → γ → m β} {l : List γ} {b : β}
    (hf : ∀ c ∈ l, ∀ b, L.Completes (f b c)) : L.Completes (l.foldlM f b) :=
  L.foldlM (I := fun _ _ => True) trivial fun _ c b hc _ => hf c hc b

theorem Completes.mapM [LawfulMonad m] {f : α → m β} {l : List α}
    (hf : ∀ a ∈ l, L.Completes (f a)) : L.Completes (l.mapM f) :=
  L.imp (L.mapM hf) fun _ _ => trivial

theorem Completes.forM {f : γ → m PUnit} {l : List γ} (hf : ∀ c ∈ l, L.Completes (f c)) :
    L.Completes (l.forM f) :=
  L.forM hf

end Logic

/-- Tasks without promises about their answers, side by side. -/
theorem Cache.Recipe.Interruptible.completes_pool {ω V α β : Type}
    {L : Logic (Recipe ω V) fun _ => True} (hL : Interruptible L) (schedule : Schedule)
    {f : α → Recipe ω V β} {l : List α} (hf : ∀ a ∈ l, L.Completes (f a)) :
    L.Completes (Recipe.pool schedule (l.map f)) :=
  L.imp (hL.pool_map schedule hf) fun _ _ => trivial

open Logic

/-! ## Patches and masks -/

section Parts

variable {m : Type → Type} [Monad m] [MonadLiftT Outcome m] {L : Logic m fun _ => True}
  {κ : Type} [Channel κ] {format : Format}

/-- All that a source of a patch gives is made by computations of the logic. -/
structure PatchSource.Serves (L : Logic m fun _ => True) (source : PatchSource m format κ) :
    Prop where
  /-- Its bands. -/
  pyramid : L.Completes source.pyramid
  /-- Its coverage. -/
  alpha : L.Completes source.alpha
  /-- Its pixels. -/
  pixels : ∀ place, L.Completes (source.pixels place)

namespace Patch

variable {sources touching : List (PatchSource m format κ)} {area : Rect} {params : PatchParams}

omit [Monad m] [MonadLiftT Outcome m] [Channel κ] in
theorem mem_of_near (h : near sources area = .ok touching) {s : PatchSource m format κ}
    (hs : s ∈ touching) : s ∈ sources := by
  induction sources generalizing touching with
  | nil =>
    cases h
    exact hs
  | cons source sources ih =>
    rw [near, List.filterMapM_cons] at h
    obtain ⟨kept, hkept, h⟩ := Outcome.bind_eq_ok_iff.mp h
    cases kept with
    | none => exact List.mem_cons_of_mem _ (ih h hs)
    | some first =>
      obtain ⟨rest, hrest, h⟩ := Outcome.bind_eq_ok_iff.mp h
      cases h
      rcases List.mem_cons.mp hs with rfl | hs
      · obtain ⟨meets, -, h⟩ := Outcome.bind_eq_ok_iff.mp hkept
        cases meets with
        | false => cases h
        | true =>
          cases h
          exact List.mem_cons_self
      · exact List.mem_cons_of_mem _ (ih hrest hs)

theorem completes_blend (hsources : ∀ s ∈ sources, s.Serves L) :
    L.Completes (blend area params sources) := by
  unfold blend
  refine .lift_bind fun frames _ => .lift_bind fun padded _ =>
    .lift_bind fun touching htouching => ?_
  have hselected : ∀ s ∈ residentFirst touching, s.Serves L := by
    intro s hs
    apply hsources s (mem_of_near htouching _)
    simp only [residentFirst, List.mem_append, List.mem_filter] at hs
    exact hs.elim (·.1) (·.1)
  refine .lift_bind fun blanks _ => .bind (.foldlM fun s hs layers => ?_) fun layers =>
    .lift_bind fun mixed _ => ?_
  · exact .bind (hselected s hs).pyramid fun pyramid => .lift _
  · split
    · exact .pure _
    · refine .lift_bind fun nothing _ => .bind (.foldlM fun s hs highest => ?_) fun _ => .pure _
      unfold raiseBySource
      refine .lift_bind fun meets _ => ?_
      split
      · exact .pure _
      · exact .bind (hselected s hs).alpha fun _ => .lift_bind fun _ _ => .pure _

theorem completes_draft (hsources : ∀ s ∈ sources, s.Serves L) :
    L.Completes (draft area params sources) := by
  unfold draft
  refine .lift_bind fun nothing _ => .bind (.foldlM fun s hs patch => ?_) fun _ => .pure _
  unfold overlay
  refine .lift_bind fun overlap _ => ?_
  split
  · exact .pure _
  · exact .lift_bind fun place _ => .bind ((hsources s hs).pixels place) fun _ =>
      .lift_bind fun _ _ => .lift _

end Patch

theorem Ownership.completes_mask (placements : List Rect) {plane : Nat → m (Raster κ)}
    (hplane : ∀ i, L.Completes (plane i)) (index : Nat) :
    L.Completes (Ownership.mask index placements plane) := by
  unfold Ownership.mask
  cases placements[index]? with
  | none => exact Completes.lift _
  | some placement =>
    refine .bind (hplane index) fun mine => .lift_bind fun _ _ =>
      .bind (.foldlM fun rival _ mask => ?_) fun _ => .pure _
    obtain ⟨its, other⟩ := rival
    unfold Ownership.contest
    dsimp only
    split
    · exact .pure _
    · refine .lift_bind fun meets _ => ?_
      split
      · exact .pure _
      · exact .bind (hplane other) fun _ => .lift_bind fun _ _ => .lift_bind fun _ _ => .pure _

end Parts

/-! ## Mosaics -/

section Mosaics

variable {σ κ : Type} {format : Format} {T : Promise (Value format κ)} {D : Drift (Workspace σ κ)}
  {start : Workspace σ κ}

/-- An image out of the cache, of the kind that is wanted. -/
theorem Making.completes_fetch {α : Type} {h : Handle}
    {wanted : Value format κ → Making σ format κ α}
    (hwanted : ∀ v, (Recipe.since T D start).Completes (wanted v)) :
    (Recipe.since T D start).Completes (Recipe.fetch h >>= wanted) :=
  .bind (((Recipe.Quiet.fetch h).mono (fun _ _ => id) fun _ _ => trivial).since) hwanted

theorem Making.completes_pixels (h : Handle) :
    (Recipe.since T D start).Completes (Making.pixels h : Making σ format κ _) := by
  apply Making.completes_fetch
  intro v
  cases v with
  | pixels raster => exact .pure raster
  | plane | pyramid => exact .lift _

theorem Making.completes_plane (h : Handle) :
    (Recipe.since T D start).Completes (Making.plane h : Making σ format κ _) := by
  apply Making.completes_fetch
  intro v
  cases v with
  | plane raster => exact .pure raster
  | pixels | pyramid => exact .lift _

theorem Making.completes_pyramid (h : Handle) :
    (Recipe.since T D start).Completes (Making.pyramid h : Making σ format κ _) := by
  apply Making.completes_fetch
  intro v
  cases v with
  | pyramid bands => exact .pure bands
  | pixels | plane => exact .lift _

namespace Composite

theorem completes_observe {α : Type} (part : Workspace σ κ → α) :
    (Recipe.since T D start).Completes (Recipe.observe part : Making σ format κ α) :=
  fun _ hw => ⟨trivial, hw⟩

theorem completes_unlessRaised (token : Nat) :
    (Recipe.since T D start).Completes (unlessRaised token : Making σ format κ _) := by
  refine .bind (completes_observe _) fun raised => ?_
  split
  · exact .lift _
  · exact .pure _

variable [Channel κ]

theorem ensures_patchSource_serves (geometry : Geometry) (source : SourceRecord) :
    (Recipe.since T D start).Ensures (PatchSource.Serves (Recipe.since T D start))
      (patchSource geometry source : Making σ format κ _) := by
  unfold patchSource
  refine Logic.bind _ (Completes.lift _) fun placement _ =>
    Logic.bind _ (Recipe.quiet_statusOf _).since fun status _ => Logic.pure _ ⟨?_, ?_, ?_⟩
  · exact Making.completes_pyramid _
  · exact Making.completes_plane _
  · exact fun place => .bind (Making.completes_pixels _) fun _ => .lift _

/-- **Rendering only drifts**, whatever comes of it. -/
theorem completes_render (c : Composite) (area : Rect) :
    (Recipe.since T D start).Completes (c.render area : Making σ format κ _) := by
  unfold render
  refine .bind (completes_observe _) fun geometry? => ?_
  cases geometry? with
  | none => exact Completes.lift _
  | some geometry =>
    refine Logic.bind _ (Logic.mapM_all _ fun source _ =>
      ensures_patchSource_serves geometry source) fun sources hserves => ?_
    dsimp only
    split
    · exact Patch.completes_draft hserves
    · exact Patch.completes_blend hserves

/-- Rendering tile by tile only drifts, too, in whatever order. -/
theorem completes_renderTiled (hD : D.Euclidean) (c : Composite) (schedule : Schedule)
    (region : Rect) (options : TileOptions) (token : Nat) :
    (Recipe.since T D start).Completes
      (c.renderTiled schedule region options token : Making σ format κ _) := by
  unfold renderTiled
  refine .bind (completes_unlessRaised token) fun _ => .lift_bind fun tiles _ => ?_
  have htiles : (Recipe.since T D start).Completes (Recipe.pool schedule (tiles.map fun tile => do
      unlessRaised token
      return (tile, ← c.render tile)) : Making σ format κ _) :=
    (Recipe.interruptible_since hD).completes_pool schedule fun tile _ =>
      .bind (completes_unlessRaised token) fun _ => .bind (c.completes_render tile) fun _ => .pure _
  dsimp only
  split
  · exact .lift_bind fun _ _ => .bind htiles fun _ => .lift_bind fun _ _ => .lift _
  · exact .bind htiles fun _ => .lift_bind fun _ _ => .lift _

/-! ## Preparing -/

variable {Fits : Workspace σ κ → Prop} {w : Workspace σ κ}

omit [Channel κ] in
theorem completes_distancePlane (c : Composite) (index : Nat) :
    (Recipe.since T D start).Completes (c.distancePlane index : Making σ format κ _) := by
  unfold distancePlane
  cases c.sources[index]? with
  | none => exact Completes.lift _
  | some source => exact Making.completes_plane source.distance

/-- Making masks only drifts, in whatever order, when saving a mask does. -/
theorem completes_makeMasks (hD : D.Euclidean) (c : Composite) (schedule : Schedule)
    (hsave : ∀ w index (mask : Raster κ), D.Step start w →
      D.Step start (w.saveMask c.maskStore index mask).2) :
    (Recipe.since T D start).Completes (c.makeMasks schedule : Making σ format κ _) := by
  unfold makeMasks Ownership.generate
  refine .bind (.bind ((Recipe.interruptible_since hD).completes_pool schedule fun index _ => ?_)
    fun _ => .pure _) fun _ => .forM fun source _ => (Recipe.Quiet.demote source.distance).since
  refine .bind (Ownership.completes_mask _ c.completes_distancePlane index) fun mask w hw => ?_
  have hstep := hsave w index mask hw
  exact Recipe.Ensures.act (D.fits hstep) hstep fun _ _ => ⟨trivial, hstep⟩

omit [Channel κ] in
theorem eq_of_geometry_fix {number : Nat} {geometry fixed : Geometry}
    (h : Workspace.geometry? (w.fix number geometry) number = some fixed) : fixed = geometry := by
  simp only [Workspace.fix, Workspace.geometry?] at h
  by_cases hin : number < w.geometries.size
  · simpa [hin, eq_comm] using h
  · simp [hin] at h

omit [Channel κ] in
/-- A geometry that was fixed is read back, unless there is no place for it. -/
theorem ensures_fix (c : Composite)
    (hfix : ∀ (w : Workspace σ κ) geometries, Fits w → Fits { w with geometries })
    (geometry : Geometry) (hw : Fits w) :
    (do Recipe.amend fun w : Workspace σ κ => w.fix c.number geometry
        return { c with viewFrame := geometry.frame } :
      Making σ format κ Composite).Ensures T (Workspace.steady Fits) (fun _ => True)
      (fun c' w' => Fits w' ∧ c' = { c with viewFrame := geometry.frame } ∧
        ∀ fixed, w'.geometry? c.number = some fixed → fixed.frame = geometry.frame) w :=
  ⟨hfix _ _ hw, hfix _ _ hw, rfl, fun _ h => congrArg Geometry.frame (eq_of_geometry_fix h)⟩

/-- **Preparing fixes the frame**: the one that is given, or the union of the placements. -/
theorem ensures_prepare_fixed (c : Composite) (schedule : Schedule)
    (hfix : ∀ (w : Workspace σ κ) geometries, Fits w → Fits { w with geometries })
    (hsave : c.options.draft = true ∨ c.options.reuseMasks = true ∨
      ∀ w index (mask : Raster κ), Fits w → Fits (w.saveMask c.maskStore index mask).2)
    (total : Option Rect) (hw : Fits w) :
    (c.prepare schedule total : Making σ format κ _).Ensures T (Workspace.steady Fits)
      (fun _ => True) (fun c' w' => Fits w' ∧ c' = { c with viewFrame := total.getD c.viewFrame } ∧
        ∀ geometry, w'.geometry? c.number = some geometry →
          geometry.frame = total.getD c.viewFrame) w := by
  rw [prepare_eq]
  refine (c.ensures_groundwork (Q := Fits) schedule total (fun hblend hmake => ?_)
    fun _ => hw).bind fun _ w' hw' => c.ensures_fix hfix (c.geometryFor total) hw'
  -- masks are made in one case only, which leaves the promise about saving them
  have hsave := (hsave.resolve_left (by simp [hblend])).resolve_left (by simp [hmake])
  have hmasks : (Recipe.since T (Workspace.steady Fits) w).Completes
      (c.makeMasks schedule : Making σ format κ _) :=
    c.completes_makeMasks (Workspace.euclidean_steady Fits) schedule fun w' index mask hw' =>
      ⟨hsave w' index mask hw'.1,
        (w'.geometries_saveMask c.maskStore index mask).trans hw'.2⟩
  exact (hmasks w ⟨hw, rfl⟩).mono (fun _ _ => id) (fun _ _ => trivial) fun _ _ h => h.2.1

end Composite

end Mosaics

end Patchwork
