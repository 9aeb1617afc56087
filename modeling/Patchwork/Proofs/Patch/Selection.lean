import Patchwork.Proofs.Patch.Reach
import Patchwork.Proofs.Patch.Order

/-!
# Which pyramids a patch fetches

A source can add to a patch at a level when its placement, reduced to that level, meets the
rectangle of the patch there.  The sources are selected by one comparison at the finest level
instead, with the union of all levels mapped up.  Halving the placement and doubling the level are
the same for meeting, and the doubled levels lie in one another, so that comparison finds the
sources that meet the coarsest level, which are those that meet any.

What is fetched while a patch is made is seen by handing the sources out numbered, each of which
writes its number down when its pyramid is fetched.

## Main definitions

* `Footprint.meetsAt` — the comparison at one level.
* `Patch.fetching` — blend a patch and keep the numbers of the sources whose pyramids were fetched.

## Main statements

* `Footprint.meets_catchment_iff`, `Footprint.meets_catchment_iff_coarsest` — selection by levels.
* `Patch.fetches_exactly_what_meets` — selection and fetching are complete and tight.
-/

namespace Patchwork

open Outcome
open Rect (half double Meets)

/-! ## Meeting a level -/

namespace Footprint

variable {placement area reach : Rect} {frames : List Rect} {count k : Nat}

/-- The placement, reduced to a level, meets the rectangle of the patch there. -/
def meetsAt (placement : Rect) (frames : List Rect) (k : Nat) : Outcome Bool := do
  (← placement.reducedBy k).intersects (frames.getD k Rect.none)

theorem ends_meetsAt (placement : Rect) (area : Rect) (hk : k < count) :
    Ends IsOverflow (· = decide (Meets (half^[k] placement) (half^[k] area)))
      (meetsAt placement (halves area count) k) := by
  refine (Rect.ends_reducedBy placement k).bind_eq ?_
  have hlevel : (halves area count).getD k Rect.none = half^[k] area := by
    rw [List.getD_eq_getElem?_getD, getElem?_halves hk, Option.getD_some]
  rw [hlevel]
  exact Rect.ends_intersects _ _

/-- The sources that meet the union of the levels are those that meet the coarsest one. -/
theorem meets_catchment_iff_coarsest (hplacement : ¬ placement.IsEmpty) (harea : ¬ area.IsEmpty)
    (k : Nat) :
    Meets placement (catchment area (k + 1)) ↔ Meets (half^[k] placement) (half^[k] area) := by
  rw [Rect.meets_half_iterate_iff hplacement (Rect.not_isEmpty_half_iterate harea k)]
  simp only [Meets, mem_catchment_iff harea]

/-- The sources that meet the union of the levels are those that meet some level. -/
theorem meets_catchment_iff (hplacement : ¬ placement.IsEmpty) (harea : ¬ area.IsEmpty)
    (hcount : 0 < count) :
    Meets placement (catchment area count) ↔
      ∃ k < count, Meets (half^[k] placement) (half^[k] area) := by
  constructor
  · intro hmeets
    obtain ⟨k, rfl⟩ := Nat.exists_eq_add_of_lt hcount
    rw [Nat.zero_add] at hmeets ⊢
    exact ⟨k, Nat.lt_succ_self k, (meets_catchment_iff_coarsest hplacement harea k).mp hmeets⟩
  · rintro ⟨k, hk, hmeets⟩
    exact meets_catchment hk hmeets

/-- What the checked comparisons of a placement with a patch say about the exact rectangles. -/
structure Compared (placement area : Rect) (count : Nat) (met : Nat → Bool) : Prop where
  /-- The comparison at each level. -/
  level : ∀ k < count, met k = true ↔ Meets (half^[k] placement) (half^[k] area)
  /-- Meeting the union is meeting some level. -/
  union : Meets placement (catchment area count) ↔ ∃ k < count, met k = true
  /-- Meeting the union is meeting the coarsest level. -/
  coarsest : Meets placement (catchment area count) ↔ met (count - 1) = true

theorem compared (hplacement : ¬ placement.IsEmpty) (harea : ¬ area.IsEmpty) (hcount : 0 < count)
    {met : Nat → Bool} (hmet : ∀ k < count, meetsAt placement (halves area count) k = .ok (met k)) :
    Compared placement area count met := by
  have hlevel : ∀ k < count, met k = true ↔ Meets (half^[k] placement) (half^[k] area) := by
    intro k hk
    rw [(ends_meetsAt placement area hk).of_ok (hmet k hk), decide_eq_true_iff]
  refine ⟨hlevel, ?_, ?_⟩
  · rw [meets_catchment_iff hplacement harea hcount]
    exact exists_congr fun k => and_congr_right fun hk => (hlevel k hk).symm
  · rw [hlevel (count - 1) (Nat.sub_lt hcount Nat.one_pos), ← meets_catchment_iff_coarsest
      hplacement harea, Nat.sub_add_cancel hcount]

end Footprint

/-! ## Writing down what is fetched -/

/-- Computations that write numbers down, which are kept when they stop. -/
abbrev Logged := ExceptT Failure (StateM (List Nat))

namespace Logged

variable {α β γ : Type} {F : List Nat → Prop} {Q : α → List Nat → Prop} {R : β → List Nat → Prop}
  {log : List Nat}

/-- From this log on, the computation answers with `Q`, or stops with a log of `F`. -/
def Leads (F : List Nat → Prop) (Q : α → List Nat → Prop) (log : List Nat) (x : Logged α) : Prop :=
  match x.run.run log with
  | (.ok a, log) => Q a log
  | (.error _, log) => F log

theorem Leads.pure {a : α} (h : Q a log) : Leads F Q log (Pure.pure a) := h

theorem Leads.bind {x : Logged α} {f : α → Logged β} (h : Leads F Q log x)
    (hf : ∀ a log, Q a log → Leads F R log (f a)) : Leads F R log (x >>= f) := by
  have hbind : (x >>= f).run.run log = match x.run.run log with
      | (.ok a, log) => (f a).run.run log
      | (.error cause, log) => (.error cause, log) := by
    simp only [ExceptT.run_bind, StateT.run_bind]
    obtain ⟨a | cause, log'⟩ := x.run.run log <;> rfl
  unfold Leads at h ⊢
  rw [hbind]
  generalize x.run.run log = y at *
  obtain ⟨cause | a, log'⟩ := y
  · exact h
  · exact hf a log' h

/-- An outcome writes nothing down. -/
theorem Leads.lift {x : Outcome α} (hstop : F log) (h : ∀ a, x = .ok a → Q a log) :
    Leads F Q log (liftM x) := by
  cases x with
  | ok a => exact h a rfl
  | error cause => exact hstop

/-- A fold keeps an invariant of the part done so far. -/
theorem Leads.foldlM {f : β → γ → Logged β} {I : List γ → β → List Nat → Prop} {l : List γ} {b : β}
    (h0 : I [] b log)
    (hstep : ∀ done c rest b log, done ++ c :: rest = l → I done b log →
      Leads F (I (done ++ [c])) log (f b c)) :
    Leads F (I l) log (l.foldlM f b) := by
  suffices h : ∀ (rest done : List γ) (b : β) (log : List Nat), done ++ rest = l → I done b log →
      Leads F (I l) log (rest.foldlM f b) from h l [] b log rfl h0
  intro rest
  induction rest with
  | nil =>
    rintro done b log rfl hb
    rw [List.append_nil]
    exact Leads.pure hb
  | cons c rest ih =>
    rintro done b log rfl hb
    rw [List.foldlM_cons]
    apply (hstep done c rest b log rfl hb).bind
    intro b' log' hb'
    exact ih (done ++ [c]) b' log' (by simp) hb'

end Logged

section Recording

variable {κ : Type} [Channel κ] {format : Format}

/-- The source with a number, which is written down each time its pyramid is fetched. -/
def PatchSource.recorded (number : Nat) (s : PatchSource Outcome format κ) :
    PatchSource Logged format κ where
  placement := s.placement
  resident := s.resident
  pyramid := do
    modify (· ++ [number])
    liftM s.pyramid
  alpha := liftM s.alpha
  pixels place := liftM (s.pixels place)

omit [Channel κ] in
/-- The number of a source can be told from what it writes down. -/
theorem PatchSource.recorded_inj {i j : Nat} {s t : PatchSource Outcome format κ}
    (h : s.recorded i = t.recorded j) : i = j := by
  have hwritten : ∀ (i : Nat) (s : PatchSource Outcome format κ),
      ((s.recorded i).pyramid.run.run []).2 = [i] := by
    intro i s
    cases hs : s.pyramid <;> simp [recorded, hs] <;> rfl
  have hsame : [i] = [j] := by rw [← hwritten i s, h, hwritten j t]
  exact List.head_eq_of_cons_eq hsame

namespace Patch

/-- Blend a patch and keep the numbers of the sources whose pyramids were fetched, in order. -/
def fetching (area : Rect) (params : PatchParams) (sources : List (PatchSource Outcome format κ)) :
    Outcome (Raster (Pixel format κ)) × List Nat :=
  (blend area params (sources.mapIdx PatchSource.recorded)).run.run []

section Fetching

variable {area : Rect} {params : PatchParams} {sources : List (PatchSource Outcome format κ)}
  {queue asked : List (PatchSource Logged format κ)} {log : List Nat} {F : List Nat → Prop}

/-- Exactly the numbers of these sources are written down. -/
def Noted (sources : List (PatchSource Outcome format κ))
    (asked : List (PatchSource Logged format κ)) (log : List Nat) : Prop :=
  ∀ (i : Nat) (s : PatchSource Outcome format κ),
    sources[i]? = some s → (i ∈ log ↔ s.recorded i ∈ asked)

omit [Channel κ] in
theorem exists_recorded {c : PatchSource Logged format κ}
    (hc : c ∈ sources.mapIdx PatchSource.recorded) :
    ∃ (i : Nat) (s : PatchSource Outcome format κ), sources[i]? = some s ∧ c = s.recorded i := by
  obtain ⟨i, hi, rfl⟩ := List.mem_mapIdx.mp hc
  exact ⟨i, sources[i], List.getElem?_eq_getElem hi, rfl⟩

omit [Channel κ] in
theorem Noted.concat (h : Noted sources asked log) {i : Nat} {s : PatchSource Outcome format κ}
    (hs : sources[i]? = some s) : Noted sources (asked ++ [s.recorded i]) (log ++ [i]) := by
  intro j t ht
  have hsame : j = i ↔ t.recorded j = s.recorded i := by
    constructor
    · rintro rfl
      rw [Option.some.inj (ht.symm.trans hs)]
    · exact PatchSource.recorded_inj
  rw [List.mem_append, List.mem_append, List.mem_singleton, List.mem_singleton, h j t ht, hsame]

/-- Adding up the sources of a queue writes the number of each down. -/
theorem leads_gather (hqueue : ∀ c ∈ queue, c ∈ sources.mapIdx PatchSource.recorded)
    (hstop : ∀ done c rest log, done ++ c :: rest = queue → Noted sources (done ++ [c]) log →
      F log) (blanks : List (Layer format κ)) (hlog : Noted sources [] log) :
    Logged.Leads F (fun _ => Noted sources queue) log
      (queue.foldlM (fun layers source => do
        let pyramid ← source.pyramid
        (liftM (Layer.addPyramid layers pyramid) : Logged (List (Layer format κ)))) blanks) := by
  refine Logged.Leads.foldlM (I := fun asked _ => Noted sources asked) hlog ?_
  intro asked c rest layers log hsplit hnoted
  obtain ⟨i, s, hs, rfl⟩ := exists_recorded (hqueue c (hsplit ▸ by simp))
  have hafter := hnoted.concat hs
  have hfail := hstop asked _ rest _ hsplit hafter
  have hpyramid : Logged.Leads F (fun _ log' => log' = log ++ [i]) log (s.recorded i).pyramid :=
    Logged.Leads.lift hfail fun _ _ => rfl
  apply hpyramid.bind
  rintro pyramid _ rfl
  exact Logged.Leads.lift hfail fun _ _ => hafter

/-- Taking coverage into account writes nothing down. -/
theorem leads_raise (hqueue : ∀ c ∈ queue, c ∈ sources.mapIdx PatchSource.recorded)
    (hstop : F log) (nothing : Raster κ) :
    Logged.Leads F (fun _ after => after = log) log
      (queue.foldlM (raiseBySource area) nothing) := by
  refine Logged.Leads.foldlM (I := fun _ _ after => after = log) rfl ?_
  rintro asked c rest highest _ hsplit rfl
  obtain ⟨i, s, -, rfl⟩ := exists_recorded (hqueue c (hsplit ▸ by simp))
  have hlifted : ∀ {α : Type} (x : Outcome α),
      Logged.Leads F (fun _ after => after = _) _ (liftM x : Logged α) := fun x =>
    Logged.Leads.lift hstop fun _ _ => rfl
  apply (hlifted _).bind
  rintro meets _ rfl
  cases meets with
  | false => exact Logged.Leads.pure rfl
  | true =>
    apply (hlifted s.alpha).bind
    rintro alpha _ rfl
    apply (hlifted _).bind
    rintro overlap _ rfl
    exact Logged.Leads.pure rfl

/-- Blending fetches the pyramids of the sources that meet the union of the levels, and if it stops
it has fetched no others. -/
theorem leads_blend (area : Rect) (params : PatchParams)
    (sources : List (PatchSource Outcome format κ)) :
    Logged.Leads
      (fun log => ∀ i s, sources[i]? = some s → i ∈ log →
        s.placement.Meets (Footprint.catchment area (max params.levels 1)))
      (fun _ log => ∀ i s, sources[i]? = some s →
        (i ∈ log ↔ s.placement.Meets (Footprint.catchment area (max params.levels 1))))
      [] (blend area params (sources.mapIdx PatchSource.recorded)) := by
  have hnone : ∀ i s, sources[i]? = some s → i ∈ ([] : List Nat) →
      s.placement.Meets (Footprint.catchment area (max params.levels 1)) :=
    fun i _ _ hi => absurd hi (List.not_mem_nil)
  unfold blend
  apply (Logged.Leads.lift (Q := fun frames log =>
    frames = Footprint.halves area (max params.levels 1) ∧ log = []) hnone fun frames hframes =>
      ⟨((Footprint.ends_levels _ _).of_ok hframes).1, rfl⟩).bind
  rintro _ _ ⟨rfl, rfl⟩
  apply (Logged.Leads.lift (Q := fun padded log =>
    padded = Footprint.catchment area (max params.levels 1) ∧ log = []) hnone fun padded hpadded =>
      ⟨(Footprint.ends_padded _ _).of_ok hpadded, rfl⟩).bind
  rintro _ _ ⟨rfl, rfl⟩
  generalize Footprint.catchment area (max params.levels 1) = reach at *
  apply (Logged.Leads.lift (Q := fun touching log => touching =
    (sources.mapIdx PatchSource.recorded).filter (fun s => decide (s.placement.Meets reach)) ∧
      log = []) hnone fun touching htouching => ⟨(near_eq_ok_iff.mp htouching).2, rfl⟩).bind
  rintro touching _ ⟨htouching, rfl⟩
  have hmem : ∀ c, c ∈ residentFirst touching ↔
      c ∈ sources.mapIdx PatchSource.recorded ∧ c.placement.Meets reach := by
    intro c
    rw [mem_residentFirst, htouching, List.mem_filter, decide_eq_true_iff]
  have hqueue : ∀ c ∈ residentFirst touching, c ∈ sources.mapIdx PatchSource.recorded :=
    fun c hc => ((hmem c).mp hc).1
  have hrecorded : ∀ (i : Nat) (s : PatchSource Outcome format κ), sources[i]? = some s →
      (s.recorded i ∈ residentFirst touching ↔ s.placement.Meets reach) := by
    intro i s hs
    obtain ⟨hi, rfl⟩ := List.getElem?_eq_some_iff.mp hs
    rw [hmem]
    exact and_iff_right (List.mem_mapIdx.mpr ⟨i, hi, rfl⟩)
  apply (Logged.Leads.lift (Q := fun _ log => log = []) hnone fun _ _ => rfl).bind
  rintro blanks _ rfl
  refine (leads_gather hqueue ?_ blanks fun i s _ => by simp).bind ?_
  · intro done c rest log hsplit hnoted i s hs hi
    rw [← hrecorded i s hs, ← hsplit]
    have hasked := (hnoted i s hs).mp hi
    rw [List.mem_append, List.mem_singleton] at hasked
    rw [List.mem_append, List.mem_cons]
    exact hasked.imp_right .inl
  · intro layers log hnoted
    have hdone : ∀ i s, sources[i]? = some s → (i ∈ log ↔ s.placement.Meets reach) :=
      fun i s hs => (hnoted i s hs).trans (hrecorded i s hs)
    have hstop := fun i s hs => (hdone i s hs).mp
    apply (Logged.Leads.lift (Q := fun _ after => after = log) hstop fun _ _ => rfl).bind
    rintro mixed _ rfl
    split
    · exact Logged.Leads.pure hdone
    · apply (Logged.Leads.lift (Q := fun _ after => after = _) hstop fun _ _ => rfl).bind
      rintro nothing _ rfl
      apply (leads_raise hqueue hstop nothing).bind
      rintro highest _ rfl
      exact Logged.Leads.pure hdone

/-- **A patch fetches exactly the pyramids that can add to it.**  A placement meets the union of the
levels if and only if it meets the patch at some level, which is so if and only if it meets it at
the coarsest one.  Blending fetches only pyramids of sources that meet some level, also when it
stops early, and when it answers it has fetched all of these. -/
theorem fetches_exactly_what_meets {area reach : Rect} {frames : List Rect} {count : Nat}
    (harea : ¬ area.IsEmpty) (hcount : 0 < count)
    (hframes : Footprint.levels area count = .ok frames)
    (hreach : Footprint.padded frames = .ok reach) :
    (∀ (placement : Rect) (selected : Bool) (met : Nat → Bool), ¬ placement.IsEmpty →
      placement.intersects reach = .ok selected →
      (∀ k < count, Footprint.meetsAt placement frames k = .ok (met k)) →
      (selected = true ↔ ∃ k < count, met k = true) ∧
        (selected = true ↔ met (count - 1) = true)) ∧
    ∀ (params : PatchParams) (sources : List (PatchSource Outcome format κ)) (i : Nat)
      (s : PatchSource Outcome format κ) (met : Nat → Bool),
      max params.levels 1 = count → sources[i]? = some s → ¬ s.placement.IsEmpty →
      (∀ k < count, Footprint.meetsAt s.placement frames k = .ok (met k)) →
      (i ∈ (fetching area params sources).2 → ∃ k < count, met k = true) ∧
        ((fetching area params sources).1.isOk → (∃ k < count, met k = true) →
          i ∈ (fetching area params sources).2) := by
  obtain ⟨rfl, -⟩ := (Footprint.ends_levels area count).of_ok hframes
  obtain rfl : reach = Footprint.catchment area count :=
    (Footprint.ends_padded area count).of_ok hreach
  constructor
  · intro placement selected met hplacement hselected hmet
    have hcompared := Footprint.compared hplacement harea hcount hmet
    rw [(Rect.ends_intersects _ _).of_ok hselected, decide_eq_true_iff]
    exact ⟨hcompared.union, hcompared.coarsest⟩
  · rintro params sources i s met rfl hs hplacement hmet
    have hcompared := Footprint.compared hplacement harea hcount hmet
    have hblend := leads_blend area params sources
    rw [← hcompared.union]
    rw [Logged.Leads] at hblend
    rw [fetching]
    generalize (blend area params (sources.mapIdx PatchSource.recorded)).run.run [] = run at *
    obtain ⟨cause | out, log⟩ := run
    · exact ⟨hblend i s hs, nofun⟩
    · exact ⟨(hblend i s hs).mp, fun _ => (hblend i s hs).mpr⟩

end Fetching

/-- A source of two pixels, the left one in this column. -/
def margin (x : Int) : PatchSource Outcome .grayAlpha Float32 where
  placement := ⟨x, 0, 2, 1⟩
  resident := false
  pyramid := Pyramid.build (Raster.tabulate 2 1 fun _ _ => ⟨#v[0.25, 1]⟩) ⟨x, 0, 2, 1⟩ 4 4
    (Raster.tabulate 2 1 fun _ _ => 1) 3 false
  alpha := .ok (Raster.tabulate 2 1 fun _ _ => 1)
  pixels area := .ok ((Raster.tabulate 2 1 fun _ _ => ⟨#v[0.25, 1]⟩).cut area)

/-- Of two sources left of a patch, one column apart, one meets its coarsest level and no other, and
it is the one that is fetched. -/
theorem fetches_exactly_what_meets_margin :
    (∃ k < 3, Footprint.meetsAt (margin (-4)).placement
      [⟨0, 0, 4, 4⟩, ⟨0, 0, 3, 3⟩, ⟨0, 0, 2, 2⟩] k = .ok true) ∧
    0 ∉ (fetching ⟨0, 0, 4, 4⟩ ⟨3, true, 4, 4⟩ [margin (-5), margin (-4)]).2 ∧
    1 ∈ (fetching ⟨0, 0, 4, 4⟩ ⟨3, true, 4, 4⟩ [margin (-5), margin (-4)]).2 := by
  have hexact := @fetches_exactly_what_meets Float32 _ .grayAlpha ⟨0, 0, 4, 4⟩ ⟨-3, -3, 11, 11⟩
    [⟨0, 0, 4, 4⟩, ⟨0, 0, 3, 3⟩, ⟨0, 0, 2, 2⟩] 3 (by decide) (by decide) (by decide) (by decide)
  have hmeets := hexact.1 (margin (-4)).placement true (· == 2) (by decide) (by decide) (by decide)
  have hmisses := hexact.2 ⟨3, true, 4, 4⟩ [margin (-5), margin (-4)] 0 (margin (-5))
    (fun _ => false) rfl rfl (by decide) (by decide)
  have hfetched := hexact.2 ⟨3, true, 4, 4⟩ [margin (-5), margin (-4)] 1 (margin (-4))
    (· == 2) rfl rfl (by decide) (by decide)
  refine ⟨⟨2, by decide, by decide⟩, ?_, ?_⟩
  · intro hmem
    simpa using hmisses.1 hmem
  · exact hfetched.2 (by decide +kernel) (hmeets.1.mp rfl)

end Patch

end Recording

end Patchwork
