import Patchwork.Proofs.Cache.Shelf
import Patchwork.Proofs.Logic

/-!
# What recipes can rely on

A recipe runs among others: each value it asks for may be at hand or be made by a recipe of its own,
which may change the world.  What it can rely on is a promise for each handle — what a value with
this handle is, whenever there is one — and a bound on how the world drifts meanwhile.  A store is
sound when its recipes and the values at hand keep the promises; then so does everything that runs
in it, whatever the caches keep and evict.

All of this is about answers.  A recipe may stop at any time.

## Main definitions

* `Promise`, `Drift` — what is relied on.
* `Recipe.Ensures` — what a recipe ends with, over the promises.
* `Recipe.Quiet` — it only drifts, and its answer has a property.
* `Sound` — a store that keeps the promises.

## Main statements

* `Sound.visit`, `Sound.run` — a sound store answers as promised.
-/

namespace Patchwork.Cache

variable {ω V α β : Type}

/-- What the values of each handle are. -/
abbrev Promise (V : Type) := Handle → V → Prop

/-- How the world drifts while values are made. -/
structure Drift (ω : Type) where
  /-- What holds of the world throughout. -/
  Fits : ω → Prop
  /-- What may become of the world. -/
  Step : ω → ω → Prop
  /-- Nothing may happen. -/
  refl : ∀ {w}, Fits w → Step w w
  /-- One thing may happen after another. -/
  trans : ∀ {u v w}, Step u v → Step v w → Step u w
  /-- Throughout means afterwards too. -/
  fits : ∀ {v w}, Step v w → Fits w

/-- Whatever the world may drift to, it may drift from there to anywhere else that it might. -/
def Drift.Euclidean (D : Drift ω) : Prop := ∀ {u v w}, D.Step u v → D.Step u w → D.Step v w

namespace Recipe

instance : LawfulMonad (Recipe ω V) :=
  LawfulMonad.mk' _ bind_done (fun _ _ => rfl) bind_assoc

variable {T T' : Promise V} {D : Drift ω} {F F' : ω → Prop}

/-- An answer comes with `P` and stopping leaves `F`, when asking keeps the promises and drifts. -/
def Ensures (T : Promise V) (D : Drift ω) (F : ω → Prop) (P : α → ω → Prop) :
    Recipe ω V α → ω → Prop
  | .done value, w => P value w
  | .stop _, w => F w
  | .access h next, w => ∀ w', D.Step w w' → F w' ∧
      (∀ value, T h value → (next (.ok value)).Ensures T D F P w') ∧
      ∀ cause, (next (.error cause)).Ensures T D F P w'
  | .lower _ next, w => next.Ensures T D F P w
  | .inspect _ next, w => ∀ status, (next status).Ensures T D F P w
  | .read next, w => (next w).Ensures T D F P w
  | .write change next, w => D.Fits (change w) ∧ next.Ensures T D F P (change w)

namespace Ensures

theorem mono {P Q : α → ω → Prop} {r : Recipe ω V α} {w : ω} (h : r.Ensures T D F P w)
    (hT : ∀ h v, T' h v → T h v) (hF : ∀ w, F w → F' w) (hP : ∀ a w, P a w → Q a w) :
    r.Ensures T' D F' Q w := by
  induction r generalizing w with
  | done value => exact hP value w h
  | stop cause => exact hF w h
  | access g next ih =>
    intro w' hstep
    obtain ⟨hfail, hok, herror⟩ := h w' hstep
    exact ⟨hF w' hfail, fun value hvalue => ih _ (hok value (hT g value hvalue)),
      fun cause => ih _ (herror cause)⟩
  | lower g next ih => exact ih h
  | inspect g next ih => exact fun status => ih status (h status)
  | read next ih => exact ih w h
  | write change next ih => exact ⟨h.1, ih h.2⟩

/-- One recipe after another. -/
theorem bind {P : α → ω → Prop} {Q : β → ω → Prop} {r : Recipe ω V α} {f : α → Recipe ω V β}
    {w : ω} (h : r.Ensures T D F P w) (hf : ∀ a w, P a w → (f a).Ensures T D F Q w) :
    (r >>= f).Ensures T D F Q w := by
  rw [bind_eq_bind]
  induction r generalizing w with
  | done value => exact hf value w h
  | stop cause => exact h
  | access g next ih =>
    intro w' hstep
    obtain ⟨hfail, hok, herror⟩ := h w' hstep
    exact ⟨hfail, fun value hvalue => ih _ (hok value hvalue), fun cause => ih _ (herror cause)⟩
  | lower g next ih => exact ih h
  | inspect g next ih => exact fun status => ih status (h status)
  | read next ih => exact ih w h
  | write change next ih => exact ⟨h.1, ih h.2⟩

/-- An outcome. -/
theorem lift {P : α → ω → Prop} {x : Outcome α} {w : ω} (hF : F w)
    (hx : ∀ a, x = .ok a → P a w) : (ofOutcome x : Recipe ω V α).Ensures T D F P w := by
  cases x with
  | ok a => exact hx a rfl
  | error cause => exact hF

/-- An operation on the world. -/
theorem act {P : α → ω → Prop} {operation : ω → Outcome α × ω} {w : ω}
    (hfits : D.Fits (operation w).2) (hF : F (operation w).2)
    (hok : ∀ a, (operation w).1 = .ok a → P a (operation w).2) :
    (Recipe.act operation : Recipe ω V α).Ensures T D F P w :=
  ⟨hfits, lift hF hok⟩

/-- A step for each of a list keeps an invariant of the part done so far. -/
theorem forM {γ : Type} {f : γ → Recipe ω V Unit} {I : List γ → ω → Prop} {l : List γ} {w : ω}
    (h0 : I [] w)
    (hstep : ∀ done c rest w, done ++ c :: rest = l → I done w →
      (f c).Ensures T D F (fun _ => I (done ++ [c])) w) :
    (l.forM f).Ensures T D F (fun _ => I l) w := by
  suffices h : ∀ (rest done : List γ) (w : ω), done ++ rest = l → I done w →
      (rest.forM f).Ensures T D F (fun _ => I l) w from h l [] w rfl h0
  intro rest
  induction rest with
  | nil =>
    rintro done w rfl hw
    rwa [List.append_nil]
  | cons c rest ih =>
    rintro done w rfl hw
    apply (hstep done c rest w rfl hw).bind
    intro _ w' hw'
    exact ih (done ++ [c]) w' (by simp) hw'

end Ensures

/-- The recipe only drifts, and its answer has the property. -/
def Quiet (T : Promise V) (D : Drift ω) (P : α → Prop) (r : Recipe ω V α) : Prop :=
  ∀ w, D.Fits w → r.Ensures T D (D.Step w) (fun a w' => P a ∧ D.Step w w') w

namespace Quiet

variable {P Q : α → Prop} {r : Recipe ω V α}

/-- A quiet recipe as part of another. -/
theorem ensures (h : r.Quiet T D P) {w : ω} (hw : D.Fits w) (hF : ∀ w', D.Step w w' → F w') :
    r.Ensures T D F (fun a w' => P a ∧ D.Step w w') w :=
  (h w hw).mono (fun _ _ => id) hF fun _ _ => id

theorem mono (h : r.Quiet T D P) (hT : ∀ h v, T' h v → T h v) (hP : ∀ a, P a → Q a) :
    r.Quiet T' D Q :=
  fun w hw => (h w hw).mono hT (fun _ => id) fun a _ ha => ⟨hP a ha.1, ha.2⟩

theorem done {a : α} (h : P a) : (Recipe.done a : Recipe ω V α).Quiet T D P :=
  fun _ hw => ⟨h, D.refl hw⟩

theorem bind {R : β → Prop} {f : α → Recipe ω V β} (h : r.Quiet T D P)
    (hf : ∀ a, P a → (f a).Quiet T D R) : (r >>= f).Quiet T D R := by
  intro w hw
  apply (h w hw).bind
  intro a w' ha
  refine (hf a ha.1 w' (D.fits ha.2)).mono (fun _ _ => id) (fun u hu => D.trans ha.2 hu) ?_
  exact fun b u hb => ⟨hb.1, D.trans ha.2 hb.2⟩

/-- A recipe whose answer is known. -/
theorem bind_eq {a : α} {R : β → Prop} {f : α → Recipe ω V β} (h : r.Quiet T D (· = a))
    (hf : (f a).Quiet T D R) : (r >>= f).Quiet T D R := by
  apply h.bind
  intro b hb
  rwa [hb]

theorem lift {x : Outcome α} (h : ∀ a, x = .ok a → P a) :
    (ofOutcome x : Recipe ω V α).Quiet T D P :=
  fun _ hw => Ensures.lift (D.refl hw) fun a ha => ⟨h a ha, D.refl hw⟩

/-- A cached value is as promised. -/
theorem fetch (h : Handle) : (Recipe.fetch h : Recipe ω V V).Quiet T D (T h) :=
  fun _ _ _ hstep => ⟨hstep, fun _ hvalue => ⟨hvalue, hstep⟩, fun _ => hstep⟩

theorem demote (h : Handle) : (Recipe.demote h : Recipe ω V Unit).Quiet T D fun _ => True :=
  fun _ hw => ⟨trivial, D.refl hw⟩

/-- What is read of the world holds of some world that fits. -/
theorem observe (part : ω → α) :
    (Recipe.observe part : Recipe ω V α).Quiet T D fun a => ∃ w, D.Fits w ∧ part w = a :=
  fun w hw => ⟨⟨w, hw, rfl⟩, D.refl hw⟩

end Quiet

/-- The postconditions of quiet recipes. -/
def quiet (T : Promise V) (D : Drift ω) : Logic (Recipe ω V) fun _ => True where
  Ensures := Quiet T D
  pure := Quiet.done
  bind := Quiet.bind
  lift h := Quiet.lift fun _ ha => h.of_ok ha

end Recipe

/-! ## Sound stores -/

/-- The store keeps the promises, and promises nothing of values that are not registered. -/
structure Sound (T : Promise V) (D : Drift ω) (entries : Catalogue ω V) (s : Shelf ω V) : Prop where
  /-- The world is as it is throughout. -/
  fits : D.Fits s.world
  /-- There is a place for every registered value. -/
  slots : s.values.size = entries.size
  /-- The values at hand are as promised. -/
  values : ∀ h v, s.value? h = some v → T h v
  /-- What a recipe makes is as promised. -/
  recipes : ∀ (h : Handle) entry, entries[h.index]? = some entry → entry.recipe.Quiet T D (T h)
  /-- Anything may be registered later. -/
  fresh : ∀ h v, entries.size ≤ h.index → T h v

/-- How a run ends: with an answer and `P`, or stopped with `F`, in a sound store. -/
def Settled (T : Promise V) (D : Drift ω) (c : Catalogue ω V) (F : ω → Prop) (P : α → ω → Prop) :
    Outcome α × Shelf ω V → Prop
  | (.ok a, s) => Sound T D c s ∧ P a s.world
  | (.error _, s) => Sound T D c s ∧ F s.world

theorem Settled.mono {T : Promise V} {D : Drift ω} {c : Catalogue ω V} {F F' : ω → Prop}
    {P P' : α → ω → Prop} {x : Outcome α × Shelf ω V} (h : Settled T D c F P x)
    (hF : ∀ w, F w → F' w) (hP : ∀ a w, P a w → P' a w) : Settled T D c F' P' x := by
  obtain ⟨answer, s⟩ := x
  cases answer with
  | ok a => exact ⟨h.1, hP a s.world h.2⟩
  | error cause => exact ⟨h.1, hF s.world h.2⟩

namespace Sound

variable {T : Promise V} {D : Drift ω} {c : Catalogue ω V} {s : Shelf ω V}

theorem of_values {s' : Shelf ω V} (S : Sound T D c s) (hworld : s'.world = s.world)
    (hslots : s'.values.size = s.values.size)
    (hvalues : ∀ h v, s'.value? h = some v → T h v) : Sound T D c s' :=
  ⟨hworld ▸ S.fits, hslots.trans S.slots, hvalues, S.recipes, S.fresh⟩

theorem account (S : Sound T D c s) (cache : Nat) (change : Ledger → Ledger) :
    Sound T D c (s.account cache change) :=
  S.of_values rfl rfl S.values

theorem evict (S : Sound T D c s) (handles : List Handle) : Sound T D c (s.evict handles) := by
  apply S.of_values (Shelf.world_evict s handles) (Shelf.size_evict s handles)
  intro h v hvalue
  rw [Shelf.value?_evict] at hvalue
  split at hvalue
  · cases hvalue
  · exact S.values h v hvalue

theorem setValue (S : Sound T D c s) {h : Handle} {value : V} (hvalue : T h value) :
    Sound T D c (s.setValue h (some value)) := by
  refine S.of_values rfl (Shelf.size_setValue s h _) ?_
  intro g v hg
  rw [Shelf.value?_setValue] at hg
  split at hg
  · next heq =>
    cases hg
    exact heq.1 ▸ hvalue
  · exact S.values g v hg

/-- Keeping a value just made. -/
theorem keep (S : Sound T D c s) {h : Handle} {value : V} (hvalue : T h value)
    (entry : Entry ω V) :
    Settled T D c (D.Step s.world) (fun v w => T h v ∧ D.Step s.world w)
      (s.keep h entry value) := by
  have hstep := D.refl S.fits
  simp only [Shelf.keep]
  cases hledger : (s.setValue h (some value)).ledger? entry.cache with
  | none => exact ⟨S.setValue hvalue, hvalue, hstep⟩
  | some ledger =>
    dsimp only
    have S' := (S.setValue hvalue).account entry.cache fun _ =>
      (ledger.generated.enroll h entry.size).2
    cases hleaving : (ledger.generated.enroll h entry.size).1 with
    | none => exact ⟨S', hstep⟩
    | some leaving => exact ⟨S'.evict leaving, hvalue, (Shelf.world_evict _ _).symm ▸ hstep⟩

/-- A recipe runs as its promises say when requests for values are answered as promised. -/
theorem run {visit : Handle → Shelf ω V → Outcome V × Shelf ω V} (S : Sound T D c s)
    (hvisit : ∀ h s, Sound T D c s →
      Settled T D c (D.Step s.world) (fun v w => T h v ∧ D.Step s.world w) (visit h s))
    {F : ω → Prop} {P : α → ω → Prop} {r : Recipe ω V α} (hr : r.Ensures T D F P s.world) :
    Settled T D c F P (r.run c visit s) := by
  induction r generalizing s with
  | done value => exact ⟨S, hr⟩
  | stop cause => exact ⟨S, hr⟩
  | access h next ih =>
    have hanswer := hvisit h s S
    rw [Recipe.run]
    generalize visit h s = x at *
    obtain ⟨answer, s'⟩ := x
    cases answer with
    | ok value =>
      obtain ⟨S', hvalue, hstep⟩ := hanswer
      exact ih _ S' ((hr _ hstep).2.1 value hvalue)
    | error cause =>
      obtain ⟨S', hstep⟩ := hanswer
      cases cause with
      | problem cause => exact ih _ S' ((hr _ hstep).2.2 cause)
      | fault cause => exact ⟨S', (hr _ hstep).1⟩
  | lower h next ih =>
    have hdemote : Sound T D c (c.demote s h) ∧ (c.demote s h).world = s.world := by
      unfold Catalogue.demote
      split
      · exact ⟨S, rfl⟩
      · exact ⟨S.account _ _, rfl⟩
    exact ih hdemote.1 (hdemote.2.symm ▸ hr)
  | inspect h next ih => exact ih _ S (hr _)
  | read next ih => exact ih _ S hr
  | write change next ih => exact ih ⟨hr.1, S.slots, S.values, S.recipes, S.fresh⟩ hr.2

/-- **A sound store answers as promised.** -/
theorem visit (S : Sound T D c s) (depth : Nat) (busy : List Handle) (h : Handle) :
    Settled T D c (D.Step s.world) (fun v w => T h v ∧ D.Step s.world w)
      (c.visit depth busy h s) := by
  induction depth using Nat.strongRecOn generalizing busy h s with
  | ind depth ih =>
    have hstep := D.refl S.fits
    unfold Catalogue.visit
    cases hentry : c.entry? h with
    | none => exact ⟨S, hstep⟩
    | some entry =>
      by_cases hbusy : h ∈ busy
      · simp only [if_pos hbusy]
        exact ⟨S, hstep⟩
      · simp only [if_neg hbusy]
        cases hvalue : s.value? h with
        | some value => exact ⟨S.account _ _, S.values h value hvalue, hstep⟩
        | none =>
          cases depth with
          | zero => exact ⟨S, hstep⟩
          | succ depth =>
            have hrun := S.run
              (fun other s S => ih depth (Nat.lt_succ_self depth) S (h :: busy) other)
              (S.recipes h entry (Option.filter_eq_some_iff.mp hentry).1 s.world S.fits)
            dsimp only
            generalize entry.recipe.run c (fun other => c.visit depth (h :: busy) other) s = x at *
            obtain ⟨answer, s'⟩ := x
            cases answer with
            | error cause => exact hrun
            | ok value =>
              obtain ⟨S', hpromise, hdrift⟩ := hrun
              exact (S'.keep hpromise entry).mono (fun w hw => D.trans hdrift hw)
                fun v w hv => ⟨hv.1, D.trans hdrift hv.2⟩

end Sound

/-- A promise made for one more handle. -/
def Promise.grant (T : Promise V) (h : Handle) (Q : V → Prop) : Promise V :=
  fun g v => T g v ∧ (g = h → Q v)

namespace Store

variable {T : Promise V} {D : Drift ω} {s : Store ω V}

/-- The store keeps the promises. -/
def Keeps (s : Store ω V) (T : Promise V) (D : Drift ω) : Prop := Sound T D s.catalogue s.shelf

namespace Keeps

theorem empty {world : ω} (hworld : D.Fits world) :
    (Store.empty world : Store ω V).Keeps (fun _ _ => True) D :=
  ⟨hworld, rfl, fun _ _ _ => trivial, fun h entry hentry => by simp [Store.empty] at hentry,
    fun _ _ _ => trivial⟩

theorem newCache (K : s.Keeps T D) (budget : Nat) : (s.newCache budget).2.Keeps T D :=
  ⟨K.fits, K.slots, K.values, K.recipes, K.fresh⟩

theorem amend (K : s.Keeps T D) {change : ω → ω} (hchange : D.Fits (change s.world)) :
    (s.amend change).Keeps T D :=
  ⟨hchange, K.slots, K.values, K.recipes, K.fresh⟩

theorem clear (K : s.Keeps T D) (cache : Nat) : (s.clear cache).Keeps T D := by
  unfold Store.clear
  split
  · exact K
  · exact (K.evict _).account _ _

theorem retain (K : s.Keeps T D) (h : Handle) : (s.retain h).Keeps T D := by
  refine ⟨K.fits, K.slots.trans Array.size_modify.symm, K.values, ?_, fun g v hg => K.fresh g v ?_⟩
  · intro g entry hentry
    rw [Store.retain, Array.getElem?_modify] at hentry
    split at hentry
    · obtain ⟨known, hknown, rfl⟩ := Option.map_eq_some_iff.mp hentry
      exact K.recipes g known hknown
    · exact K.recipes g entry hentry
  · rwa [Store.retain, Array.size_modify] at hg

theorem retain_all (K : s.Keeps T D) (handles : List Handle) :
    (handles.foldl Store.retain s).Keeps T D := by
  induction handles generalizing s with
  | nil => exact K
  | cons h rest ih => exact ih (K.retain h)

/-- Registering a value with a promise that its recipe keeps. -/
theorem insert (K : s.Keeps T D) {Q : V → Prop} {recipe : Recipe ω V V}
    (hrecipe : recipe.Quiet T D Q) (cache size : Nat) (holds : List Handle) :
    (s.insert cache size recipe holds).2.Keeps (T.grant ⟨s.catalogue.size⟩ Q) D := by
  have K' := K.retain_all holds
  have hsize := s.size_retain_all holds
  have hshelf := s.shelf_retain_all holds
  have hweaker : ∀ h v, T.grant ⟨s.catalogue.size⟩ Q h v → T h v := fun h v hv => hv.1
  have hfits : D.Fits (s.insert cache size recipe holds).2.world := by
    rw [world_insert]
    exact K.fits
  refine ⟨hfits, ?_, ?_, ?_, ?_⟩
  · simp [Store.insert, hsize, hshelf, K.slots]
  · intro h v hvalue
    have hold : s.shelf.value? h = some v ∧ h.index ≠ s.catalogue.size := by
      rw [Store.insert, hshelf, Shelf.value?, Array.getElem?_push, K.slots] at hvalue
      split at hvalue
      · cases hvalue
      · next hne => exact ⟨hvalue, hne⟩
    exact ⟨K.values h v hold.1, fun heq => absurd (congrArg Handle.index heq) hold.2⟩
  · intro h entry hentry
    rw [Store.insert, Array.getElem?_push, hsize] at hentry
    split at hentry
    · next hnew =>
      cases hentry
      refine hrecipe.mono hweaker fun v hv => ⟨K.fresh h v (Nat.le_of_eq hnew.symm), fun _ => hv⟩
    · next hold =>
      refine (K'.recipes h entry hentry).mono hweaker fun v hv => ⟨hv, ?_⟩
      intro heq
      exact absurd (congrArg Handle.index heq) hold
  · intro h v hh
    rw [Store.size_insert] at hh
    refine ⟨K.fresh h v (Nat.le_of_succ_le hh), ?_⟩
    intro heq
    rw [heq] at hh
    exact absurd hh (Nat.not_succ_le_self _)

/-- **A run in a sound store ends as its promises say.** -/
theorem perform (K : s.Keeps T D) {F : ω → Prop} {P : α → ω → Prop} {r : Recipe ω V α}
    (hr : r.Ensures T D F P s.world) {answer : Outcome α} {after : Store ω V}
    (hrun : s.perform r = (answer, after)) :
    after.Keeps T D ∧ (∀ a, answer = .ok a → P a after.world) ∧
      ∀ cause, answer = .error cause → F after.world := by
  have hvisit : ∀ h t, Sound T D s.catalogue t →
      Settled T D s.catalogue (D.Step t.world) (fun v w => T h v ∧ D.Step t.world w)
        (s.catalogue.visit s.catalogue.size [] h t) :=
    fun h _ S => S.visit s.catalogue.size [] h
  have hsettled := K.run hvisit hr
  rw [Store.perform] at hrun
  generalize r.run s.catalogue (s.catalogue.visit s.catalogue.size []) s.shelf = x at *
  obtain ⟨answer', shelf⟩ := x
  cases hrun
  cases answer with
  | ok a => exact ⟨hsettled.1, by rintro _ ⟨⟩; exact hsettled.2, by rintro _ ⟨⟩⟩
  | error cause => exact ⟨hsettled.1, by rintro _ ⟨⟩, by rintro _ ⟨⟩; exact hsettled.2⟩

end Keeps

end Store

end Patchwork.Cache
