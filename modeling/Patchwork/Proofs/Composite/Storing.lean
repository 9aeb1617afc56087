import Patchwork.Proofs.Cache.Pool
import Patchwork.Proofs.Channel.Single
import Patchwork.Proofs.Composite.Sources
import Patchwork.Proofs.Ownership

/-!
# Storing masks

The masks of a mosaic are made and stored side by side, a task for each source.  A store of masks is
asked no more than to load what it saved, as long as it saved only masks of zeros and ones, and to
leave the masks of other sources.  One that does may be in memory or have code of its own.

The distance planes come out of a cache that may evict and make them again at any time, and the
masks of some sources are already stored while others are made.  Planes are as promised, and making
them leaves the masks; what a task has stored another leaves, unless saving fails and the whole is
refused.

## Main definitions

* `KeepsMasks`, `SavesMasks` — a mask store loads what it saved, also while images are made.
* `HasMask`, `Stored` — the mask of a source is stored, and those of all.
* `Storing`, `StoredUpTo` — the tasks that store all masks, side by side and in order.

## Main statements

* `keepsMasks_inMemory`, `keepsMasks_isOwn` — a store in memory loads what it saved, and one of the
  caller's own does when its code does.
* `Storing.turn`, `Storing.rest` — one turn of a task, and what is left in order.
* `ensures_generate` — all tasks.
-/

namespace Patchwork

open Cache (Handle Promise Drift Recipe Schedule)
open Channel

variable {σ κ : Type} [Channel κ] {format : Format}

/-! ## Stores of masks -/

/-- The store loads what it saved, as long as only masks of zeros and ones are saved. -/
structure KeepsMasks (Fits : Workspace σ κ → Prop) (store : Nat) : Prop where
  /-- Saving a mask keeps what holds throughout. -/
  save : ∀ w index (mask : Raster κ), Fits w → (∀ x y, mask.peek x y = 0 ∨ mask.peek x y = 1) →
    Fits (w.saveMask store index mask).2
  /-- A mask that was saved can be loaded. -/
  load : ∀ w index (mask : Raster κ), Fits w → (∀ x y, mask.peek x y = 0 ∨ mask.peek x y = 1) →
    (w.saveMask store index mask).1 = .ok () →
    (w.saveMask store index mask).2.loadMask store index = .ok mask
  /-- The other masks stay. -/
  others : ∀ w index (mask : Raster κ), Fits w → (∀ x y, mask.peek x y = 0 ∨ mask.peek x y = 1) →
    (w.saveMask store index mask).1 = .ok () → ∀ other, other ≠ index →
    (w.saveMask store index mask).2.loadMask store other = w.loadMask store other
  /-- Geometries do not matter. -/
  fix : ∀ w geometries, Fits w → Fits { w with geometries }

omit [Channel κ] in
theorem lookup_filter_ne {index other : Nat} (h : other ≠ index) (masks : List (Nat × Raster κ)) :
    (masks.filter (·.1 ≠ index)).lookup other = masks.lookup other := by
  induction masks with
  | nil => rfl
  | cons entry masks ih =>
    obtain ⟨known, mask⟩ := entry
    by_cases hknown : known = index
    · subst hknown
      have hskip : (other == known) = false := beq_false_of_ne h
      simpa [List.lookup_cons, hskip] using ih
    · simp only [ne_eq, hknown, not_false_eq_true, decide_true, List.filter_cons_of_pos,
        List.lookup_cons, ih]

/-- The store is in memory. -/
def InMemory (store : Nat) (w : Workspace σ κ) : Prop :=
  ∃ masks, w.maskStores[store]? = some (.memory masks)

/-- A store in memory loads what it saved. -/
theorem keepsMasks_inMemory (store : Nat) :
    KeepsMasks (InMemory store : Workspace σ κ → Prop) store := by
  have hsave : ∀ (w : Workspace σ κ) index mask, InMemory store w →
      ∃ masks, w.maskStores[store]? = some (.memory masks) ∧
        (w.saveMask store index mask).2.maskStores[store]? =
          some (.memory ((index, mask) :: masks.filter (·.1 ≠ index))) := by
    rintro w index mask ⟨masks, hmasks⟩
    have hlt := (Array.getElem?_eq_some_iff.mp hmasks).1
    refine ⟨masks, hmasks, ?_⟩
    simp only [Workspace.saveMask, hmasks, MaskStore.save]
    exact Array.getElem?_setIfInBounds_self_of_lt hlt
  refine ⟨?_, ?_, ?_, fun w geometries hw => hw⟩
  · intro w index mask hw _
    obtain ⟨masks, -, hafter⟩ := hsave w index mask hw
    exact ⟨_, hafter⟩
  · intro w index mask hw _ _
    obtain ⟨masks, -, hafter⟩ := hsave w index mask hw
    simp only [Workspace.loadMask, hafter, MaskStore.load, List.lookup_cons_self]
  · intro w index mask hw _ _ other hother
    obtain ⟨masks, hmasks, hafter⟩ := hsave w index mask hw
    have hskip : (other == index) = false := beq_false_of_ne hother
    simp only [Workspace.loadMask, hafter, hmasks, MaskStore.load, List.lookup_cons, hskip,
      lookup_filter_ne hother]

/-- Code of the caller's own that loads what it saved, as long as only masks of zeros and ones are
saved. -/
structure KeepsOwn (Fits : σ → Files → Prop) (load : σ → Files → Nat → Except Problem (Raster κ))
    (save : σ → Files → Nat → Raster κ → Except Problem Unit × σ × Files) : Prop where
  /-- Saving a mask keeps what holds throughout. -/
  keeps : ∀ own files index (mask : Raster κ), Fits own files →
    (∀ x y, mask.peek x y = 0 ∨ mask.peek x y = 1) →
    Fits (save own files index mask).2.1 (save own files index mask).2.2
  /-- A mask that was saved can be loaded. -/
  loads : ∀ own files index (mask : Raster κ), Fits own files →
    (∀ x y, mask.peek x y = 0 ∨ mask.peek x y = 1) → (save own files index mask).1 = .ok () →
    load (save own files index mask).2.1 (save own files index mask).2.2 index = .ok mask
  /-- The other masks stay. -/
  others : ∀ own files index (mask : Raster κ), Fits own files →
    (∀ x y, mask.peek x y = 0 ∨ mask.peek x y = 1) → (save own files index mask).1 = .ok () →
    ∀ other, other ≠ index →
    load (save own files index mask).2.1 (save own files index mask).2.2 other =
      load own files other

/-- The store is the caller's own. -/
def IsOwn (Fits : σ → Files → Prop) (load : σ → Files → Nat → Except Problem (Raster κ))
    (save : σ → Files → Nat → Raster κ → Except Problem Unit × σ × Files) (store : Nat)
    (w : Workspace σ κ) : Prop :=
  w.maskStores[store]? = some (.custom load save) ∧ Fits w.own w.files

/-- A store of the caller's own loads what it saved when its code does. -/
theorem keepsMasks_isOwn {Fits : σ → Files → Prop}
    {load : σ → Files → Nat → Except Problem (Raster κ)}
    {save : σ → Files → Nat → Raster κ → Except Problem Unit × σ × Files}
    (K : KeepsOwn Fits load save) (store : Nat) :
    KeepsMasks (IsOwn Fits load save store) store := by
  have hsaved : ∀ (w : Workspace σ κ) index mask, IsOwn Fits load save store w →
      (w.saveMask store index mask).1 = .ok () → (save w.own w.files index mask).1 = .ok () := by
    rintro w index mask ⟨hstore, -⟩ hanswer
    simp only [Workspace.saveMask, hstore, MaskStore.save] at hanswer
    cases h : (save w.own w.files index mask).1 with
    | ok _ => rfl
    | error cause =>
      rw [h] at hanswer
      cases hanswer
  have hafter : ∀ (w : Workspace σ κ) index mask, IsOwn Fits load save store w →
      (w.saveMask store index mask).2.maskStores[store]? = some (.custom load save) := by
    rintro w index mask ⟨hstore, -⟩
    have hlt := (Array.getElem?_eq_some_iff.mp hstore).1
    simp only [Workspace.saveMask, hstore, MaskStore.save]
    exact Array.getElem?_setIfInBounds_self_of_lt hlt
  have hworld : ∀ (w : Workspace σ κ) index mask, IsOwn Fits load save store w →
      (w.saveMask store index mask).2.own = (save w.own w.files index mask).2.1 ∧
        (w.saveMask store index mask).2.files = (save w.own w.files index mask).2.2 := by
    rintro w index mask ⟨hstore, -⟩
    simp only [Workspace.saveMask, hstore, MaskStore.save, and_self]
  refine ⟨fun w index mask hw hmask => ⟨hafter w index mask hw, ?_⟩, ?_, ?_, fun w _ hw => hw⟩
  · obtain ⟨hown, hfiles⟩ := hworld w index mask hw
    rw [hown, hfiles]
    exact K.keeps _ _ index mask hw.2 hmask
  · intro w index mask hw hmask hanswer
    obtain ⟨hown, hfiles⟩ := hworld w index mask hw
    simp only [Workspace.loadMask, hafter w index mask hw, MaskStore.load, hown, hfiles,
      K.loads _ _ index mask hw.2 hmask (hsaved w index mask hw hanswer)]
    rfl
  · intro w index mask hw hmask hanswer other hother
    obtain ⟨hown, hfiles⟩ := hworld w index mask hw
    simp only [Workspace.loadMask, hafter w index mask hw, hw.1, MaskStore.load, hown, hfiles,
      K.others _ _ index mask hw.2 hmask (hsaved w index mask hw hanswer) other hother]

/-- Masks may be saved one by one while images are made, and those that are stored stay. -/
structure SavesMasks (D : Drift (Workspace σ κ)) (Fits : Workspace σ κ → Prop) (store : Nat) :
    Prop where
  /-- Making images leaves the masks. -/
  step : ∀ {v w}, D.Step v w → (Workspace.drift Fits store).Step v w
  /-- Saving one keeps what holds throughout. -/
  save : ∀ w index (mask : Raster κ), D.Fits w → (∀ x y, mask.peek x y = 0 ∨ mask.peek x y = 1) →
    D.Fits (w.saveMask store index mask).2

theorem KeepsMasks.saves {Fits : Workspace σ κ → Prop} {store : Nat} (K : KeepsMasks Fits store) :
    SavesMasks (Workspace.drift Fits store) Fits store :=
  ⟨id, K.save⟩

/-! ## Storing all masks -/

section Storing

variable {Fits : Workspace σ κ → Prop} {store : Nat} {placements : List Rect}
  {planes : Nat → Raster κ} {T : Promise (Value format κ)} {D : Drift (Workspace σ κ)}

/-- The mask of a source is stored. -/
def HasMask (store : Nat) (placements : List Rect) (planes : Nat → Raster κ) (index : Nat)
    (placement : Rect) (w : Workspace σ κ) : Prop :=
  ∃ mask, w.loadMask store index = .ok mask ∧
    Ownership.IsMask placements planes index placement mask

/-- The masks of all sources are stored. -/
def Stored (Fits : Workspace σ κ → Prop) (store : Nat) (placements : List Rect)
    (planes : Nat → Raster κ) (w : Workspace σ κ) : Prop :=
  Fits w ∧ ∀ (index : Nat) placement, placements[index]? = some placement →
    HasMask store placements planes index placement w

variable {index : Nat} {placement : Rect} {w w' : Workspace σ κ}

/-- What is stored stays while images are made. -/
theorem HasMask.step (hD : SavesMasks D Fits store) (hstep : D.Step w w')
    (h : HasMask store placements planes index placement w) :
    HasMask store placements planes index placement w' := by
  rwa [HasMask, (hD.step hstep).2 index]

/-- What is left of the task of a source: planes are asked for, the mask is saved, or nothing. -/
inductive MaskTask (T : Promise (Value format κ)) (store : Nat) (placements : List Rect)
    (planes : Nat → Raster κ) (index : Nat) (placement : Rect) : Making σ format κ Unit → Prop
  | asking {h : Handle} {next : Except Problem (Value format κ) → Making σ format κ (Raster κ)}
      (hgathers : (Recipe.access h next).Gathers T
        (Ownership.IsMask placements planes index placement)) :
      MaskTask T store placements planes index placement
        (Recipe.access h next >>= fun mask => Recipe.act fun w => w.saveMask store index mask)
  | saving {mask : Raster κ} (hmask : Ownership.IsMask placements planes index placement mask) :
      MaskTask T store placements planes index placement
        (Recipe.act fun w => w.saveMask store index mask)
  | done : MaskTask T store placements planes index placement (.done ())
  | stopped (cause : Failure) : MaskTask T store placements planes index placement (.stop cause)

/-- To make a mask is to ask for planes first. -/
theorem MaskTask.of_gathers {m : Making σ format κ (Raster κ)}
    (hm : m.Gathers T (Ownership.IsMask placements planes index placement)) :
    MaskTask T store placements planes index placement
      (m >>= fun mask => Recipe.act fun w => w.saveMask store index mask) := by
  cases m with
  | done mask => exact .saving hm
  | stop cause => exact .stopped cause
  | access h next => exact .asking hm
  | lower | inspect | read | write => exact hm.elim

theorem bind_act_ne_done {ω V α β : Type} {r : Recipe ω V α} {operation : α → ω → Outcome β × ω}
    (b : β) : (r >>= fun a => Recipe.act (operation a)) ≠ .done b := by
  cases r <;> exact nofun

/-- The masks are being made and stored side by side.  As long as no task has stopped, those that
are done have stored their masks; a mask that could not be saved may have spoilt others. -/
structure Storing (T : Promise (Value format κ)) (D : Drift (Workspace σ κ)) (store : Nat)
    (placements : List Rect) (planes : Nat → Raster κ) (tasks : List (Making σ format κ Unit))
    (w : Workspace σ κ) : Prop where
  /-- The world is as it is throughout. -/
  fits : D.Fits w
  /-- There is a task for every source. -/
  length_eq : tasks.length = placements.length
  /-- What is left of it. -/
  remains : ∀ (i : Nat) task its, tasks[i]? = some task → placements[i]? = some its →
    MaskTask T store placements planes i its task
  /-- What is done is stored. -/
  stored : (∀ cause, .stop cause ∉ tasks) → ∀ (i : Nat) its, tasks[i]? = some (.done ()) →
    placements[i]? = some its → HasMask store placements planes i its w

namespace Storing

variable {tasks : List (Making σ format κ Unit)} {task left : Making σ format κ Unit} {i : Nat}

theorem exists_placement (S : Storing T D store placements planes tasks w)
    (htask : tasks[i]? = some task) : ∃ its, placements[i]? = some its := by
  have hlt := (List.getElem?_eq_some_iff.mp htask).1
  rw [S.length_eq] at hlt
  exact ⟨_, List.getElem?_eq_getElem hlt⟩

/-- One task went on, and the masks of the others stay unless it has stopped. -/
theorem set (S : Storing T D store placements planes tasks w) (htask : tasks[i]? = some task)
    (hgoing : ∀ cause, task ≠ .stop cause) (hfits : D.Fits w')
    (hleft : ∀ its, placements[i]? = some its → MaskTask T store placements planes i its left)
    (hothers : (∀ cause, left ≠ .stop cause) → ∀ (j : Nat) its, j ≠ i →
      HasMask store placements planes j its w → HasMask store placements planes j its w')
    (hdone : left = .done () → ∀ its, placements[i]? = some its →
      HasMask store placements planes i its w') :
    Storing T D store placements planes (tasks.set i left) w' := by
  have hlt := (List.getElem?_eq_some_iff.mp htask).1
  refine ⟨hfits, (List.length_set ..).trans S.length_eq, fun j other its hj hits => ?_, ?_⟩
  · by_cases hji : i = j
    · subst hji
      rw [List.getElem?_set_self hlt] at hj
      exact Option.some.inj hj ▸ hleft its hits
    · rw [List.getElem?_set_ne hji] at hj
      exact S.remains j other its hj hits
  · intro hnone j its hj hits
    by_cases hji : i = j
    · subst hji
      rw [List.getElem?_set_self hlt] at hj
      exact hdone (Option.some.inj hj) its hits
    · rw [List.getElem?_set_ne hji] at hj
      have hnoleft : ∀ cause, left ≠ .stop cause := by
        rintro cause rfl
        exact hnone cause (List.mem_set hlt _)
      refine hothers hnoleft j its (Ne.symm hji) (S.stored (fun cause hmem => ?_) j its hj hits)
      obtain ⟨k, hk⟩ := List.getElem?_of_mem hmem
      by_cases hki : i = k
      · subst hki
        exact hgoing cause (Option.some.inj (htask.symm.trans hk))
      · exact hnone cause (List.mem_of_getElem? ((List.getElem?_set_ne hki).trans hk))

/-- **One turn** of any task, while the others wait. -/
theorem turn (K : KeepsMasks Fits store) (hD : SavesMasks D Fits store)
    (S : Storing T D store placements planes tasks w) (htask : tasks[i]? = some task) :
    task.turn.Ensures T D (fun _ => True)
      (fun left w' => Storing T D store placements planes (tasks.set i left) w') w := by
  obtain ⟨its, hits⟩ := S.exists_placement htask
  have hplaced : ∀ {P : Rect → Prop}, P its → ∀ place, placements[i]? = some place → P place :=
    fun h place hplace => Option.some.inj (hits.symm.trans hplace) ▸ h
  -- a task that has come to its end stays as it is
  have hsame : Storing T D store placements planes (tasks.set i task) w := by
    obtain ⟨hlt, rfl⟩ := List.getElem?_eq_some_iff.mp htask
    rwa [List.set_getElem_self]
  cases S.remains i task its htask hits with
  | @asking h next hgathers =>
    intro w' hstep
    have hgoes : ∀ m : Making σ format κ (Raster κ),
        m.Gathers T (Ownership.IsMask placements planes i its) →
        Storing T D store placements planes
          (tasks.set i (m >>= fun mask => Recipe.act fun w => w.saveMask store i mask)) w' :=
      fun m hm => S.set htask (fun _ => nofun) (D.fits hstep) (hplaced (.of_gathers hm))
        (fun _ _ _ _ => HasMask.step hD hstep) fun hdone => absurd hdone (bind_act_ne_done ())
    exact ⟨trivial, fun value hvalue => hgoes _ (hgathers.1 value hvalue),
      fun cause => hgoes _ (hgathers.2 cause)⟩
  | @saving mask hmask =>
    have hfits := (hD.step (D.refl S.fits)).1
    refine Recipe.Ensures.turn_act (hD.save w i mask S.fits hmask.binary) trivial ?_ ?_
    · rintro ⟨⟩ hsaved
      refine S.set htask (fun _ => nofun) (hD.save w i mask S.fits hmask.binary) (hplaced .done)
        (fun _ j place hne hold => ?_)
        fun _ => hplaced ⟨mask, K.load w i mask hfits hmask.binary hsaved, hmask⟩
      rwa [HasMask, K.others w i mask hfits hmask.binary hsaved j hne]
    · exact fun cause _ => S.set htask (fun _ => nofun) (hD.save w i mask S.fits hmask.binary)
        (hplaced (.stopped cause)) (fun hnone => absurd rfl (hnone cause)) nofun
  | done => exact hsame
  | stopped cause =>
    cases cause with
    | problem problem => exact hsame
    | fault fault => exact trivial

end Storing

/-- The masks are being stored in order.  As long as no task from the `count`-th on has stopped,
those before it and those that were done have stored their masks. -/
structure StoredUpTo (D : Drift (Workspace σ κ)) (store : Nat) (placements : List Rect)
    (planes : Nat → Raster κ) (tasks : List (Making σ format κ Unit)) (count : Nat)
    (w : Workspace σ κ) : Prop where
  /-- The world is as it is throughout. -/
  fits : D.Fits w
  /-- What is done is stored. -/
  stored : (∀ cause, .stop cause ∉ tasks.drop count) → ∀ (i : Nat) its,
    placements[i]? = some its → i < count ∨ tasks[i]? = some (.done ()) →
      HasMask store placements planes i its w

namespace StoredUpTo

variable {tasks : List (Making σ format κ Unit)} {task : Making σ format κ Unit} {count : Nat}
  {its : Rect} {mask : Raster κ}

theorem zero (S : Storing T D store placements planes tasks w) :
    StoredUpTo D store placements planes tasks 0 w :=
  ⟨S.fits, fun hnone i its hits hi =>
    S.stored hnone i its (hi.resolve_left (Nat.not_lt_zero i)) hits⟩

theorem step (hD : SavesMasks D Fits store) (hstep : D.Step w w')
    (U : StoredUpTo D store placements planes tasks count w) :
    StoredUpTo D store placements planes tasks count w' :=
  ⟨D.fits hstep, fun hnone i its hits hi => (U.stored hnone i its hits hi).step hD hstep⟩

/-- The next task has stored its mask, and the masks of the others stay. -/
theorem succ (U : StoredUpTo D store placements planes tasks count w)
    (htask : tasks[count]? = some task) (hgoing : ∀ cause, task ≠ .stop cause) (hfits : D.Fits w')
    (hothers : ∀ (i : Nat) its, i ≠ count → HasMask store placements planes i its w →
      HasMask store placements planes i its w')
    (hmask : (∀ cause, .stop cause ∉ tasks.drop count) → ∀ its, placements[count]? = some its →
      HasMask store placements planes count its w') :
    StoredUpTo D store placements planes tasks (count + 1) w' := by
  refine ⟨hfits, fun hnone i its hits hi => ?_⟩
  have hstays : ∀ cause, .stop cause ∉ tasks.drop count := by
    obtain ⟨hlt, rfl⟩ := List.getElem?_eq_some_iff.mp htask
    intro cause hmem
    rw [List.drop_eq_getElem_cons hlt, List.mem_cons] at hmem
    exact hmem.elim (fun hstop => hgoing cause hstop.symm) (hnone cause)
  by_cases hnext : i = count
  · subst hnext
    exact hmask hstays its hits
  · exact hothers i its hnext (U.stored hstays i its hits (hi.imp (fun hlt => by omega) id))

/-- Saving the mask of the next task. -/
theorem ensures_save (K : KeepsMasks Fits store) (hD : SavesMasks D Fits store)
    (U : StoredUpTo D store placements planes tasks count w) (htask : tasks[count]? = some task)
    (hgoing : ∀ cause, task ≠ .stop cause) (hits : placements[count]? = some its)
    (hmask : Ownership.IsMask placements planes count its mask) :
    (Recipe.act fun w => w.saveMask store count mask : Making σ format κ Unit).Ensures T D
      (fun _ => True) (fun _ => StoredUpTo D store placements planes tasks (count + 1)) w := by
  have hfits := (hD.step (D.refl U.fits)).1
  have hafter := hD.save w count mask U.fits hmask.binary
  refine Recipe.Ensures.act hafter trivial ?_
  rintro ⟨⟩ hsaved
  refine U.succ htask hgoing hafter (fun i place hne hold => ?_) fun _ place hplace => ?_
  · rwa [HasMask, K.others w count mask hfits hmask.binary hsaved i hne]
  · obtain rfl := Option.some.inj (hits.symm.trans hplace)
    exact ⟨mask, K.load w count mask hfits hmask.binary hsaved, hmask⟩

end StoredUpTo

/-- The tasks that are left, in order, up to the first that stops. -/
theorem Storing.rest {tasks : List (Making σ format κ Unit)} (K : KeepsMasks Fits store)
    (hD : SavesMasks D Fits store) (S : Storing T D store placements planes tasks w) :
    (tasks.mapM id).Ensures T D (fun _ => True)
      (fun _ w' => D.Fits w' ∧ Stored Fits store placements planes w') w := by
  refine (Recipe.Ensures.sequence (I := StoredUpTo D store placements planes tasks) (.zero S)
    fun count task w htask U => ?_).mono (fun _ _ => id) (fun _ => id) fun _ w' U => ?_
  · obtain ⟨its, hits⟩ := S.exists_placement htask
    cases S.remains count task its htask hits with
    | @asking h next hgathers =>
      refine (hgathers.quiet.ensures U.fits fun _ _ => trivial).bind ?_
      rintro mask w' ⟨hmask, hstep⟩
      exact (U.step hD hstep).ensures_save K hD htask (fun _ => nofun) hits hmask
    | saving hmask => exact U.ensures_save K hD htask (fun _ => nofun) hits hmask
    | done =>
      exact U.succ htask (fun _ => nofun) U.fits (fun _ _ _ hold => hold) fun hnone place hplace =>
        U.stored hnone count place hplace (.inr htask)
    | stopped cause => exact trivial
  · refine ⟨U.fits, (hD.step (D.refl U.fits)).1, fun i its hits => ?_⟩
    have hlt := (List.getElem?_eq_some_iff.mp hits).1
    rw [← S.length_eq] at hlt
    exact U.stored (by simp) i its hits (.inl hlt)

/-- At first all tasks ask for planes. -/
theorem Storing.start [Counting κ] {plane : Nat → Making σ format κ (Raster κ)}
    (hplane : ∀ i its, placements[i]? = some its → (plane i).Gathers T (· = planes i))
    (hw : D.Fits w) :
    Storing T D store placements planes ((List.range placements.length).map fun index =>
      Ownership.mask index placements plane >>= fun mask =>
        Recipe.act fun w => w.saveMask store index mask) w := by
  refine ⟨hw, by simp, fun i task its htask hits => ?_, fun _ i its hdone _ => ?_⟩
  · have hi := (List.getElem?_eq_some_iff.mp hits).1
    rw [List.getElem?_map, List.getElem?_range hi] at htask
    cases htask
    exact .of_gathers (Ownership.ensures_mask (Recipe.gathers T) (fun _ _ => trivial) hplane
      (fun _ _ _ => .inr fun _ => trivial) hits)
  · obtain ⟨index, -, hmade⟩ := List.mem_map.mp (List.mem_of_getElem? hdone)
    exact absurd hmade (bind_act_ne_done ())

/-- **Making the masks of all sources** stores them all, in whatever order. -/
theorem ensures_generate [Counting κ] (K : KeepsMasks Fits store) (hD : SavesMasks D Fits store)
    (schedule : Schedule) {plane : Nat → Making σ format κ (Raster κ)}
    (hplane : ∀ i its, placements[i]? = some its → (plane i).Gathers T (· = planes i))
    (hw : D.Fits w) :
    (Ownership.generate (Recipe.pool schedule) placements plane fun index mask =>
      Recipe.act fun w => w.saveMask store index mask).Ensures T D (fun _ => True)
        (fun _ w' => D.Fits w' ∧ Stored Fits store placements planes w') w := by
  refine Recipe.Ensures.bind ?_ fun _ _ h => h
  exact Recipe.Ensures.pool schedule (Storing.start hplane hw)
    (fun _ _ _ _ htask S => S.turn K hD htask) (fun _ _ _ => trivial) fun _ _ S => S.rest K hD

end Storing

end Patchwork
