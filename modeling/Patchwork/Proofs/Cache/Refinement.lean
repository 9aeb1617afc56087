import Mathlib.Algebra.Order.BigOperators.Group.List
import Mathlib.Algebra.Order.Group.Nat
import Patchwork.Proofs.Cache.Ranking
import Patchwork.Proofs.Cache.Shelf

/-!
# A cache is a queue

A shelf follows a queue when it holds the same values, and its ledger, read in the order of the
stamps, lists the same handles with the same sizes.  Every step of a recipe keeps this, so a whole
recipe does, at any depth of recipes that ask for other values.

What a running recipe needs besides is that a value being made is not at hand: only then may it
join the queue at its end.

## Main definitions

* `Follows` — a shelf and a queue hold the same.
* `Agree` — a run on a shelf and one on a queue answer alike and end alike.

## Main statements

* `agree_play`, `agree_ask` — running a recipe, asking for a value.
-/

namespace Patchwork.Cache

variable {ω V α : Type}

/-! ## A shelf that follows a queue -/

/-- All values belong to one cache, and their declared sizes fit a machine word together. -/
structure Catalogue.Single (c : Catalogue ω V) : Prop where
  /-- The cache has number zero. -/
  cache : ∀ entry ∈ c, entry.cache = 0
  /-- The sizes fit. -/
  fits : (c.toList.map (·.size)).sum ≤ wordMax

theorem Catalogue.mem_of_entry? {c : Catalogue ω V} {h : Handle} {entry : Entry ω V}
    (hentry : c.entry? h = some entry) : entry ∈ c :=
  Array.mem_of_getElem? (Option.filter_eq_some_iff.mp hentry).1

/-- The declared size of a value. -/
def Catalogue.sizeOf (entries : Catalogue ω V) (h : Handle) : Nat :=
  match entries[h.index]? with
  | some entry => entry.size
  | none => 0

theorem Catalogue.sizeOf_eq {c : Catalogue ω V} {h : Handle} {entry : Entry ω V}
    (hentry : c.entry? h = some entry) : c.sizeOf h = entry.size := by
  rw [Catalogue.sizeOf, (Option.filter_eq_some_iff.mp hentry).1]

/-- Values that are registered fit a machine word together, when none is counted twice. -/
theorem Catalogue.Single.sum_sizeOf_le {c : Catalogue ω V} (hc : c.Single) {handles : List Handle}
    (hnodup : handles.Nodup) (hknown : ∀ h ∈ handles, (c.entry? h).isSome) :
    (handles.map c.sizeOf).sum ≤ wordMax := by
  obtain ⟨same, hperm, hsub⟩ :=
    List.Nodup.subperm hnodup fun h hh => Catalogue.mem_handles (hknown h hh)
  have hall : c.handles.map c.sizeOf = c.toList.map (·.size) := by
    apply List.ext_getElem (by simp [Catalogue.handles])
    intro i hi _
    have hi : i < c.size := by simpa [Catalogue.handles] using hi
    simp [Catalogue.handles, Catalogue.sizeOf, hi]
  calc (handles.map c.sizeOf).sum
    _ = (same.map c.sizeOf).sum := ((hperm.map c.sizeOf).sum_eq).symm
    _ ≤ (c.handles.map c.sizeOf).sum := (hsub.map c.sizeOf).sum_le_sum fun _ _ => Nat.zero_le _
    _ ≤ wordMax := hall ▸ hc.fits

/-- A shelf and a queue hold the same. -/
structure Follows (c : Catalogue ω V) (s : Shelf ω V) (l : Lru ω V) : Prop where
  /-- They are in the same world. -/
  world : s.world = l.world
  /-- The shelf has a place for every registered value. -/
  slots : s.values.size = c.size
  /-- They hold the same values. -/
  value : ∀ h, s.value? h = (l.queue.item? h).map (·.value)
  /-- What is held has its declared size, and somebody refers to it. -/
  known : ∀ item ∈ l.queue, ∃ entry, c.entry? item.handle = some entry ∧ entry.size = item.size
  /-- The ledger in its order is the queue. -/
  ledger : ∃ ledger, s.ledgers = #[some ledger] ∧ ledger.budget = l.budget ∧
    ledger.Mirrors l.queue

/-- None of the handles is at hand. -/
def Idle (busy : List Handle) (l : Lru ω V) : Prop := ∀ b ∈ busy, b ∉ l.queue.handles

namespace Follows

variable {c : Catalogue ω V} {s : Shelf ω V} {l : Lru ω V} {h : Handle}

theorem handles (F : Follows c s l) : l.queue.handles.Nodup := by
  obtain ⟨ledger, -, -, M⟩ := F.ledger
  exact M.handles

theorem ledger? (F : Follows c s l) :
    ∃ ledger, s.ledger? 0 = some ledger ∧ ledger.budget = l.budget ∧ ledger.Mirrors l.queue := by
  obtain ⟨ledger, hledgers, hbudget, M⟩ := F.ledger
  exact ⟨ledger, by rw [Shelf.ledger?, hledgers]; rfl, hbudget, M⟩

/-- A value stands where it stands with the queue. -/
theorem status (F : Follows c s l) (h : Handle) : c.status s h = c.standing l h := by
  unfold Catalogue.status Catalogue.standing
  cases c.entry? h with
  | none => rfl
  | some entry => simp only [F.value h, Option.isSome_map]

/-- A value is on the shelf when it is in the queue. -/
theorem isSome_iff (F : Follows c s l) (h : Handle) :
    (s.value? h).isSome ↔ h ∈ l.queue.handles := by
  rw [F.value h, Option.isSome_map, Queue.item?_isSome_iff]

theorem mem_handles (F : Follows c s l) (hh : h ∈ l.queue.handles) : h ∈ c.handles := by
  obtain ⟨item, hitem, rfl⟩ := List.mem_map.mp hh
  obtain ⟨entry, hentry, -⟩ := F.known item hitem
  exact Catalogue.mem_handles (by simp [hentry])

/-- A value is at hand when it is in the queue. -/
theorem status_iff (F : Follows c s l) (h : Handle) :
    c.status s h = .resident ↔ h ∈ l.queue.handles := by
  rw [Catalogue.status, ← F.isSome_iff]
  cases hentry : c.entry? h with
  | none =>
    have hnone : h ∉ l.queue.handles := by
      intro hh
      obtain ⟨item, hitem, rfl⟩ := List.mem_map.mp hh
      obtain ⟨entry, hentry', -⟩ := F.known item hitem
      simp [hentry] at hentry'
    simp [F.isSome_iff, hnone]
  | some entry => cases (s.value? h).isSome <;> simp

/-- The values at hand are those of the queue. -/
theorem residents_perm (F : Follows c s l) :
    (c.handles.filter (c.status s · = .resident)).Perm l.queue.handles := by
  apply (List.perm_ext_iff_of_nodup (c.nodup_handles.filter _) F.handles).mpr
  intro h
  rw [List.mem_filter, decide_eq_true_iff, F.status_iff]
  exact and_iff_right_of_imp F.mem_handles

/-- Changing the ledger as the queue is changed, when the same values stay. -/
theorem account (F : Follows c s l) {change : Ledger → Ledger} {move : Queue V → Queue V}
    (hbudget : ∀ ledger, (change ledger).budget = ledger.budget)
    (hmirrors : ∀ ledger, ledger.Mirrors l.queue → (change ledger).Mirrors (move l.queue))
    (hperm : (move l.queue).Perm l.queue) :
    Follows c (s.account 0 change) (l.line move) := by
  obtain ⟨ledger, hledgers, hledger, M⟩ := F.ledger
  refine ⟨F.world, F.slots, ?_, ?_, change ledger, ?_, ?_, ?_⟩
  · intro h
    rw [Shelf.value?_account, F.value h]
    exact congrArg _ (find?_eq_of_perm F.handles hperm.symm h)
  · intro item hitem
    exact F.known item (hperm.subset hitem)
  · simp [Shelf.account, hledgers]
  · exact (hbudget ledger).trans hledger
  · exact hmirrors ledger M

theorem hit (F : Follows c s l) (hh : h ∈ l.queue.handles) :
    Follows c (s.account 0 (·.hit h)) (l.line (·.hit h)) :=
  F.account (fun _ => rfl) (fun _ M => M.hit hh) (Queue.hit_perm F.handles h)

theorem demote (F : Follows c s l) (hcache : ∀ entry ∈ c, entry.cache = 0) (h : Handle) :
    Follows c (c.demote s h) (l.line fun q => if (c.entry? h).isSome then q.lower h else q) := by
  unfold Catalogue.demote
  cases hentry : c.entry? h with
  | none => exact F
  | some entry =>
    simp only [hcache entry (Catalogue.mem_of_entry? hentry), Option.isSome_some, if_true]
    exact F.account (fun _ => rfl) (fun _ M => M.demote h) (Queue.lower_perm F.handles h)

/-- The total of the queue is the sum of the declared sizes. -/
theorem total_eq (F : Follows c s l) : l.queue.total = (l.queue.handles.map c.sizeOf).sum := by
  rw [Queue.total, Queue.handles, List.map_map]
  refine congrArg List.sum (List.map_congr_left ?_)
  intro item hitem
  obtain ⟨entry, hentry, hsize⟩ := F.known item hitem
  exact hsize.symm.trans (Catalogue.sizeOf_eq hentry).symm

/-- There is room for the count of one more value. -/
theorem fits (F : Follows c s l) (hc : c.Single) {entry : Entry ω V}
    (hentry : c.entry? h = some entry) (hidle : h ∉ l.queue.handles) :
    l.queue.total + entry.size ≤ wordMax := by
  have hknown : ∀ g ∈ h :: l.queue.handles, (c.entry? g).isSome := by
    refine List.forall_mem_cons.mpr ⟨by simp [hentry], ?_⟩
    intro g hg
    obtain ⟨item, hitem, rfl⟩ := List.mem_map.mp hg
    obtain ⟨other, hother, -⟩ := F.known item hitem
    simp [hother]
  have hsum := hc.sum_sizeOf_le (List.nodup_cons.mpr ⟨hidle, F.handles⟩) hknown
  rw [List.map_cons, List.sum_cons, Catalogue.sizeOf_eq hentry, ← F.total_eq] at hsum
  omega

/-- A value just made joins the shelf as it joins the queue, when there is room for the count. -/
theorem keep_counted (F : Follows c s l) {entry : Entry ω V} (hcache : entry.cache = 0)
    (hentry : c.entry? h = some entry) (hidle : h ∉ l.queue.handles)
    (hfits : l.queue.total + entry.size ≤ wordMax) (value : V) :
    ∃ after, s.keep h entry value = (.ok value, after) ∧
      Follows c after (l.line (·.enroll l.budget ⟨h, entry.size, value⟩)) := by
  let newcomer : Item V := ⟨h, entry.size, value⟩
  have hnew : newcomer.handle ∉ l.queue.handles := hidle
  obtain ⟨ledger, hledgers, hbudget, M⟩ := F.ledger
  obtain ⟨leaving, enrolled, henroll, hsame, hmirrors, hparts⟩ :=
    M.generated.enroll hnew hfits
  have hbudget' : ledger.generated.budget = l.budget := hbudget
  rw [hbudget'] at hmirrors hparts
  have hslot : h.index < s.values.size :=
    F.slots ▸ (Array.getElem?_eq_some_iff.mp (Option.filter_eq_some_iff.mp hentry).1).1
  refine ⟨((s.setValue h (some value)).account 0 fun _ => enrolled).evict leaving, ?_, ?_⟩
  · have hledger : (s.setValue h (some value)).ledger? 0 = some ledger := by
      rw [Shelf.ledger?, Shelf.ledgers_setValue, hledgers]
      rfl
    have henroll' : ledger.generated.enroll h entry.size = (some leaving, enrolled) := henroll
    simp only [Shelf.keep, hcache, hledger, henroll']
  · refine ⟨(Shelf.world_evict _ _).trans F.world, ?_, ?_, ?_, enrolled, ?_, ?_, hmirrors⟩
    · simpa using F.slots
    · intro g
      rw [Shelf.value?_evict, Shelf.value?_account, Shelf.value?_setValue, F.value g, Lru.line,
        Queue.item?_enroll F.handles hnew hparts]
      by_cases hout : g ∈ leaving
      · simp only [if_pos hout, Option.map_none]
      · rw [if_neg hout, if_neg hout]
        by_cases hg : g = h
        · simp [hg, hslot, newcomer]
        · simp [hg, newcomer]
    · intro item hitem
      rcases List.mem_append.mp hitem with hitem | hitem
      · exact F.known item ((Queue.trim_suffix _ _ _).subset hitem)
      · rw [List.mem_singleton.mp hitem]
        exact ⟨entry, hentry, rfl⟩
    · rw [Shelf.ledgers_evict]
      simp [Shelf.account, hledgers]
    · exact hsame.trans hbudget'

/-- A value just made joins the shelf as it joins the queue. -/
theorem keep (F : Follows c s l) (hc : c.Single) {entry : Entry ω V}
    (hentry : c.entry? h = some entry) (hidle : h ∉ l.queue.handles) (value : V) :
    ∃ after, s.keep h entry value = (.ok value, after) ∧
      Follows c after (l.line (·.enroll l.budget ⟨h, entry.size, value⟩)) :=
  F.keep_counted (hc.cache entry (Catalogue.mem_of_entry? hentry)) hentry hidle
    (F.fits hc hentry hidle) value

end Follows

/-! ## Recipes -/

/-- A run on a shelf and one on a queue answer alike and end alike, and none of the values being
made is at hand. -/
def Agree (c : Catalogue ω V) (busy : List Handle) (x : Outcome α × Shelf ω V)
    (y : Outcome α × Lru ω V) : Prop :=
  x.1 = y.1 ∧ Follows c x.2 y.2 ∧ Idle busy y.2

variable {c : Catalogue ω V} {busy : List Handle} {s : Shelf ω V} {l : Lru ω V}

/-- Moving an item brings nothing to hand. -/
theorem Idle.move {move : Queue V → Queue V} (I : Idle busy l)
    (hperm : (move l.queue).Perm l.queue) : Idle busy (l.line move) :=
  fun b hb hin => I b hb ((hperm.map (·.handle)).subset hin)

/-- A newcomer brings only itself to hand. -/
theorem Idle.enroll (I : Idle busy l) {newcomer : Item V} (hbusy : newcomer.handle ∉ busy) :
    Idle busy (l.line (·.enroll l.budget newcomer)) := by
  intro b hb hin
  rcases List.mem_cons.mp (Queue.handles_enroll_subset _ _ hin) with rfl | hin
  · exact hbusy hb
  · exact I b hb hin

/-- A recipe runs alike when requests for other values do. -/
theorem agree_play (hc : c.Single) {visit : Handle → Shelf ω V → Outcome V × Shelf ω V}
    {ask : Handle → Lru ω V → Outcome V × Lru ω V}
    (hask : ∀ h s l, Follows c s l → Idle busy l → Agree c busy (visit h s) (ask h l))
    (r : Recipe ω V α) (F : Follows c s l) (I : Idle busy l) :
    Agree c busy (r.run c visit s) (r.play c ask l) := by
  induction r generalizing s l with
  | done value => exact ⟨rfl, F, I⟩
  | stop cause => exact ⟨rfl, F, I⟩
  | access h next ih =>
    obtain ⟨hanswer, F', I'⟩ := hask h s l F I
    rw [Recipe.run, Recipe.play]
    generalize visit h s = x at *
    generalize ask h l = y at *
    obtain ⟨answer, s'⟩ := x
    obtain ⟨answer', l'⟩ := y
    obtain rfl : answer = answer' := hanswer
    cases answer with
    | ok value => exact ih _ F' I'
    | error cause =>
      cases cause with
      | problem cause => exact ih _ F' I'
      | fault cause => exact ⟨rfl, F', I'⟩
  | lower h next ih =>
    refine ih (F.demote hc.cache h) (I.move ?_)
    split
    · exact Queue.lower_perm F.handles h
    · exact .refl _
  | inspect h next ih =>
    rw [Recipe.run, Recipe.play, F.status h]
    exact ih _ F I
  | read next ih =>
    rw [Recipe.run, Recipe.play, F.world]
    exact ih _ F I
  | write change next ih =>
    exact ih ⟨congrArg change F.world, F.slots, F.value, F.known, F.ledger⟩ I

/-- **A request for a value is served as by the queue**, however deep recipes ask for others. -/
theorem agree_ask (hc : c.Single) (depth : Nat) (h : Handle) (F : Follows c s l)
    (I : Idle busy l) : Agree c busy (c.visit depth busy h s) (c.ask depth busy h l) := by
  induction depth using Nat.strongRecOn generalizing busy h s l with
  | ind depth ih =>
    unfold Catalogue.visit Catalogue.ask
    cases hentry : c.entry? h with
    | none => exact ⟨rfl, F, I⟩
    | some entry =>
      by_cases hbusy : h ∈ busy
      · simp only [if_pos hbusy]
        exact ⟨rfl, F, I⟩
      · simp only [if_neg hbusy]
        cases hitem : l.queue.item? h with
        | some item =>
          have hh : h ∈ l.queue.handles := Queue.item?_isSome_iff.mp (by simp [hitem])
          rw [F.value h, hitem, hc.cache entry (Catalogue.mem_of_entry? hentry)]
          exact ⟨rfl, F.hit hh, I.move (Queue.hit_perm F.handles h)⟩
        | none =>
          rw [F.value h, hitem]
          cases depth with
          | zero => exact ⟨rfl, F, I⟩
          | succ depth =>
            -- While it is made the value is not at hand, so it can join the queue afterwards.
            have I' : Idle (h :: busy) l :=
              List.forall_mem_cons.mpr ⟨Queue.item?_eq_none_iff.mp hitem, I⟩
            have hrun := agree_play hc
              (fun other s l F I => ih depth (Nat.lt_succ_self depth) other F I) entry.recipe F I'
            dsimp only [Option.map_none]
            generalize entry.recipe.run c (fun other => c.visit depth (h :: busy) other) s = x at *
            generalize entry.recipe.play c (fun other => c.ask depth (h :: busy) other) l = y at *
            obtain ⟨answer, s'⟩ := x
            obtain ⟨answer', l'⟩ := y
            obtain ⟨hanswer, F', I'⟩ := hrun
            obtain rfl : answer = answer' := hanswer
            obtain ⟨hidle, I'⟩ := List.forall_mem_cons.mp I'
            cases answer with
            | error cause => exact ⟨rfl, F', I'⟩
            | ok value =>
              obtain ⟨after, hkeep, hafter⟩ := F'.keep hc hentry hidle value
              simp only [hkeep]
              exact ⟨rfl, hafter, Idle.enroll I' hbusy⟩

end Patchwork.Cache
