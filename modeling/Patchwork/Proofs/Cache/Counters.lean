import Mathlib.Data.List.Count
import Patchwork.Proofs.Cache.Circles
import Patchwork.Proofs.Cache.Failure

/-!
# What a cache counts

The counters of a ledger are changed apart from the shelf: a use is counted where a value is met, a
generation and the evictions it brings where a value is kept, and nothing is counted when a value
goes with its last reference.  Beside them stands what an observer would write down: which request
was given its value, which recipe gave one, and which values were at hand before a step and not
after it.  The counters are the counts of that history, after any run of dealings and whatever
recipes ask of one another meanwhile.

Two shelves that follow queues differ by those who left and those who arrived, and the difference is
conserved (`Follows.length_departed`, `Follows.count_departed`).  So only three moves need an
argument of their own: a value is kept, the cache is cleared, a reference is given up.

## Main definitions

* `Event` — what an observer of a cache writes down.
* `Recipe.record`, `Catalogue.inside`, `Store.history` — the events of a recipe, of a request below
  its answer, and of a run of dealings.
* `Ledger.Tallies`, `Accounts` — a ledger counts a history, and a shelf agrees with it.
* `Catalogue.Living` — a run in which only living values are referred to once more.

## Main statements

* `Accounts.run`, `Accounts.visit` — a recipe, a request for a value.
* `Accounts.deal` — a dealing.
* `Store.counters_conserved` — the counters after any run of dealings.
-/

namespace Patchwork.Cache

variable {ω V α : Type}

/-! ## Histories -/

/-- What can happen to a value. -/
inductive Event.Kind where
  /-- A request for it was met. -/
  | given
  /-- Its recipe gave it. -/
  | made
  /-- It left to be made again. -/
  | evicted
  /-- It left with its last reference. -/
  | lost
  deriving DecidableEq

/-- What an observer of a cache writes down. -/
structure Event where
  /-- What happened. -/
  kind : Event.Kind
  /-- The value it happened to. -/
  handle : Handle
  deriving DecidableEq

namespace Event

/-- The number of events of a kind. -/
def total (kind : Kind) (log : List Event) : Nat := log.countP (·.kind = kind)

@[simp] theorem total_append (kind : Kind) (log log' : List Event) :
    total kind (log ++ log') = total kind log + total kind log' := List.countP_append

@[simp] theorem total_map (kind other : Kind) (handles : List Handle) :
    total kind (handles.map (mk other)) = if other = kind then handles.length else 0 := by
  rw [total, List.countP_map]
  split
  · next heq => simp [Function.comp_def, heq]
  · next hne => simp [Function.comp_def, hne]

@[simp] theorem count_map (kind other : Kind) (h : Handle) (handles : List Handle) :
    (handles.map (mk other)).count ⟨kind, h⟩ = if other = kind then handles.count h else 0 := by
  split
  · next heq =>
    subst heq
    exact List.count_map_of_injective handles (mk other) (fun _ _ => by simp) h
  · next hne =>
    apply List.count_eq_zero_of_not_mem
    simp [hne]

/-- A request is met when its answer is a value. -/
def ofAnswer (h : Handle) : Outcome V → List Event
  | .ok _ => [⟨.given, h⟩]
  | .error _ => []

end Event

/-- The values that were at hand on one shelf and are not on the next. -/
def Catalogue.departed (c : Catalogue ω V) (s t : Shelf ω V) : List Handle :=
  c.handles.filter fun h => (s.value? h).isSome && (t.value? h).isNone

/-- The events of a recipe, when `inside` are those of a request below its answer. -/
def Recipe.record (c : Catalogue ω V) (visit : Handle → Shelf ω V → Outcome V × Shelf ω V)
    (inside : Handle → Shelf ω V → List Event) : Recipe ω V α → Shelf ω V → List Event
  | .done _, _ => []
  | .stop _, _ => []
  | .access h next, s =>
    inside h s ++ Event.ofAnswer h (visit h s).1 ++
      match visit h s with
      | (.ok value, s) => (next (.ok value)).record c visit inside s
      | (.error (.problem cause), s) => (next (.error cause)).record c visit inside s
      | (.error (.fault _), _) => []
  | .lower h next, s => next.record c visit inside (c.demote s h)
  | .inspect h next, s => (next (c.status s h)).record c visit inside s
  | .read next, s => (next s.world).record c visit inside s
  | .write change next, s => next.record c visit inside { s with world := change s.world }

/-- The events of a request below its answer: those of the recipe, and when it gave the value, that
it did and who left for it. -/
def Catalogue.inside (c : Catalogue ω V) (depth : Nat) (busy : List Handle) (h : Handle)
    (s : Shelf ω V) : List Event :=
  match c.entry? h with
  | none => []
  | some entry =>
    if h ∈ busy then []
    else
      match s.value? h with
      | some _ => []
      | none =>
        match depth with
        | 0 => []
        | depth + 1 =>
          let visit := fun other => c.visit depth (h :: busy) other
          entry.recipe.record c visit (fun other => inside c depth (h :: busy) other) s ++
            match entry.recipe.run c visit s with
            | (.ok value, t) =>
              ⟨.made, h⟩ :: (c.departed t (t.keep h entry value).2).map (Event.mk .evicted)
            | (.error _, _) => []

namespace Store

/-- The events of a dealing. -/
def record (s : Store ω V) : Dealing ω V → List Event
  | .request (.access h) =>
    (Recipe.fetch h).record s.catalogue (s.catalogue.visit s.catalogue.size [])
      (s.catalogue.inside s.catalogue.size []) s.shelf
  | .request .clear =>
    (s.catalogue.departed s.shelf (s.clear 0).shelf).map (Event.mk .evicted)
  | .request (.release h) =>
    (s.catalogue.departed s.shelf (s.release [h]).shelf).map (Event.mk .lost)
  | _ => []

/-- The events of a run of dealings. -/
def history (s : Store ω V) : List (Dealing ω V) → List Event
  | [] => []
  | dealing :: rest => s.record dealing ++ (s.deal dealing).history rest

end Store

/-! ## Who left and who arrived -/

theorem Catalogue.nodup_departed (c : Catalogue ω V) (s t : Shelf ω V) : (c.departed s t).Nodup :=
  c.nodup_handles.filter _

namespace Follows

variable {c c' : Catalogue ω V} {s t : Shelf ω V} {l l' : Lru ω V} {h : Handle}

theorem mem_departed (F : Follows c s l) (F' : Follows c' t l') :
    h ∈ c.departed s t ↔ h ∈ l.queue.handles ∧ h ∉ l'.queue.handles := by
  rw [Catalogue.departed, List.mem_filter, Bool.and_eq_true, F.isSome_iff, ← F'.isSome_iff h]
  simp only [Option.isNone_iff_eq_none, Option.isSome_iff_ne_none, not_not]
  exact and_iff_right_of_imp fun hgone => F.mem_handles hgone.1

/-- Each value that left was there once. -/
theorem count_departed (F : Follows c s l) (t : Shelf ω V) (h : Handle) :
    (c.departed s t).count h = ((s.value? h).isSome && (t.value? h).isNone).toNat := by
  rw [(c.nodup_departed s t).count]
  simp only [Catalogue.departed, List.mem_filter]
  cases hgone : (s.value? h).isSome && (t.value? h).isNone with
  | false => simp
  | true =>
    have hin := F.mem_handles ((F.isSome_iff h).mp (Bool.and_eq_true_iff.mp hgone).1)
    simp [hin]

/-- As many are at hand as were, less those who left, and those who arrived. -/
theorem length_departed (F : Follows c s l) (F' : Follows c' t l') :
    (c.departed s t).length + l'.queue.length = l.queue.length + (c'.departed t s).length := by
  have hleft : (c.departed s t).Perm (l.queue.handles.filter (· ∉ l'.queue.handles)) := by
    apply (List.perm_ext_iff_of_nodup (c.nodup_departed s t) (F.handles.filter _)).mpr
    intro h
    rw [F.mem_departed F', List.mem_filter, decide_eq_true_iff]
  have hcame : (c'.departed t s).Perm (l'.queue.handles.filter (· ∉ l.queue.handles)) := by
    apply (List.perm_ext_iff_of_nodup (c'.nodup_departed t s) (F'.handles.filter _)).mpr
    intro h
    rw [F'.mem_departed F, List.mem_filter, decide_eq_true_iff]
  have hstayed : (l.queue.handles.filter (· ∈ l'.queue.handles)).Perm
      (l'.queue.handles.filter (· ∈ l.queue.handles)) := by
    apply (List.perm_ext_iff_of_nodup (F.handles.filter _) (F'.handles.filter _)).mpr
    intro h
    simp only [List.mem_filter, decide_eq_true_iff]
    exact And.comm
  have hlength : ∀ q : Queue V, q.handles.length = q.length := fun q => List.length_map _
  have hsplit := l.queue.handles.length_eq_length_filter_add (· ∈ l'.queue.handles)
  have hsplit' := l'.queue.handles.length_eq_length_filter_add (· ∈ l.queue.handles)
  simp only [← decide_not, ← hleft.length_eq, hstayed.length_eq, hlength] at hsplit
  simp only [← decide_not, ← hcame.length_eq, hlength] at hsplit'
  omega

/-- Only the value just made arrives when it is kept. -/
theorem departed_enroll (F : Follows c s l) (hidle : h ∉ l.queue.handles) {newcomer : Item V}
    (hnew : newcomer.handle = h)
    (F' : Follows c t (l.line (·.enroll l.budget newcomer))) : (c.departed t s).Perm [h] := by
  apply (List.perm_ext_iff_of_nodup (c.nodup_departed t s) (List.nodup_singleton h)).mpr
  intro g
  rw [F'.mem_departed F, List.mem_singleton]
  constructor
  · rintro ⟨hin, hout⟩
    rcases List.mem_cons.mp (Queue.handles_enroll_subset _ _ hin) with rfl | hin
    · exact hnew
    · exact absurd hin hout
  · rintro rfl
    refine ⟨?_, hidle⟩
    rw [← hnew]
    exact List.mem_map_of_mem (List.mem_append_right _ List.mem_cons_self)

/-- While a value is being made the shelf is tidy. -/
theorem tidy (F : Follows c s l) (hc : c.Single) (halive : (c.entry? h).isSome)
    (hidle : h ∉ l.queue.handles) : Tidy c [h] s := by
  refine ⟨F.slots, List.nodup_singleton h, List.forall_mem_singleton.mpr halive,
    List.forall_mem_singleton.mpr ?_, ?_⟩
  · rw [← Option.not_isSome_iff_eq_none, F.isSome_iff]
    exact hidle
  · intro k ledger hledger g hg
    obtain ⟨known, hledgers, -, M⟩ := F.ledger
    rw [Shelf.ledger?, hledgers] at hledger
    cases k with
    | succ k => cases hledger
    | zero =>
      obtain rfl : known = ledger := Option.some.inj hledger
      have hqueue : g ∈ l.queue.handles := M.mem_iff.mp hg
      obtain ⟨item, hitem, rfl⟩ := List.mem_map.mp hqueue
      obtain ⟨entry, hentry, -⟩ := F.known item hitem
      refine ⟨(F.isSome_iff _).mpr hqueue, ?_⟩
      rw [Catalogue.cache?_of_alive hentry, hc.cache entry (Catalogue.mem_of_entry? hentry)]

end Follows

/-! ## The counters of a history -/

/-- A ledger counts a history. -/
structure Ledger.Tallies (l : Ledger) (log : List Event) : Prop where
  /-- Each request that was met is counted as a hit or as a generation. -/
  given : l.hits + l.generations = Event.total .given log
  /-- Generations are values made. -/
  made : l.generations = Event.total .made log
  /-- Evictions are values that left to be made again. -/
  evicted : l.evictions = Event.total .evicted log
  /-- What was made is listed, or left. -/
  residents : l.residents.length + Event.total .evicted log + Event.total .lost log =
    Event.total .made log

/-- The value was registered, and nobody refers to it. -/
def Catalogue.Gone (c : Catalogue ω V) (h : Handle) : Prop :=
  h.index < c.size ∧ c.references h = 0

/-- The first ledger of a shelf counts a history, and each value is at hand when it was made and did
not leave since. -/
structure Accounts (c : Catalogue ω V) (s : Shelf ω V) (log : List Event) : Prop where
  /-- The ledger counts the history. -/
  tallies : ∃ l, s.ledger? 0 = some l ∧ l.Tallies log
  /-- A value was made as often as it left, and once more if it is at hand. -/
  values : ∀ h, (s.value? h).isSome.toNat + log.count ⟨.evicted, h⟩ + log.count ⟨.lost, h⟩ =
    log.count ⟨.made, h⟩
  /-- A value left for good only with its last reference. -/
  gone : ∀ h, ⟨.lost, h⟩ ∈ log → c.Gone h

namespace Accounts

variable {c c' : Catalogue ω V} {s t : Shelf ω V} {l l' : Lru ω V} {log : List Event} {h : Handle}
  {busy : List Handle}

theorem empty (c : Catalogue ω V) (budget : Nat) (world : ω) :
    Accounts c ((Store.empty world : Store ω V).newCache budget).2.shelf [] :=
  ⟨⟨.empty budget, rfl, rfl, rfl, rfl, rfl⟩, fun _ => by simp [Shelf.value?, Store.newCache,
    Store.empty], fun _ hlost => nomatch hlost⟩

/-- Accounting that changes no counter. -/
theorem account (A : Accounts c s log) {change : Ledger → Ledger}
    (hchange : ∀ l : Ledger, l.Tallies log → (change l).Tallies log) :
    Accounts c (s.account 0 change) log := by
  obtain ⟨l, hl, htallies⟩ := A.tallies
  refine ⟨⟨change l, ?_, hchange l htallies⟩, A.values, A.gone⟩
  rw [Shelf.ledger?_account, if_pos rfl, hl, Option.map_some]

theorem demote (A : Accounts c s log) (hc : c.Single) (h : Handle) :
    Accounts c (c.demote s h) log := by
  unfold Catalogue.demote
  cases hentry : c.entry? h with
  | none => exact A
  | some entry =>
    simp only [hc.cache entry (Catalogue.mem_of_entry? hentry)]
    apply A.account
    intro l T
    exact ⟨T.given, T.made, T.evicted, by
      simpa only [Ledger.demote, Ledger.restamp, List.length_map] using T.residents⟩

/-- A value at hand is given. -/
theorem hit (A : Accounts c s log) (h : Handle) :
    Accounts c (s.account 0 (·.hit h)) (log ++ [⟨.given, h⟩]) := by
  obtain ⟨l, hl, T⟩ := A.tallies
  refine ⟨⟨l.hit h, by rw [Shelf.ledger?_account, if_pos rfl, hl, Option.map_some], ?_⟩, ?_, ?_⟩
  · obtain ⟨hgiven, hmade, hevicted, hresidents⟩ := T
    constructor
    · simp only [Ledger.hit, Ledger.touch, Ledger.restamp, Event.total_append, ← hgiven]
      simp [Event.total]
      omega
    · simpa [Event.total, Ledger.hit, Ledger.touch, Ledger.restamp] using hmade
    · simpa [Event.total, Ledger.hit, Ledger.touch, Ledger.restamp] using hevicted
    · simpa [Event.total, Ledger.hit, Ledger.touch, Ledger.restamp] using hresidents
  · intro g
    simpa using A.values g
  · intro g hg
    exact A.gone g (by simpa using hg)

/-- Values leave, for one of two reasons, and those that arrive were made and given. -/
theorem move (A : Accounts c s log) (F : Follows c s l) (F' : Follows c' t l')
    {arrived : List Handle} (harrived : (c'.departed t s).Perm arrived) {kind : Event.Kind}
    (hkind : kind = .evicted ∨ kind = .lost)
    (hcounters : ∀ l l', s.ledger? 0 = some l → t.ledger? 0 = some l' → l'.hits = l.hits ∧
      l'.generations = l.generations + arrived.length ∧
      l'.evictions = l.evictions + if kind = .evicted then (c.departed s t).length else 0)
    (hgone : ∀ h, c.Gone h → c'.Gone h)
    (hlost : kind = .lost → ∀ h ∈ c.departed s t, c'.Gone h) :
    Accounts c' t (log ++ (arrived.map (Event.mk .made) ++
      (c.departed s t).map (Event.mk kind) ++ arrived.map (Event.mk .given))) := by
  refine ⟨?_, ?_, ?_⟩
  · obtain ⟨ledger, hledger, T⟩ := A.tallies
    obtain ⟨known, hknown, -, M⟩ := F.ledger?
    obtain rfl : known = ledger := Option.some.inj (hknown.symm.trans hledger)
    obtain ⟨ledger', hledger', -, M'⟩ := F'.ledger?
    obtain ⟨hhits, hgenerations, hevictions⟩ := hcounters known ledger' hledger hledger'
    obtain ⟨hgiven, hmade, hevicted, hresidents⟩ := T
    have hlength := F.length_departed F'
    rw [harrived.length_eq, ← M.length, ← M'.length] at hlength
    refine ⟨ledger', hledger', ?_⟩
    rcases hkind with rfl | rfl
    · constructor <;> simp at hevictions ⊢ <;> omega
    · constructor <;> simp at hevictions ⊢ <;> omega
  · intro h
    have hleft := F.count_departed t h
    have hcame := F'.count_departed s h
    have hvalues := A.values h
    rw [harrived.count_eq] at hcame
    -- what is at hand on both shelves or on neither cancels out
    have hbalance : (t.value? h).isSome.toNat + (c.departed s t).count h =
        (s.value? h).isSome.toNat + arrived.count h := by
      rw [hleft, hcame]
      cases s.value? h <;> cases t.value? h <;> rfl
    rcases hkind with rfl | rfl
    · simp
      omega
    · simp
      omega
  · intro h hh
    rcases List.mem_append.mp hh with hh | hh
    · exact hgone h (A.gone h hh)
    · rcases hkind with rfl | rfl
      · simp at hh
      · exact hlost rfl h (by simpa using hh)

/-- A value just made is kept. -/
theorem keep (A : Accounts c s log) (hc : c.Single) (F : Follows c s l) {entry : Entry ω V}
    (hentry : c.entry? h = some entry) (hidle : h ∉ l.queue.handles) (value : V) :
    Accounts c (s.keep h entry value).2 (log ++ (⟨.made, h⟩ ::
      (c.departed s (s.keep h entry value).2).map (Event.mk .evicted) ++ [⟨.given, h⟩])) := by
  have hcache : entry.cache = 0 := hc.cache entry (Catalogue.mem_of_entry? hentry)
  have hfits : ∀ ledger, s.ledger? entry.cache = some ledger →
      ledger.residentBytes + entry.size ≤ wordMax := by
    intro ledger hledger
    obtain ⟨known, hknown, -, M⟩ := F.ledger?
    rw [hcache, hknown] at hledger
    obtain rfl := Option.some.inj hledger
    rw [M.bytes]
    exact F.fits hc hentry hidle
  obtain ⟨t, hkeep, F'⟩ := F.keep hc hentry hidle value
  obtain ⟨t', hkeep', D⟩ := (F.tidy hc (by simp [hentry]) hidle).admitted hentry value hfits
  obtain rfl : t = t' := congrArg Prod.snd (hkeep.symm.trans hkeep')
  rw [hkeep]
  have harrived := F.departed_enroll hidle rfl F'
  refine A.move F F' harrived (.inl rfl) ?_ (fun _ => id) nofun
  intro ledger ledger' hledger hledger'
  obtain ⟨known, hknown, hbudget, M⟩ := F.ledger?
  obtain rfl : known = ledger := Option.some.inj (hknown.symm.trans hledger)
  obtain ⟨counted, hcounted, takes⟩ := D.counted known (by rw [hcache, hledger])
  rw [hcache] at hcounted
  obtain rfl : counted = ledger' := Option.some.inj (hcounted.symm.trans hledger')
  have hevictions := (takes.queue _ M).2
  have hlength := F.length_departed F'
  rw [harrived.length_eq, List.length_singleton] at hlength
  dsimp only [Lru.line] at hlength
  rw [hbudget] at hevictions
  refine ⟨takes.hits, takes.generations, ?_⟩
  simp only [if_true]
  omega

/-- **A recipe is counted as its requests are.** -/
theorem run (hc : c.Single) {depth : Nat}
    (hvisit : ∀ h {s : Shelf ω V} {l : Lru ω V} {log : List Event}, Accounts c s log →
      Follows c s l → Idle busy l → Accounts c (c.visit depth busy h s).2
        (log ++ (c.inside depth busy h s ++ Event.ofAnswer h (c.visit depth busy h s).1)))
    (r : Recipe ω V α) (A : Accounts c s log) (F : Follows c s l) (I : Idle busy l) :
    Accounts c (r.run c (c.visit depth busy) s).2
      (log ++ r.record c (c.visit depth busy) (c.inside depth busy) s) := by
  induction r generalizing s l log with
  | done value => simpa [Recipe.run, Recipe.record] using A
  | stop cause => simpa [Recipe.run, Recipe.record] using A
  | access h next ih =>
    have A' := hvisit h A F I
    obtain ⟨-, F', I'⟩ := agree_ask hc depth h F I
    rw [Recipe.run, Recipe.record, ← List.append_assoc]
    generalize c.visit depth busy h s = x at *
    obtain ⟨answer, s'⟩ := x
    cases answer with
    | ok value => exact ih _ A' F' I'
    | error cause =>
      cases cause with
      | problem cause => exact ih _ A' F' I'
      | fault cause => simpa using A'
  | lower h next ih =>
    refine ih (A.demote hc h) (F.demote hc.cache h) (I.move ?_)
    split
    · exact Queue.lower_perm F.handles h
    · exact .refl _
  | inspect h next ih => exact ih _ A F I
  | read next ih => exact ih _ A F I
  | write change next ih =>
    exact ih (s := { s with world := change s.world }) (l := { l with world := change l.world })
      ⟨A.tallies, A.values, A.gone⟩
      ⟨congrArg change F.world, F.slots, F.value, F.known, F.ledger⟩ I

/-- **A request for a value is counted**, however deep recipes ask for others. -/
theorem visit (hc : c.Single) (depth : Nat) (h : Handle) (A : Accounts c s log)
    (F : Follows c s l) (I : Idle busy l) :
    Accounts c (c.visit depth busy h s).2
      (log ++ (c.inside depth busy h s ++ Event.ofAnswer h (c.visit depth busy h s).1)) := by
  induction depth using Nat.strongRecOn generalizing busy h s l log with
  | ind depth ih =>
    unfold Catalogue.visit Catalogue.inside
    cases hentry : c.entry? h with
    | none => simpa [Event.ofAnswer] using A
    | some entry =>
      by_cases hbusy : h ∈ busy
      · simpa [Event.ofAnswer, hbusy] using A
      · simp only [if_neg hbusy]
        cases hvalue : s.value? h with
        | some value =>
          have hcache := hc.cache entry (Catalogue.mem_of_entry? hentry)
          simpa [Event.ofAnswer, hcache] using A.hit h
        | none =>
          cases depth with
          | zero => simpa [Event.ofAnswer] using A
          | succ depth =>
            have hidle : h ∉ l.queue.handles := by
              rw [← F.isSome_iff, hvalue]
              exact Bool.false_ne_true
            have I' : Idle (h :: busy) l := List.forall_mem_cons.mpr ⟨hidle, I⟩
            have A' := run hc (fun other _ _ _ A F I =>
              ih depth (Nat.lt_succ_self depth) other A F I) entry.recipe A F I'
            obtain ⟨-, F', I''⟩ := agree_play hc
              (fun other s l F I => agree_ask hc depth other F I) entry.recipe F I'
            dsimp only
            generalize entry.recipe.run c (fun other => c.visit depth (h :: busy) other) s = x at *
            obtain ⟨answer, t⟩ := x
            cases answer with
            | error cause => simpa [Event.ofAnswer] using A'
            | ok value =>
              have A'' := A'.keep hc F' hentry (I'' h List.mem_cons_self) value
              obtain ⟨u, hkeep, -⟩ := F'.keep hc hentry (I'' h List.mem_cons_self) value
              simpa [Event.ofAnswer, hkeep] using A''

end Accounts

/-! ## Values that are gone -/

namespace Catalogue

variable {c : Catalogue ω V} {h g : Handle}

/-- A dealing in which only living values are referred to once more. -/
def Refers (c : Catalogue ω V) : Dealing ω V → Prop
  | .request (.insert _ _ holds) => ∀ h ∈ holds, (c.entry? h).isSome
  | .request (.retain h) => (c.entry? h).isSome
  | .lend _ h => (c.entry? h).isSome
  | _ => True

/-- A run in which only living values are referred to once more. -/
def Living (c : Catalogue ω V) : List (Dealing ω V) → Prop
  | [] => True
  | dealing :: rest => c.Refers dealing ∧ (c.settle dealing).Living rest

instance decidableRefers (c : Catalogue ω V) :
    (dealing : Dealing ω V) → Decidable (c.Refers dealing)
  | .request (.insert _ _ holds) => inferInstanceAs (Decidable (∀ h ∈ holds, (c.entry? h).isSome))
  | .request (.retain h) => inferInstanceAs (Decidable ((c.entry? h).isSome))
  | .lend _ h => inferInstanceAs (Decidable ((c.entry? h).isSome))
  | .request (.access _) | .request (.demote _) | .request (.release _) | .request .clear
  | .request (.amend _) => isTrue trivial

instance decidableLiving (c : Catalogue ω V) :
    (dealings : List (Dealing ω V)) → Decidable (c.Living dealings)
  | [] => isTrue trivial
  | dealing :: rest =>
    have := decidableLiving (c.settle dealing) rest
    inferInstanceAs (Decidable (c.Refers dealing ∧ (c.settle dealing).Living rest))

theorem Gone.not_alive (G : c.Gone h) : ¬ (c.entry? h).isSome := by
  rw [entry?_isSome_iff, G.2]
  exact Nat.lt_irrefl 0

theorem Gone.ne (G : c.Gone g) (hh : (c.entry? h).isSome) : g ≠ h := by
  rintro rfl
  exact G.not_alive hh

/-- Counting a living value anew leaves those that are gone. -/
theorem Gone.recount (G : c.Gone g) (hh : (c.entry? h).isSome) (change : Nat → Nat) :
    (c.recount h change).Gone g := by
  obtain ⟨entry, hentry⟩ := Option.isSome_iff_exists.mp hh
  refine ⟨by rw [size_recount]; exact G.1, ?_⟩
  rw [references_recount hentry, if_neg (G.ne hh)]
  exact G.2

theorem Gone.hold (G : c.Gone g) (owner h : Handle) : (c.hold owner h).Gone g :=
  ⟨by rw [size_hold]; exact G.1, by rw [references_hold]; exact G.2⟩

theorem Gone.retainAll (G : c.Gone g) {handles : List Handle}
    (hhandles : ∀ h ∈ handles, (c.entry? h).isSome) : (c.retainAll handles).Gone g := by
  induction handles generalizing c with
  | nil => exact G
  | cons h rest ih =>
    obtain ⟨hh, hrest⟩ := List.forall_mem_cons.mp hhandles
    refine ih (G.recount hh _) fun d hd => ?_
    obtain ⟨entry, hentry⟩ := Option.isSome_iff_exists.mp hh
    rw [entry?_isSome_iff, references_recount hentry]
    split
    · exact Nat.succ_pos _
    · exact entry?_isSome_iff.mp (hrest d hd)

theorem Gone.push (G : c.Gone g) (entry : Entry ω V) : Catalogue.Gone (c.push entry) g := by
  refine ⟨by rw [Array.size_push]; exact Nat.lt_succ_of_lt G.1, ?_⟩
  rw [references, Array.getElem?_push_lt G.1, ← Array.getElem?_eq_getElem G.1]
  exact G.2

theorem Gone.releaseWithin (G : c.Gone g) (total : Nat) (handles : List Handle) :
    (c.releaseWithin total handles).Gone g := by
  induction total generalizing c handles with
  | zero => exact G
  | succ total ih =>
    cases handles with
    | nil => exact G
    | cons h rest =>
      rw [Catalogue.releaseWithin]
      cases hentry : c.entry? h with
      | none => exact ih G rest
      | some entry =>
        have halive : (c.entry? h).isSome := by simp [hentry]
        have G' := G.recount halive (· - 1)
        dsimp only
        split
        · exact ih G' _
        · exact ih G' _

/-- **What is gone stays gone**, when only living values are referred to once more. -/
theorem Gone.settle (G : c.Gone g) {dealing : Dealing ω V} (hrefers : c.Refers dealing) :
    (c.settle dealing).Gone g := by
  cases dealing with
  | lend owner h => exact (G.recount hrefers _).hold owner h
  | request request =>
    cases request with
    | insert size recipe holds => exact (G.retainAll hrefers).push _
    | retain h => exact G.recount hrefers _
    | release h => exact G.releaseWithin _ [h]
    | access | demote | clear | amend => exact G

end Catalogue

/-- A value that leaves when references are given up is gone. -/
theorem Lru.Store.gone_of_released {m : Lru.Store ω V} {h : Handle} {total : Nat}
    {handles : List Handle} (hknown : h.index < m.catalogue.size)
    (hin : h ∈ m.lru.queue.handles)
    (hout : h ∉ (m.releaseWithin total handles).lru.queue.handles) :
    (m.releaseWithin total handles).catalogue.Gone h := by
  induction total generalizing m handles with
  | zero => exact absurd hin hout
  | succ total ih =>
    cases handles with
    | nil => exact absurd hin hout
    | cons g rest =>
      rw [releaseWithin] at hout ⊢
      cases hentry : m.catalogue.entry? g with
      | none =>
        simp only [hentry] at hout ⊢
        exact ih hknown hin hout
      | some entry =>
        simp only [hentry] at hout ⊢
        have hknown' : h.index < (m.catalogue.recount g (· - 1)).size := by
          rwa [Catalogue.size_recount]
        by_cases hlast : entry.references = 1
        · simp only [if_pos hlast] at hout ⊢
          by_cases heq : h = g
          · subst heq
            have G : (m.catalogue.recount h (· - 1)).Gone h := by
              refine ⟨hknown', ?_⟩
              rw [Catalogue.references_recount hentry, if_pos rfl, hlast]
            rw [catalogue_releaseWithin]
            exact G.releaseWithin total _
          · refine ih hknown' ?_ hout
            obtain ⟨item, hitem, rfl⟩ := List.mem_map.mp hin
            exact List.mem_map_of_mem (List.mem_filter.mpr ⟨hitem, by simpa using heq⟩)
        · simp only [if_neg hlast] at hout ⊢
          exact ih hknown' hin hout

/-! ## Runs of dealings -/

namespace Store

/-- Giving up references changes no counter. -/
theorem counters_releaseWithin {s : Store ω V} {l : Ledger} (hl : s.ledger? 0 = some l)
    (total : Nat) (handles : List Handle) :
    ∃ l', (s.releaseWithin total handles).ledger? 0 = some l' ∧ l'.hits = l.hits ∧
      l'.generations = l.generations ∧ l'.evictions = l.evictions := by
  apply releaseWithin_induction (P := fun t => ∃ l', t.ledger? 0 = some l' ∧ l'.hits = l.hits ∧
    l'.generations = l.generations ∧ l'.evictions = l.evictions)
  · exact fun _ _ _ ht => ht
  · rintro t h entry - ⟨l', hl', hhits, hgenerations, hevictions⟩
    have hsame : t.shelf.ledger? 0 = some l' := hl'
    by_cases hcache : entry.cache = 0
    · refine ⟨l'.forget h, ?_, ?_, ?_, ?_⟩
      · simp only [ledger?, Shelf.ledger?_account, Shelf.ledger?_setValue, hcache, if_true, hsame,
          Option.map_some]
      · rw [← hhits, Ledger.forget]
        split <;> rfl
      · rw [← hgenerations, Ledger.forget]
        split <;> rfl
      · rw [← hevictions, Ledger.evictions_forget]
    · refine ⟨l', ?_, hhits, hgenerations, hevictions⟩
      simp only [ledger?, Shelf.ledger?_account, Shelf.ledger?_setValue, if_neg hcache, hsame]
  · exact ⟨l, hl, rfl, rfl, rfl⟩

end Store

namespace Accounts

variable {s : Store ω V} {m : Lru.Store ω V} {bytes : Nat} {log : List Event}

/-- The cache is cleared. -/
theorem clear (A : Accounts s.catalogue s.shelf log) (F : s.Follows m bytes) :
    Accounts s.catalogue (s.clear 0).shelf (log ++ s.record (.request .clear)) := by
  have F' := F.clear
  have hcatalogue : (s.clear 0).catalogue = s.catalogue := F'.catalogue.trans F.catalogue.symm
  have hshelf : Follows s.catalogue (s.clear 0).shelf (m.serve .clear).lru :=
    hcatalogue ▸ F'.shelf
  have harrived : s.catalogue.departed (s.clear 0).shelf s.shelf = [] := by
    apply List.eq_nil_iff_forall_not_mem.mpr
    intro h hh
    exact List.not_mem_nil ((hshelf.mem_departed F.shelf).mp hh).1
  rw [← List.append_nil (s.record _)]
  refine A.move F.shelf hshelf (.of_eq harrived) (.inl rfl) ?_ (fun _ => id) nofun
  intro l l' hl hl'
  obtain ⟨known, hknown, -, M⟩ := F.shelf.ledger?
  obtain rfl : known = l := Option.some.inj (hknown.symm.trans hl)
  have hcleared : (s.clear 0).shelf.ledger? 0 = some known.clear := by
    have hsame : s.ledger? 0 = some known := hl
    rw [Store.clear, hsame]
    simp only [Shelf.ledger?_account, Shelf.ledger?_evict, if_true, hl, Option.map_some]
  obtain rfl : known.clear = l' := Option.some.inj (hcleared.symm.trans hl')
  have hlength := F.shelf.length_departed hshelf
  rw [harrived] at hlength
  refine ⟨rfl, rfl, ?_⟩
  have hempty : (m.serve .clear).lru.queue.length = 0 := rfl
  simp only [Ledger.clear, if_true, M.length]
  rw [hempty, List.length_nil] at hlength
  omega

/-- A reference is given up. -/
theorem release (A : Accounts s.catalogue s.shelf log) (F : s.Follows m bytes) (h : Handle) :
    Accounts (s.release [h]).catalogue (s.release [h]).shelf
      (log ++ s.record (.request (.release h))) := by
  have F' := F.release h
  have harrived : (s.release [h]).catalogue.departed (s.release [h]).shelf s.shelf = [] := by
    apply List.eq_nil_iff_forall_not_mem.mpr
    intro g hg
    obtain ⟨hin, hout⟩ := (F'.shelf.mem_departed F.shelf).mp hg
    obtain ⟨item, hitem, rfl⟩ := List.mem_map.mp hin
    exact hout (List.mem_map_of_mem (Lru.Store.mem_queue_releaseWithin hitem))
  have hsettle : (s.release [h]).catalogue = s.catalogue.settle (.request (.release h)) := by
    rw [F'.catalogue, F.catalogue]
    exact m.catalogue_deal (.request (.release h))
  rw [← List.append_nil (s.record _)]
  refine A.move F.shelf F'.shelf (.of_eq harrived) (.inr rfl) ?_ ?_ ?_
  · intro l l' hl hl'
    obtain ⟨known, hknown, hhits, hgenerations, hevictions⟩ := Store.counters_releaseWithin hl
      (s.catalogue.foldl (fun total entry => total + entry.references) 1) [h]
    obtain rfl : known = l' := Option.some.inj (hknown.symm.trans hl')
    exact ⟨hhits, hgenerations, hevictions⟩
  · intro g G
    rw [hsettle]
    exact G.settle trivial
  · intro _ g hg
    obtain ⟨hin, hout⟩ := (F.shelf.mem_departed F'.shelf).mp hg
    have hknown : g.index < m.catalogue.size := by
      have hmem := F.shelf.mem_handles hin
      rw [Catalogue.handles, F.catalogue] at hmem
      obtain ⟨i, hi, rfl⟩ := List.mem_map.mp hmem
      exact List.mem_range.mp hi
    rw [F'.catalogue]
    exact Lru.Store.gone_of_released hknown hin hout

/-- **A dealing is counted.** -/
theorem deal (A : Accounts s.catalogue s.shelf log) (F : s.Follows m bytes) {dealing : Dealing ω V}
    (hrefers : s.catalogue.Refers dealing) (hroom : bytes + dealing.size ≤ wordMax) :
    Accounts (s.deal dealing).catalogue (s.deal dealing).shelf (log ++ s.record dealing) := by
  have F' := F.deal dealing hroom
  have hgone : ∀ g, s.catalogue.Gone g → (s.deal dealing).catalogue.Gone g := by
    intro g G
    rw [F'.catalogue, m.catalogue_deal, ← F.catalogue]
    exact G.settle hrefers
  cases dealing with
  | lend owner h =>
    simp only [Store.record, List.append_nil]
    exact ⟨A.tallies, A.values, fun g hg => hgone g (A.gone g hg)⟩
  | request request =>
    cases request with
    | insert size recipe holds =>
      have hvalue : ∀ g, (s.insert 0 size recipe holds).2.shelf.value? g = s.shelf.value? g :=
        fun g => (F'.shelf.value g).trans (F.shelf.value g).symm
      have hledger : (s.insert 0 size recipe holds).2.shelf.ledger? 0 = s.shelf.ledger? 0 := by
        rw [Store.insert, Store.shelf_retain_all]
        rfl
      simp only [Store.record, List.append_nil]
      refine ⟨?_, ?_, fun g hg => hgone g (A.gone g hg)⟩
      · obtain ⟨l, hl, T⟩ := A.tallies
        exact ⟨l, hledger.trans hl, T⟩
      · intro g
        rw [← A.values g, ← hvalue g]
        rfl
    | access h =>
      exact run F.single (fun other _ _ _ A F' I => A.visit F.single _ other F' I) (.fetch h) A
        F.shelf (List.forall_mem_nil _)
    | demote h =>
      simp only [Store.record, List.append_nil]
      exact A.demote F.single h
    | retain h =>
      simp only [Store.record, List.append_nil]
      exact ⟨A.tallies, A.values, fun g hg => hgone g (A.gone g hg)⟩
    | release h => exact A.release F h
    | clear =>
      have hcatalogue : (s.clear 0).catalogue = s.catalogue :=
        F'.catalogue.trans F.catalogue.symm
      have A' := A.clear F
      rw [← hcatalogue] at A'
      exact A'
    | amend change =>
      simp only [Store.record, List.append_nil]
      exact ⟨A.tallies, A.values, A.gone⟩

/-- A run of dealings is counted. -/
theorem deal_all (A : Accounts s.catalogue s.shelf log) (F : s.Follows m bytes)
    {dealings : List (Dealing ω V)} (hliving : s.catalogue.Living dealings)
    (hroom : bytes + (dealings.map (·.size)).sum ≤ wordMax) :
    Accounts (dealings.foldl Store.deal s).catalogue (dealings.foldl Store.deal s).shelf
      (log ++ s.history dealings) := by
  induction dealings generalizing s m bytes log with
  | nil => simpa [Store.history] using A
  | cons dealing rest ih =>
    obtain ⟨hrefers, hrest⟩ := hliving
    rw [List.map_cons, List.sum_cons, ← Nat.add_assoc] at hroom
    have F' := F.deal dealing (by omega)
    rw [Store.history, ← List.append_assoc]
    refine ih (A.deal F hrefers (by omega)) F' ?_ hroom
    rwa [F'.catalogue, m.catalogue_deal, ← F.catalogue]

end Accounts

namespace Store

/-- The events of a run of dealings with a cache. -/
def chronicle (budget : Nat) (world : ω) (dealings : List (Dealing ω V)) : List Event :=
  ((Store.empty world).newCache budget).2.history dealings

/-- **The counters of a cache are conserved.**  After any run of dealings in which only living
values are referred to once more, and whose declared sizes fit a machine word together, the hits and
the generations are the requests that were given a value, by the user or by a recipe; the
generations are the values at hand, the evictions, and the values that were at hand when their last
reference was given up; and a living value was made as often as it was evicted, and once more if it
is at hand. -/
theorem counters_conserved (budget : Nat) (world : ω) {dealings : List (Dealing ω V)}
    (hliving : Catalogue.Living #[] dealings) (hfits : (dealings.map (·.size)).sum ≤ wordMax) :
    ∃ l, (afterDealings budget world dealings).ledger? 0 = some l ∧
      l.hits + l.generations = Event.total .given (chronicle budget world dealings) ∧
      l.generations = l.residents.length + l.evictions +
        Event.total .lost (chronicle budget world dealings) ∧
      l.generations = Event.total .made (chronicle budget world dealings) ∧
      l.evictions = Event.total .evicted (chronicle budget world dealings) ∧
      ∀ h, (afterDealings budget world dealings).status h ≠ .gone →
        (chronicle budget world dealings).count ⟨.made, h⟩ =
          (chronicle budget world dealings).count ⟨.evicted, h⟩ +
            if (afterDealings budget world dealings).status h = .resident then 1 else 0 := by
  have A : Accounts (afterDealings budget world dealings).catalogue
      (afterDealings budget world dealings).shelf ([] ++ chronicle budget world dealings) :=
    (Accounts.empty #[] budget world).deal_all (Follows.empty budget world) hliving (by omega)
  rw [List.nil_append] at A
  obtain ⟨l, hl, hgiven, hmade, hevicted, hresidents⟩ := A.tallies
  refine ⟨l, hl, hgiven, by omega, hmade, hevicted, ?_⟩
  intro h halive
  have hvalues := A.values h
  rw [status, Catalogue.status] at halive ⊢
  cases hentry : (afterDealings budget world dealings).catalogue.entry? h with
  | none =>
    rw [hentry] at halive
    exact absurd rfl halive
  | some entry =>
    have hlost : (chronicle budget world dealings).count ⟨.lost, h⟩ = 0 := by
      apply List.count_eq_zero_of_not_mem
      intro hin
      exact (A.gone h hin).not_alive (by simp [hentry])
    rw [hlost] at hvalues
    cases hvalue : (afterDealings budget world dealings).shelf.value? h with
    | none =>
      rw [hvalue] at hvalues
      simpa using hvalues.symm
    | some value =>
      rw [hvalue] at hvalues
      simpa [Nat.add_comm] using hvalues.symm

/-- Two values of which the second asks for the first, one that cannot be made, and one for which
the others leave.  The second is asked for, made anew after it left, and made once more after the
cache was cleared, before the user parts with it and it takes the first along. -/
def household : List (Dealing Unit Nat) :=
  [.request (.insert 3 (.done 1) []), .request (.insert 4 (following ⟨0⟩) [⟨0⟩]),
    .request (.insert 2 (.stop (.fault .brokenRecipe)) []), .request (.insert 5 (.done 7) []),
    .request (.access ⟨1⟩), .request (.access ⟨1⟩), .request (.access ⟨2⟩),
    .request (.access ⟨3⟩), .request (.access ⟨1⟩), .request (.demote ⟨1⟩),
    .request (.retain ⟨3⟩), .request (.release ⟨3⟩), .request .clear, .request (.access ⟨1⟩),
    .request (.release ⟨0⟩), .request (.release ⟨1⟩), .request (.access ⟨3⟩)]

theorem living_household : Catalogue.Living #[] household := by decide +kernel

theorem counters_conserved_household :
    Catalogue.Living #[] household ∧ (household.map (·.size)).sum ≤ wordMax ∧
      ∃ l, (afterDealings 8 () household).ledger? 0 = some l ∧ l.hits + l.generations = 9 ∧
        l.generations = l.residents.length + l.evictions + 2 ∧ l.evictions = 5 ∧
        (chronicle 8 () household).count ⟨.made, ⟨3⟩⟩ = 2 := by
  have hfits : (household.map (·.size)).sum ≤ wordMax := by decide
  obtain ⟨l, hl, hgiven, hmade, -, hevicted, hvalues⟩ :=
    counters_conserved 8 () living_household hfits
  have htotals : Event.total .given (chronicle 8 () household) = 9 ∧
      Event.total .lost (chronicle 8 () household) = 2 ∧
      Event.total .evicted (chronicle 8 () household) = 5 := by decide +kernel
  obtain ⟨hnine, htwo, hfive⟩ := htotals
  have hstatus : (afterDealings 8 () household).status ⟨3⟩ = .resident := by decide +kernel
  have hthree := hvalues ⟨3⟩ (by rw [hstatus]; decide)
  have hout : (chronicle 8 () household).count ⟨.evicted, ⟨3⟩⟩ = 1 := by decide +kernel
  rw [hstatus, hout] at hthree
  exact ⟨living_household, hfits, l, hl, hgiven.trans hnine, htwo ▸ hmade, hevicted.trans hfive,
    hthree⟩

end Store

end Patchwork.Cache
