import Patchwork.Proofs.Cache.Refinement

/-!
# Runs of requests

A user of a cache registers values, asks for them, demotes them, refers to them and lets go of them,
and clears the cache, in any order.  After any such run the store counts what the queue of the same
run holds.

## Main definitions

* `Store.serve` — serve a request with one cache.
* `Store.Follows` — a store and a queue hold the same.

## Main statements

* `Store.Follows.serve` — a request keeps this.
* `Store.serve_queue` — a run from the empty cache.
-/

namespace Patchwork.Cache

variable {ω V : Type}

/-! ## Counting references -/

namespace Catalogue

variable {c : Catalogue ω V}

@[simp] theorem size_recount (c : Catalogue ω V) (h : Handle) (change : Nat → Nat) :
    (c.recount h change).size = c.size := Array.size_modify

/-- Counting references changes nothing else. -/
theorem map_recount {α : Type} (c : Catalogue ω V) (h : Handle) (change : Nat → Nat)
    (part : Entry ω V → α) (hpart : ∀ e n, part { e with references := n } = part e) :
    (c.recount h change).toList.map part = c.toList.map part := by
  apply List.ext_getElem?
  intro i
  rw [List.getElem?_map, List.getElem?_map, Catalogue.recount, Array.toList_modify,
    List.getElem?_modify]
  cases c.toList[i]? with
  | none => rfl
  | some e =>
    by_cases heq : h.index = i
    · simp [heq, hpart]
    · simp [heq]

/-- Somebody refers to a value that is asked for. -/
theorem references_pos {h : Handle} {entry : Entry ω V} (hentry : c.entry? h = some entry) :
    0 < entry.references := by
  simpa using (Option.filter_eq_some_iff.mp hentry).2

/-- A value with several references stays when one is given up. -/
theorem stays_of_shared {h : Handle} {entry other : Entry ω V} (hentry : c.entry? h = some entry)
    (hshared : entry.references ≠ 1) (hother : c.entry? h = some other) :
    0 < other.references - 1 := by
  obtain rfl : entry = other := Option.some.inj (hentry.symm.trans hother)
  exact Nat.sub_pos_of_lt (Nat.lt_of_le_of_ne (references_pos hentry) (Ne.symm hshared))

theorem entry?_recount_ne {h g : Handle} (hne : g ≠ h) (change : Nat → Nat) :
    Catalogue.entry? (c.recount h change) g = c.entry? g := by
  have hindex : h.index ≠ g.index := fun heq => hne (congrArg Handle.mk heq.symm)
  rw [Catalogue.entry?, Catalogue.recount, Array.getElem?_modify, if_neg hindex, Catalogue.entry?]

theorem entry?_recount_self {h : Handle} {entry : Entry ω V} (hentry : c.entry? h = some entry)
    {change : Nat → Nat} (hpos : 0 < change entry.references) :
    Catalogue.entry? (c.recount h change) h =
      some { entry with references := change entry.references } := by
  rw [Catalogue.entry?, Option.filter_eq_some_iff] at hentry ⊢
  rw [Catalogue.recount, Array.getElem?_modify, if_pos rfl, hentry.1]
  exact ⟨rfl, by simpa using hpos⟩

theorem Single.recount (hc : c.Single) (h : Handle) (change : Nat → Nat) :
    (c.recount h change).Single := by
  have hcaches := map_recount c h change (·.cache) fun _ _ => rfl
  have hsizes := map_recount c h change (·.size) fun _ _ => rfl
  refine ⟨?_, by rw [hsizes]; exact hc.fits⟩
  intro entry hentry
  have hmem := List.mem_map_of_mem (f := (·.cache)) (Array.mem_toList_iff.mpr hentry)
  rw [hcaches] at hmem
  obtain ⟨other, hother, heq⟩ := List.mem_map.mp hmem
  exact heq ▸ hc.cache other (Array.mem_toList_iff.mp hother)

end Catalogue

/-- Counting references leaves what is at hand, as long as somebody refers to it. -/
theorem Follows.recount {c : Catalogue ω V} {s : Shelf ω V} {l : Lru ω V} (F : Follows c s l)
    {h : Handle} {change : Nat → Nat}
    (hstays : h ∈ l.queue.handles → ∀ entry, c.entry? h = some entry →
      0 < change entry.references) :
    Follows (c.recount h change) s l := by
  refine ⟨F.world, F.slots.trans (c.size_recount h change).symm, F.value, ?_, F.ledger⟩
  intro item hitem
  obtain ⟨entry, hentry, hsize⟩ := F.known item hitem
  by_cases heq : item.handle = h
  · subst heq
    have hpos := hstays (List.mem_map_of_mem hitem) entry hentry
    exact ⟨_, Catalogue.entry?_recount_self hentry hpos, hsize⟩
  · exact ⟨entry, (Catalogue.entry?_recount_ne heq change).trans hentry, hsize⟩

/-- A value registered last is not at hand. -/
theorem Follows.push {c : Catalogue ω V} {s : Shelf ω V} {l : Lru ω V} (F : Follows c s l)
    (entry : Entry ω V) :
    Follows (c.push entry) { s with values := s.values.push none } l := by
  refine ⟨F.world, by simp [F.slots], ?_, ?_, F.ledger⟩
  · intro h
    rw [← F.value h, Shelf.value?, Shelf.value?, Array.getElem?_push]
    by_cases heq : h.index = s.values.size
    · simp [heq]
    · rw [if_neg heq]
  · intro item hitem
    obtain ⟨known, hknown, hsize⟩ := F.known item hitem
    refine ⟨known, ?_, hsize⟩
    rw [Catalogue.entry?, Option.filter_eq_some_iff] at hknown ⊢
    have hin := (Array.getElem?_eq_some_iff.mp hknown.1).1
    rw [Array.getElem?_push_lt hin]
    exact ⟨Array.getElem?_eq_getElem hin ▸ hknown.1, hknown.2⟩

/-- Nothing is at hand after everything is taken off. -/
theorem Follows.clear {c : Catalogue ω V} {s : Shelf ω V} {l : Lru ω V} (F : Follows c s l)
    {ledger : Ledger} (hledger : s.ledger? 0 = some ledger) :
    Follows c ((s.evict (ledger.residents.map (·.handle))).account 0 Ledger.clear)
      (l.line fun _ => []) := by
  obtain ⟨known, hledgers, hbudget, M⟩ := F.ledger
  obtain rfl : known = ledger := by
    rw [Shelf.ledger?, hledgers] at hledger
    exact Option.some.inj hledger
  refine ⟨(Shelf.world_evict _ _).trans F.world, by simpa using F.slots, ?_,
    List.forall_mem_nil _, known.clear, ?_, hbudget, M.clear⟩
  · intro h
    rw [Shelf.value?_account, Shelf.value?_evict]
    by_cases hh : h ∈ l.queue.handles
    · rw [if_pos (M.mem_iff.mpr hh)]
      rfl
    · rw [if_neg (mt M.mem_iff.mp hh), F.value h, Queue.item?_eq_none_iff.mpr hh]
      rfl
  · simp [Shelf.account, hledgers]

/-- A value that nobody refers to any more leaves. -/
theorem Follows.drop {c : Catalogue ω V} {s : Shelf ω V} {l : Lru ω V} (F : Follows c s l)
    (h : Handle) (change : Nat → Nat) :
    Follows (c.recount h change) ((s.setValue h none).account 0 (·.forget h))
      (l.line (·.remove h)) := by
  have hvalue : ∀ g, (s.setValue h none).value? g = ((l.queue.remove h).item? g).map (·.value) := by
    intro g
    rw [Shelf.value?_setValue_none, F.value g, Queue.item?_remove]
    split <;> rfl
  obtain ⟨ledger, hledgers, hbudget, M⟩ := F.ledger
  refine ⟨F.world, by simpa using F.slots, hvalue, ?_, ledger.forget h, ?_, ?_, M.forget h⟩
  · intro item hitem
    obtain ⟨hitem, hne⟩ := List.mem_filter.mp hitem
    obtain ⟨entry, hentry, hsize⟩ := F.known item hitem
    exact ⟨entry, (Catalogue.entry?_recount_ne (by simpa using hne) change).trans hentry, hsize⟩
  · simp [Shelf.account, hledgers]
  · refine Eq.trans ?_ hbudget
    rw [Ledger.forget]
    split <;> rfl

/-! ## Requests -/

namespace Store

/-- Serve a request with the first cache. -/
def serve (s : Store ω V) : Request ω V → Store ω V
  | .insert size recipe holds => (s.insert 0 size recipe holds).2
  | .access h => (s.access h).2
  | .demote h => s.demote h
  | .retain h => s.retain h
  | .release h => s.release [h]
  | .clear => s.clear 0
  | .amend change => s.amend change

/-- Asking for a value changes the shelf. -/
theorem access_eq (s : Store ω V) (h : Handle) :
    s.access h = ((s.catalogue.visit s.catalogue.size [] h s.shelf).1,
      { s with shelf := (s.catalogue.visit s.catalogue.size [] h s.shelf).2 }) := by
  rw [Store.access, Store.perform, Recipe.fetch, Recipe.run]
  generalize s.catalogue.visit s.catalogue.size [] h s.shelf = x
  rcases x with ⟨(⟨⟨cause⟩⟩ | value), shelf⟩ <;> rfl

/-- A store and a queue hold the same, and the declared sizes add up to `bytes`. -/
structure Follows (s : Store ω V) (m : Lru.Store ω V) (bytes : Nat) : Prop where
  /-- The same values are registered. -/
  catalogue : s.catalogue = m.catalogue
  /-- They belong to the first cache. -/
  single : s.catalogue.Single
  /-- The sizes declared so far. -/
  bytes : (s.catalogue.toList.map (·.size)).sum = bytes
  /-- The same values are at hand. -/
  shelf : Cache.Follows s.catalogue s.shelf m.lru

namespace Follows

variable {s : Store ω V} {m : Lru.Store ω V} {bytes : Nat}

theorem empty (budget : Nat) (world : ω) :
    ((Store.empty world : Store ω V).newCache budget).2.Follows (.empty budget world) 0 := by
  refine ⟨rfl, ⟨by simp [newCache, Store.empty], by simp [newCache, Store.empty]⟩, rfl, ?_⟩
  refine ⟨rfl, rfl, ?_, by simp [Lru.Store.empty], .empty budget, rfl, rfl, .empty budget⟩
  intro h
  simp [Shelf.value?, newCache, Store.empty, Lru.Store.empty, Queue.item?]

/-- Asking for a value gives the answer of the queue. -/
theorem access (F : s.Follows m bytes) (h : Handle) :
    (s.access h).1 = (m.catalogue.ask m.catalogue.size [] h m.lru).1 ∧
      (s.access h).2.Follows (m.serve (.access h)) bytes := by
  have hidle : Idle [] m.lru := List.forall_mem_nil _
  obtain ⟨hanswer, F', -⟩ := agree_ask F.single s.catalogue.size h F.shelf hidle
  rw [s.access_eq h, ← F.catalogue]
  refine ⟨hanswer, F.catalogue, F.single, F.bytes, ?_⟩
  simpa only [Lru.Store.serve, ← F.catalogue] using F'

theorem demote (F : s.Follows m bytes) (h : Handle) :
    (s.demote h).Follows (m.serve (.demote h)) bytes := by
  refine ⟨F.catalogue, F.single, F.bytes, ?_⟩
  rw [Lru.Store.serve, ← F.catalogue]
  exact F.shelf.demote F.single.cache h

/-- Counting references leaves what is at hand, as long as somebody refers to it. -/
theorem recount (F : s.Follows m bytes) {h : Handle} (change : Nat → Nat)
    (hstays : h ∈ m.lru.queue.handles →
      ∀ entry, s.catalogue.entry? h = some entry → 0 < change entry.references) :
    Store.Follows { s with catalogue := s.catalogue.recount h change }
      { m with catalogue := m.catalogue.recount h change } bytes := by
  refine ⟨congrArg (Catalogue.recount · h change) F.catalogue, F.single.recount h change, ?_,
    F.shelf.recount hstays⟩
  rw [Catalogue.map_recount _ _ _ (·.size) fun _ _ => rfl]
  exact F.bytes

/-- A value that nobody refers to any more leaves. -/
theorem drop (F : s.Follows m bytes) (h : Handle) (change : Nat → Nat) :
    Store.Follows ⟨s.catalogue.recount h change,
        (s.shelf.setValue h none).account 0 (·.forget h)⟩
      ⟨m.catalogue.recount h change, m.lru.line (·.remove h)⟩ bytes := by
  refine ⟨congrArg (Catalogue.recount · h change) F.catalogue, F.single.recount h change, ?_,
    F.shelf.drop h change⟩
  rw [Catalogue.map_recount _ _ _ (·.size) fun _ _ => rfl]
  exact F.bytes

theorem retain (F : s.Follows m bytes) (h : Handle) :
    (s.retain h).Follows { m with catalogue := m.catalogue.recount h (· + 1) } bytes :=
  F.recount _ fun _ entry _ => Nat.succ_pos entry.references

theorem retain_all (F : s.Follows m bytes) (handles : List Handle) :
    (handles.foldl Store.retain s).Follows
      { m with catalogue := handles.foldl (fun c h => c.recount h (· + 1)) m.catalogue } bytes := by
  induction handles generalizing s m with
  | nil => exact F
  | cons h rest ih => exact ih (F.retain h)

theorem insert (F : s.Follows m bytes) (size : Nat) (recipe : Recipe ω V V) (holds : List Handle)
    (hroom : bytes + size ≤ wordMax) :
    (s.insert 0 size recipe holds).2.Follows (m.serve (.insert size recipe holds))
      (bytes + size) := by
  have F' := F.retain_all holds
  have hnumber : (s.catalogue.filter (·.cache == 0)).size = m.catalogue.size := by
    rw [Array.filter_eq_self.mpr fun entry hentry => by simp [F.single.cache entry hentry],
      F.catalogue]
  have hsum : (((holds.foldl Store.retain s).catalogue.push
      ⟨0, m.catalogue.size, size, recipe, holds, 1⟩).toList.map (·.size)).sum = bytes + size := by
    simp [F'.bytes]
  rw [Store.insert, hnumber]
  refine ⟨?_, ⟨?_, ?_⟩, hsum, F'.shelf.push _⟩
  · rw [Lru.Store.serve, F'.catalogue]
  · intro entry hentry
    rcases Array.mem_push.mp hentry with hentry | rfl
    · exact F'.single.cache entry hentry
    · rfl
  · exact hsum ▸ hroom

theorem clear (F : s.Follows m bytes) : (s.clear 0).Follows (m.serve .clear) bytes := by
  obtain ⟨ledger, hledger, -, -⟩ := F.shelf.ledger?
  have hledger' : s.ledger? 0 = some ledger := hledger
  rw [Store.clear, hledger']
  exact ⟨F.catalogue, F.single, F.bytes, F.shelf.clear hledger⟩

theorem amend (F : s.Follows m bytes) (change : ω → ω) :
    (s.amend change).Follows (m.serve (.amend change)) bytes :=
  ⟨F.catalogue, F.single, F.bytes, congrArg change F.shelf.world, F.shelf.slots, F.shelf.value,
    F.shelf.known, F.shelf.ledger⟩

theorem releaseWithin (F : s.Follows m bytes) (total : Nat) (handles : List Handle) :
    (s.releaseWithin total handles).Follows (m.releaseWithin total handles) bytes := by
  induction total generalizing s m handles with
  | zero => exact F
  | succ total ih =>
    cases handles with
    | nil => exact F
    | cons h rest =>
      rw [Store.releaseWithin, Lru.Store.releaseWithin]
      cases hentry : s.catalogue.entry? h with
      | none =>
        simp only [← F.catalogue, hentry]
        exact ih F rest
      | some entry =>
        have hsame : m.catalogue.entry? h = some entry := F.catalogue ▸ hentry
        simp only [hsame]
        by_cases hlast : entry.references = 1
        · simp only [if_pos hlast, F.single.cache entry (Catalogue.mem_of_entry? hentry)]
          exact ih (F.drop h (· - 1)) _
        · simp only [if_neg hlast]
          exact ih (F.recount (· - 1) fun _ _ => Catalogue.stays_of_shared hentry hlast) rest

theorem release (F : s.Follows m bytes) (h : Handle) :
    (s.release [h]).Follows (m.serve (.release h)) bytes := by
  rw [Store.release, Lru.Store.serve, F.catalogue]
  exact F.releaseWithin _ [h]

/-- **A request keeps the store and the queue together.** -/
theorem serve (F : s.Follows m bytes) (request : Request ω V)
    (hroom : bytes + request.size ≤ wordMax) :
    (s.serve request).Follows (m.serve request) (bytes + request.size) := by
  cases request with
  | insert size recipe holds => exact F.insert size recipe holds hroom
  | access h => exact (F.access h).2
  | demote h => exact F.demote h
  | retain h => exact F.retain h
  | release h => exact F.release h
  | clear => exact F.clear
  | amend change => exact F.amend change

/-- A run of requests keeps them together. -/
theorem serve_all (F : s.Follows m bytes) (requests : List (Request ω V))
    (hroom : bytes + (requests.map (·.size)).sum ≤ wordMax) :
    (requests.foldl Store.serve s).Follows (requests.foldl Lru.Store.serve m)
      (bytes + (requests.map (·.size)).sum) := by
  induction requests generalizing s m bytes with
  | nil => exact F
  | cons request rest ih =>
    rw [List.map_cons, List.sum_cons, ← Nat.add_assoc] at hroom ⊢
    exact ih (F.serve request (by omega)) hroom

end Follows

/-! ## Runs -/

/-- The store after a run of requests to a cache with a budget. -/
def after (budget : Nat) (world : ω) (requests : List (Request ω V)) : Store ω V :=
  requests.foldl serve ((Store.empty world).newCache budget).2

/-- The handles of the values at hand. -/
def residents (s : Store ω V) : List Handle := s.catalogue.handles.filter (s.status · = .resident)

namespace Follows

variable {s : Store ω V} {m : Lru.Store ω V} {bytes : Nat}

/-- A value is at hand when it is in the queue. -/
theorem status_iff (F : s.Follows m bytes) (h : Handle) :
    s.status h = .resident ↔ h ∈ m.lru.queue.handles :=
  F.shelf.status_iff h

/-- The values at hand are those of the queue. -/
theorem residents_perm (F : s.Follows m bytes) : s.residents.Perm m.lru.queue.handles :=
  F.shelf.residents_perm

end Follows

/-- **A cache is a queue.**  After any run of requests whose declared sizes fit a machine word
together, the ledger counts the bytes and the values of the queue of the same run, in the order of
the queue, the values at hand are those in the queue, and the bytes are the sum of their declared
sizes. -/
theorem after_queue (budget : Nat) (world : ω) (requests : List (Request ω V))
    (hfits : (requests.map (·.size)).sum ≤ wordMax) :
    ∃ ledger, (after budget world requests).ledger? 0 = some ledger ∧
      ledger.residentBytes = (Lru.Store.after budget world requests).lru.queue.total ∧
      ledger.residents.length = (Lru.Store.after budget world requests).lru.queue.length ∧
      ledger.order.map Resident.key =
        (Lru.Store.after budget world requests).lru.queue.map Item.key ∧
      (∀ h, (after budget world requests).status h = .resident ↔
        h ∈ (Lru.Store.after budget world requests).lru.queue.handles) ∧
      (after budget world requests).residents.length = ledger.residents.length ∧
      ledger.residentBytes =
        ((after budget world requests).residents.map
          (after budget world requests).catalogue.sizeOf).sum := by
  have F : (after budget world requests).Follows (Lru.Store.after budget world requests) _ :=
    (Follows.empty budget world).serve_all requests (by omega)
  obtain ⟨ledger, hledger, -, M⟩ := F.shelf.ledger?
  refine ⟨ledger, hledger, M.bytes, M.length, M.order, F.status_iff, ?_, ?_⟩
  · rw [F.residents_perm.length_eq, M.length, Queue.handles, List.length_map]
  · rw [M.bytes, F.shelf.total_eq]
    exact ((F.residents_perm.map _).sum_eq).symm

/-- Two values of which the second asks for the first and demotes it, one that cannot be made and
one for which the others leave. -/
def errands : List (Request Unit Nat) :=
  [.insert 6 (.done 1) [],
    .insert 3 (do
      let first ← Recipe.fetch ⟨0⟩
      Recipe.demote ⟨0⟩
      pure (first + 1)) [⟨0⟩],
    .insert 4 (.stop (.fault .brokenRecipe)) [],
    .insert 5 (.done 7) [],
    .access ⟨1⟩, .access ⟨2⟩, .demote ⟨1⟩, .access ⟨3⟩, .retain ⟨3⟩, .release ⟨3⟩, .access ⟨1⟩]

theorem after_queue_errands :
    (errands.map (·.size)).sum ≤ wordMax ∧
      ∃ ledger, (after 10 () errands).ledger? 0 = some ledger ∧ ledger.residentBytes = 9 ∧
        ledger.order.map Resident.key = [(⟨0⟩, 6), (⟨1⟩, 3)] := by
  have hfits : (errands.map (·.size)).sum ≤ wordMax := by decide
  have hqueue : (Lru.Store.after 10 () errands).lru.queue.map Item.key =
      [(⟨0⟩, 6), (⟨1⟩, 3)] := by decide +kernel
  have htotal : (Lru.Store.after 10 () errands).lru.queue.total = 9 := by decide +kernel
  obtain ⟨ledger, hledger, hbytes, -, horder, -, -⟩ := after_queue 10 () errands hfits
  exact ⟨hfits, ledger, hledger, hbytes.trans htotal, horder.trans hqueue⟩

end Store

end Patchwork.Cache
