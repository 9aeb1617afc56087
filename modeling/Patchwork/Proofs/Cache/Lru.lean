import Mathlib.Algebra.GroupWithZero.Nat
import Mathlib.Data.List.Nodup
import Mathlib.Data.List.Perm.Subperm
import Patchwork.Cache.Store

/-!
# A queue of values at hand

The cache a store is meant to be: one list of values at hand, the first to leave first.  A value
that is used goes to the back, one that is demoted to the front, and one just made joins at the
back, after which the front leaves until the budget is kept.  There are no stamps, no running total
and no slots.

A recipe runs on a queue as it does on a shelf, and requests are served in the same way; only what
a step does to the values at hand is said differently.

## Main definitions

* `Item`, `Queue` — the values at hand.
* `Queue.hit`, `Queue.lower`, `Queue.remove`, `Queue.enroll` — what happens to them.
* `Recipe.play`, `Catalogue.ask` — running a recipe, asking for a value.
* `Lru.Store`, `Request`, `Lru.Store.serve` — the requests of a user.
-/

namespace Patchwork.Cache

/-! ## Entries by handle -/

/-- Looking up by a handle that no two entries share. -/
theorem find?_eq_some_iff {α : Type} {key : α → Handle} {entries : List α}
    (hkeys : (entries.map key).Nodup) {h : Handle} {a : α} :
    entries.find? (key · = h) = some a ↔ a ∈ entries ∧ key a = h := by
  constructor
  · intro hfind
    exact ⟨List.mem_of_find?_eq_some hfind, by simpa using List.find?_some hfind⟩
  · rintro ⟨ha, rfl⟩
    obtain ⟨b, hb⟩ : ∃ b, entries.find? (key · = key a) = some b := by
      rw [← Option.isSome_iff_exists, List.find?_isSome]
      exact ⟨a, ha, by simp⟩
    have hsame : key b = key a := by simpa using List.find?_some hb
    rw [hb, List.inj_on_of_nodup_map hkeys (List.mem_of_find?_eq_some hb) ha hsame]

/-- Looking up by a handle does not depend on the order. -/
theorem find?_eq_of_perm {α : Type} {key : α → Handle} {entries others : List α}
    (hkeys : (entries.map key).Nodup) (hperm : entries.Perm others) (h : Handle) :
    entries.find? (key · = h) = others.find? (key · = h) := by
  have hothers : (others.map key).Nodup := (hperm.map key).nodup_iff.mp hkeys
  apply Option.ext
  intro a
  rw [find?_eq_some_iff hkeys, find?_eq_some_iff hothers, hperm.mem_iff]

/-- One entry, and those with other handles. -/
theorem perm_cons_filter {α : Type} {key : α → Handle} {entries : List α}
    (hkeys : (entries.map key).Nodup) {a : α} (ha : a ∈ entries) :
    entries.Perm (a :: entries.filter (key · ≠ key a)) := by
  have hnodup : (a :: entries.filter (key · ≠ key a)).Nodup :=
    List.nodup_cons.mpr ⟨by simp, hkeys.of_map.filter _⟩
  apply (List.perm_ext_iff_of_nodup hkeys.of_map hnodup).mpr
  intro b
  constructor
  · intro hb
    by_cases heq : key b = key a
    · rw [List.inj_on_of_nodup_map hkeys hb ha heq]
      exact List.mem_cons_self
    · exact List.mem_cons_of_mem _ (List.mem_filter.mpr ⟨hb, by simpa using heq⟩)
  · intro hb
    rcases List.mem_cons.mp hb with rfl | hb
    · exact ha
    · exact (List.mem_filter.mp hb).1

/-! ## The queue -/

/-- A value at hand. -/
structure Item (V : Type) where
  /-- Which value. -/
  handle : Handle
  /-- Its declared size. -/
  size : Nat
  /-- The value. -/
  value : V

/-- The values at hand, the first to leave first. -/
abbrev Queue (V : Type) := List (Item V)

namespace Queue

variable {V : Type}

/-- The handles in a queue. -/
def handles (q : Queue V) : List Handle := q.map (·.handle)

/-- The sum of the declared sizes. -/
def total (q : Queue V) : Nat := (q.map (·.size)).sum

/-- The item of a handle. -/
def item? (q : Queue V) (h : Handle) : Option (Item V) := q.find? (·.handle = h)

/-- Take a handle out. -/
def remove (q : Queue V) (h : Handle) : Queue V := q.filter (·.handle ≠ h)

/-- Move an item to the back. -/
def hit (q : Queue V) (h : Handle) : Queue V :=
  match q.item? h with
  | none => q
  | some item => q.remove h ++ [item]

/-- Move an item to the front. -/
def lower (q : Queue V) (h : Handle) : Queue V :=
  match q.item? h with
  | none => q
  | some item => item :: q.remove h

/-- Let the front leave until the rest and a newcomer fit the budget. -/
def trim (budget newcomer : Nat) : Queue V → Queue V
  | [] => []
  | item :: rest =>
    if budget < total (item :: rest) + newcomer then trim budget newcomer rest
    else item :: rest

/-- Let a newcomer join at the back. -/
def enroll (budget : Nat) (q : Queue V) (newcomer : Item V) : Queue V :=
  q.trim budget newcomer.size ++ [newcomer]

variable {q : Queue V}

theorem item?_eq_some_iff (hnodup : q.handles.Nodup) {h : Handle} {item : Item V} :
    q.item? h = some item ↔ item ∈ q ∧ item.handle = h :=
  find?_eq_some_iff hnodup

theorem item?_isSome_iff {h : Handle} : (q.item? h).isSome ↔ h ∈ q.handles := by
  simp [Queue.item?, Queue.handles]

theorem item?_eq_none_iff {h : Handle} : q.item? h = none ↔ h ∉ q.handles := by
  rw [← item?_isSome_iff, Option.isSome_iff_ne_none, not_not]

/-- Moving an item keeps the items. -/
theorem hit_perm (hnodup : q.handles.Nodup) (h : Handle) : (q.hit h).Perm q := by
  unfold Queue.hit
  cases hitem : q.item? h with
  | none => exact .refl _
  | some item =>
    obtain ⟨hmem, rfl⟩ := (item?_eq_some_iff hnodup).mp hitem
    exact List.perm_append_comm.trans (perm_cons_filter hnodup hmem).symm

/-- Moving an item keeps the items. -/
theorem lower_perm (hnodup : q.handles.Nodup) (h : Handle) : (q.lower h).Perm q := by
  unfold Queue.lower
  cases hitem : q.item? h with
  | none => exact .refl _
  | some item =>
    obtain ⟨hmem, rfl⟩ := (item?_eq_some_iff hnodup).mp hitem
    exact (perm_cons_filter hnodup hmem).symm

theorem item?_remove (q : Queue V) (h g : Handle) :
    (q.remove h).item? g = if g = h then none else q.item? g := by
  by_cases heq : g = h
  · rw [if_pos heq, item?, List.find?_eq_none]
    intro item hitem
    simpa [heq] using (List.mem_filter.mp hitem).2
  · rw [if_neg heq, item?, remove, List.find?_filter, item?]
    congr 1
    funext item
    by_cases hg : item.handle = g
    · simp [hg, heq]
    · simp [hg]

/-- What stays is the rear. -/
theorem trim_suffix (q : Queue V) (budget newcomer : Nat) : q.trim budget newcomer <:+ q := by
  induction q with
  | nil => exact List.suffix_refl _
  | cons item q ih =>
    rw [Queue.trim]
    split
    · exact ih.trans (List.suffix_cons item q)
    · exact List.suffix_refl _

theorem handles_enroll_subset (budget : Nat) (newcomer : Item V) :
    (q.enroll budget newcomer).handles ⊆ newcomer.handle :: q.handles := by
  intro g hg
  obtain ⟨item, hitem, rfl⟩ := List.mem_map.mp hg
  rcases List.mem_append.mp hitem with hitem | hitem
  · exact List.mem_cons_of_mem _
      (List.mem_map_of_mem ((trim_suffix q budget newcomer.size).subset hitem))
  · rw [List.mem_singleton.mp hitem]
    exact List.mem_cons_self

/-- Who is there after a newcomer joined and others left. -/
theorem item?_enroll {budget : Nat} {newcomer : Item V} {leaving : List Handle}
    (hnodup : q.handles.Nodup) (hnew : newcomer.handle ∉ q.handles)
    (hparts : q.handles = leaving ++ (q.trim budget newcomer.size).handles) (g : Handle) :
    (q.enroll budget newcomer).item? g =
      if g ∈ leaving then none else if g = newcomer.handle then some newcomer else q.item? g := by
  obtain ⟨(gone : Queue V), hgone⟩ := trim_suffix q budget newcomer.size
  have hhandles : gone.handles ++ (q.trim budget newcomer.size).handles = q.handles := by
    rw [Queue.handles, Queue.handles, ← List.map_append, hgone, Queue.handles]
  obtain rfl : gone.handles = leaving := List.append_cancel_right (hhandles.trans hparts)
  have hdisjoint := List.disjoint_of_nodup_append (hparts ▸ hnodup)
  have henroll : (q.enroll budget newcomer).item? g =
      ((q.trim budget newcomer.size).item? g).or (item? [newcomer] g) := List.find?_append
  have hwhole : q.item? g = (gone.item? g).or ((q.trim budget newcomer.size).item? g) := by
    rw [item?, item?, item?, ← List.find?_append, hgone]
  by_cases hout : g ∈ gone.handles
  · have hne : g ∉ handles [newcomer] := by
      intro hin
      obtain rfl : g = newcomer.handle := List.mem_singleton.mp hin
      exact hnew (hparts ▸ List.mem_append_left _ hout)
    rw [if_pos hout, henroll, item?_eq_none_iff.mpr (hdisjoint hout), item?_eq_none_iff.mpr hne]
    rfl
  · rw [if_neg hout]
    by_cases heq : g = newcomer.handle
    · have hstay : g ∉ (q.trim budget newcomer.size).handles := fun hin =>
        hnew (hparts ▸ List.mem_append_right _ (heq ▸ hin))
      rw [if_pos heq, henroll, item?_eq_none_iff.mpr hstay]
      simp [item?, heq]
    · have hne : g ∉ handles [newcomer] := fun hin => heq (List.mem_singleton.mp hin)
      rw [if_neg heq, henroll, hwhole, item?_eq_none_iff.mpr hne, item?_eq_none_iff.mpr hout]
      simp

end Queue

/-! ## Running recipes -/

/-- What a recipe sees of a cache that is a queue. -/
structure Lru (ω V : Type) where
  /-- Largest total size. -/
  budget : Nat
  /-- The values at hand. -/
  queue : Queue V
  /-- The world that recipes see. -/
  world : ω

variable {ω V α : Type}

/-- Change the queue. -/
def Lru.line (l : Lru ω V) (change : Queue V → Queue V) : Lru ω V :=
  { l with queue := change l.queue }

/-- Where a value stands. -/
def Catalogue.standing (c : Catalogue ω V) (l : Lru ω V) (h : Handle) : Status :=
  match c.entry? h with
  | none => .gone
  | some _ => if (l.queue.item? h).isSome then .resident else .idle

/-- Run a recipe on a queue.  `ask` answers its requests for other values. -/
def Recipe.play (c : Catalogue ω V) (ask : Handle → Lru ω V → Outcome V × Lru ω V) :
    Recipe ω V α → Lru ω V → Outcome α × Lru ω V
  | .done value, l => (.ok value, l)
  | .stop cause, l => (.error cause, l)
  | .access h next, l =>
    match ask h l with
    | (.ok value, l) => (next (.ok value)).play c ask l
    | (.error (.problem cause), l) => (next (.error cause)).play c ask l
    | (.error (.fault cause), l) => (.error (.fault cause), l)
  | .lower h next, l =>
    next.play c ask (l.line fun q => if (c.entry? h).isSome then q.lower h else q)
  | .inspect h next, l => (next (c.standing l h)).play c ask l
  | .read next, l => (next l.world).play c ask l
  | .write change next, l => next.play c ask { l with world := change l.world }

/-- Ask for a value while the values `busy` are being made, at most `depth` further ones under way
below it. -/
def Catalogue.ask (c : Catalogue ω V) (depth : Nat) (busy : List Handle) (h : Handle)
    (l : Lru ω V) : Outcome V × Lru ω V :=
  match c.entry? h with
  | none => (.error (.fault .outOfBounds), l)
  | some entry =>
    if h ∈ busy then (.error (.problem (.reentrant entry.number)), l)
    else
      match l.queue.item? h with
      | some item => (.ok item.value, l.line (·.hit h))
      | none =>
        match depth with
        | 0 => (.error (.problem (.reentrant entry.number)), l)
        | depth + 1 =>
          match entry.recipe.play c (fun other => ask c depth (h :: busy) other) l with
          | (.ok value, l) => (.ok value, l.line (·.enroll l.budget ⟨h, entry.size, value⟩))
          | (.error cause, l) => (.error cause, l)

/-- The handles of all registered values. -/
def Catalogue.handles (c : Catalogue ω V) : List Handle := (List.range c.size).map Handle.mk

theorem Catalogue.nodup_handles (c : Catalogue ω V) : c.handles.Nodup :=
  List.Nodup.map (fun _ _ heq => congrArg Handle.index heq) List.nodup_range

/-- A value that somebody refers to is registered. -/
theorem Catalogue.mem_handles {c : Catalogue ω V} {h : Handle} (hknown : (c.entry? h).isSome) :
    h ∈ c.handles := by
  obtain ⟨entry, hentry⟩ := Option.isSome_iff_exists.mp hknown
  rw [Catalogue.entry?, Option.filter_eq_some_iff, Array.getElem?_eq_some_iff] at hentry
  exact List.mem_map.mpr ⟨h.index, List.mem_range.mpr hentry.1.1, rfl⟩

/-- No more values are under way than are registered. -/
theorem Catalogue.length_lt_of_new {c : Catalogue ω V} {busy : List Handle} (hnodup : busy.Nodup)
    (hknown : ∀ b ∈ busy, (c.entry? b).isSome) {h : Handle} (halive : (c.entry? h).isSome)
    (hbusy : h ∉ busy) : busy.length < c.size := by
  have hsub : h :: busy ⊆ c.handles :=
    List.cons_subset.mpr ⟨Catalogue.mem_handles halive, fun b hb =>
      Catalogue.mem_handles (hknown b hb)⟩
  have hmore := (List.Nodup.subperm (List.nodup_cons.mpr ⟨hbusy, hnodup⟩) hsub).length_le
  rwa [Catalogue.handles, List.length_map, List.length_range, List.length_cons] at hmore

/-- Change the number of references to a value. -/
def Catalogue.recount (c : Catalogue ω V) (h : Handle) (change : Nat → Nat) : Catalogue ω V :=
  c.modify h.index fun e => { e with references := change e.references }

/-- Registered values, and a queue of those at hand. -/
structure Lru.Store (ω V : Type) where
  /-- The registered values. -/
  catalogue : Catalogue ω V
  /-- What is at hand. -/
  lru : Lru ω V

/-- What a user of a cache asks for. -/
inductive Request (ω V : Type) where
  /-- Register a value. -/
  | insert (size : Nat) (recipe : Recipe ω V V) (holds : List Handle)
  /-- Ask for a value. -/
  | access (handle : Handle)
  /-- Mark a value as the first to leave. -/
  | demote (handle : Handle)
  /-- Refer to a value once more. -/
  | retain (handle : Handle)
  /-- Give up a reference. -/
  | release (handle : Handle)
  /-- Take all values off. -/
  | clear
  /-- Change the world. -/
  | amend (change : ω → ω)

/-- The size a request declares. -/
def Request.size : Request ω V → Nat
  | .insert size _ _ => size
  | _ => 0

namespace Lru.Store

/-- A queue without values. -/
def empty (budget : Nat) (world : ω) : Lru.Store ω V := ⟨#[], budget, [], world⟩

/-- Give up one reference to each of the handles.  A value that nobody refers to any more leaves the
queue and gives up the references it holds. -/
def releaseWithin (m : Lru.Store ω V) : Nat → List Handle → Lru.Store ω V
  | 0, _ => m
  | _, [] => m
  | total + 1, h :: rest =>
    match m.catalogue.entry? h with
    | none => m.releaseWithin total rest
    | some entry =>
      let catalogue := m.catalogue.recount h (· - 1)
      if entry.references = 1 then
        releaseWithin ⟨catalogue, m.lru.line (·.remove h)⟩ total (entry.holds ++ rest)
      else releaseWithin ⟨catalogue, m.lru⟩ total rest

/-- Serve a request. -/
def serve (m : Lru.Store ω V) : Request ω V → Lru.Store ω V
  | .insert size recipe holds =>
    let catalogue := holds.foldl (fun c h => c.recount h (· + 1)) m.catalogue
    { m with catalogue := catalogue.push ⟨0, m.catalogue.size, size, recipe, holds, 1⟩ }
  | .access h =>
    { m with lru := (m.catalogue.ask m.catalogue.size [] h m.lru).2 }
  | .demote h =>
    { m with lru := m.lru.line fun q => if (m.catalogue.entry? h).isSome then q.lower h else q }
  | .retain h => { m with catalogue := m.catalogue.recount h (· + 1) }
  | .release h =>
    m.releaseWithin (m.catalogue.foldl (fun total entry => total + entry.references) 1) [h]
  | .clear => { m with lru := m.lru.line fun _ => [] }
  | .amend change => { m with lru := { m.lru with world := change m.lru.world } }

/-- The queue after a run of requests. -/
def after (budget : Nat) (world : ω) (requests : List (Request ω V)) : Lru.Store ω V :=
  requests.foldl serve (.empty budget world)

end Lru.Store

end Patchwork.Cache
