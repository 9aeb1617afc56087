import Patchwork.Proofs.Cache.References

/-!
# The states of a store

A store is used from outside and, while values are made, from inside recipes.  `Reached` describes
the states of both kinds: what is registered, which values are being made, the latest first, and
what stands on the shelf.  Nothing is assumed of the recipes, of the declared sizes or of the order
of the operations.

In all these states a ledger lists only values at hand, and no value that is being made is at hand.
Between two states of a run a value leaves the shelf only when its ledger counts an eviction.

## Main definitions

* `Reached` — the states of a store.
* `Tidy` — what holds in all of them.
* `Onward` — what holds between two states of a run.

## Main statements

* `Catalogue.visit_deep` — the depth of a request does not matter once it is large enough.
* `Tidy.visit`, `Tidy.run` — a request, a recipe.
* `Reached.tidy` — all states are tidy.
-/

namespace Patchwork.Cache

variable {ω V α : Type}

/-! ## Registered values -/

namespace Catalogue

/-- The cache that accounts for a value. -/
def cache? (entries : Catalogue ω V) (h : Handle) : Option Nat :=
  (entries[h.index]?).map (·.cache)

theorem cache?_of_alive {c : Catalogue ω V} {h : Handle} {entry : Entry ω V}
    (hentry : c.entry? h = some entry) : c.cache? h = some entry.cache := by
  rw [cache?, getElem?_of_alive hentry, Option.map_some]

@[simp] theorem cache?_recount (c : Catalogue ω V) (h : Handle) (change : Nat → Nat) (g : Handle) :
    Catalogue.cache? (c.recount h change) g = c.cache? g := by
  rw [cache?, cache?, getElem?_recount]
  split
  · rw [Option.map_map]
    rfl
  · rfl

@[simp] theorem cache?_hold (c : Catalogue ω V) (owner h g : Handle) :
    Catalogue.cache? (c.hold owner h) g = c.cache? g := by
  rw [cache?, cache?, Catalogue.hold, Array.getElem?_modify]
  split
  · rw [Option.map_map]
    rfl
  · rfl

@[simp] theorem size_hold (c : Catalogue ω V) (owner h : Handle) : (c.hold owner h).size = c.size :=
  Array.size_modify

/-- A newcomer leaves the others as they are. -/
theorem cache?_push {c : Catalogue ω V} {entry : Entry ω V} {g : Handle} {k : Nat}
    (hcache : c.cache? g = some k) : Catalogue.cache? (c.push entry) g = some k := by
  obtain ⟨known, hknown, rfl⟩ := Option.map_eq_some_iff.mp hcache
  have hin := (Array.getElem?_eq_some_iff.mp hknown).1
  rw [cache?, Array.getElem?_push_lt hin, ← Array.getElem?_eq_getElem hin, hknown,
    Option.map_some]

/-- The depth does not matter once it reaches the registered values: none is under way twice. -/
theorem visit_deep (c : Catalogue ω V) {depth deeper : Nat} {busy : List Handle}
    (hnodup : busy.Nodup) (hknown : ∀ b ∈ busy, (c.entry? b).isSome)
    (hdepth : c.size ≤ depth + busy.length) (hdeeper : depth ≤ deeper) :
    c.visit depth busy = c.visit deeper busy := by
  induction depth generalizing deeper busy with
  | zero =>
    funext h s
    unfold Catalogue.visit
    cases hentry : c.entry? h with
    | none => rfl
    | some entry =>
      by_cases hbusy : h ∈ busy
      · simp only [if_pos hbusy]
      · have hroom := length_lt_of_new hnodup hknown (by simp [hentry]) hbusy
        omega
  | succ depth ih =>
    obtain ⟨deeper, rfl⟩ : ∃ n, deeper = n + 1 := ⟨deeper - 1, by omega⟩
    funext h s
    rw [Catalogue.visit, Catalogue.visit]
    cases hentry : c.entry? h with
    | none => rfl
    | some entry =>
      by_cases hbusy : h ∈ busy
      · simp only [if_pos hbusy]
      · have hsame := ih (List.nodup_cons.mpr ⟨hbusy, hnodup⟩)
          (List.forall_mem_cons.mpr ⟨by simp [hentry], hknown⟩)
          (by rw [List.length_cons]; omega) (Nat.le_of_succ_le_succ hdeeper)
        simp only [hsame]

/-- A value that is neither at hand nor being made is made, in the course of which others are asked
for to the full depth. -/
theorem visit_new {c : Catalogue ω V} {busy : List Handle} {s : Shelf ω V} {h : Handle}
    {entry : Entry ω V} (hnodup : busy.Nodup) (hknown : ∀ b ∈ busy, (c.entry? b).isSome)
    (hentry : c.entry? h = some entry) (hbusy : h ∉ busy) (hnone : s.value? h = none) :
    c.visit c.size busy h s =
      match entry.recipe.run c (c.visit c.size (h :: busy)) s with
      | (.ok value, s) => s.keep h entry value
      | (.error cause, s) => (.error cause, s) := by
  have hroom := length_lt_of_new hnodup hknown (by simp [hentry]) hbusy
  obtain ⟨below, hbelow⟩ : ∃ n, c.size = n + 1 := ⟨c.size - 1, by omega⟩
  have hdeep : c.visit below (h :: busy) = c.visit c.size (h :: busy) := by
    apply c.visit_deep (List.nodup_cons.mpr ⟨hbusy, hnodup⟩)
      (List.forall_mem_cons.mpr ⟨by simp [hentry], hknown⟩)
    · rw [List.length_cons]
      omega
    · omega
  conv_lhs => rw [hbelow, Catalogue.visit]
  rcases hrun : entry.recipe.run c (c.visit c.size (h :: busy)) s with ⟨cause | value, after⟩
  · simp only [hentry, if_neg hbusy, hnone, hdeep, hrun]
  · simp only [hentry, if_neg hbusy, hnone, hdeep, hrun]

end Catalogue

/-! ## Ledgers -/

/-- The values that a ledger lists. -/
def Ledger.handles (l : Ledger) : List Handle := l.residents.map (·.handle)

namespace Ledger

@[simp] theorem handles_restamp (l : Ledger) (h : Handle) (stamp : Int) :
    (l.restamp h stamp).handles = l.handles := by
  rw [handles, handles, restamp, List.map_map]
  apply List.map_congr_left
  intro r _
  by_cases heq : r.handle = h
  · simp [heq]
  · simp [heq]

@[simp] theorem handles_hit (l : Ledger) (h : Handle) : (l.hit h).handles = l.handles :=
  handles_restamp _ h _

@[simp] theorem handles_demote (l : Ledger) (h : Handle) : (l.demote h).handles = l.handles :=
  handles_restamp _ h _

theorem mem_handles_forget {l : Ledger} {h g : Handle} :
    g ∈ (l.forget h).handles ↔ g ∈ l.handles ∧ g ≠ h := by
  rw [forget]
  cases hfind : l.find? h with
  | none =>
    have habsent : ∀ r ∈ l.residents, r.handle ≠ h := fun r hr => by
      simpa using List.find?_eq_none.mp hfind r hr
    refine ⟨fun hg => ⟨hg, ?_⟩, And.left⟩
    rintro rfl
    obtain ⟨r, hr, heq⟩ := List.mem_map.mp hg
    exact habsent r hr heq
  | some r =>
    simp only [handles, List.mem_map, List.mem_filter, decide_eq_true_iff]
    constructor
    · rintro ⟨a, ⟨ha, hne⟩, rfl⟩
      exact ⟨⟨a, ha, rfl⟩, hne⟩
    · rintro ⟨⟨a, ha, rfl⟩, hne⟩
      exact ⟨a, ⟨ha, hne⟩, rfl⟩

theorem find?_isSome_iff {l : Ledger} {h : Handle} : (l.find? h).isSome ↔ h ∈ l.handles := by
  simp [Ledger.find?, Ledger.handles]

theorem find?_eq_none_iff {l : Ledger} {h : Handle} : l.find? h = none ↔ h ∉ l.handles := by
  rw [← find?_isSome_iff, Option.isSome_iff_ne_none, not_not]

/-- Striking off a value that is not listed changes nothing. -/
theorem forget_of_notMem {l : Ledger} {h : Handle} (hnone : h ∉ l.handles) : l.forget h = l := by
  rw [forget, find?_eq_none_iff.mpr hnone]

/-- Those that leave stand at the front of the queue. -/
theorem shed_front (budget total : Nat) (queue : List Resident) :
    (shed budget total queue).1 <+: queue := by
  induction queue generalizing total with
  | nil => exact List.prefix_refl _
  | cons r queue ih =>
    rw [shed]
    split
    · exact (List.prefix_cons_inj r).mpr (ih _)
    · exact List.nil_prefix

theorem handles_enter (l : Ledger) (h : Handle) (size : Nat) :
    (l.enter h size).handles = l.handles ++ [h] := by
  simp [handles, enter]

/-- An enrolment lists the newcomer and nobody else who was not listed. -/
theorem mem_handles_enroll {l : Ledger} {h g : Handle} {size : Nat}
    (hg : g ∈ (l.enroll h size).2.handles) : g = h ∨ g ∈ l.handles := by
  have hentered : g ∈ ((l.forget h).enter h size).handles := by
    rw [enroll] at hg
    dsimp only at hg
    split at hg
    · exact hg
    · obtain ⟨r, hr, rfl⟩ := List.mem_map.mp hg
      exact List.mem_map_of_mem (List.mem_filter.mp hr).1
  rw [handles_enter, List.mem_append, List.mem_singleton] at hentered
  exact hentered.symm.imp_right fun hin => (mem_handles_forget.mp hin).1

@[simp] theorem evictions_forget (l : Ledger) (h : Handle) :
    (l.forget h).evictions = l.evictions := by
  rw [forget]
  split <;> rfl

/-- An enrolment counts those who leave. -/
theorem evictions_enroll (l : Ledger) (h : Handle) (size : Nat) :
    (l.enroll h size).2.evictions =
      l.evictions + ((l.enroll h size).1.getD []).length := by
  rw [enroll]
  dsimp only
  split
  · exact l.evictions_forget h
  · exact congrArg (· + _) (l.evictions_forget h)

/-- Those who leave for a newcomer were listed, and are not any more. -/
theorem leaving_of_enroll (l : Ledger) (h : Handle) (size : Nat) :
    h ∉ (l.enroll h size).1.getD [] ∧ (l.enroll h size).1.getD [] ⊆ l.handles ∧
      ∀ g ∈ (l.enroll h size).2.handles, g ∉ (l.enroll h size).1.getD [] := by
  rw [enroll]
  dsimp only
  split
  · exact ⟨List.not_mem_nil, List.nil_subset _, fun _ _ => List.not_mem_nil⟩
  next hfits =>
    have hlisted : ∀ r ∈ (shed (l.forget h).budget ((l.forget h).residentBytes + size)
        (((l.forget h).enter h size).order.filter (·.handle ≠ h))).1,
        r.handle ≠ h ∧ r.handle ∈ l.handles := by
      intro r hr
      obtain ⟨hr, hne⟩ := List.mem_filter.mp ((shed_front _ _ _).subset hr)
      have hne : r.handle ≠ h := by simpa using hne
      have hin := List.mem_map_of_mem (f := (·.handle)) ((perm_order _).subset hr)
      rw [← handles, handles_enter, List.mem_append, List.mem_singleton] at hin
      exact ⟨hne, (mem_handles_forget.mp (hin.resolve_right hne)).1⟩
    refine ⟨?_, ?_, ?_⟩
    · intro hin
      obtain ⟨r, hr, heq⟩ := List.mem_map.mp hin
      exact (hlisted r hr).1 heq
    · intro g hg
      obtain ⟨r, hr, rfl⟩ := List.mem_map.mp hg
      exact (hlisted r hr).2
    · intro g hg
      obtain ⟨r, hr, rfl⟩ := List.mem_map.mp hg
      simpa using (List.mem_filter.mp hr).2

end Ledger

/-! ## Tidy shelves -/

namespace Shelf

theorem ledger?_account (s : Shelf ω V) (k j : Nat) (change : Ledger → Ledger) :
    (s.account k change).ledger? j =
      if k = j then (s.ledger? j).map change else s.ledger? j := by
  rw [ledger?, ledger?, account, Array.getElem?_modify]
  split
  · cases s.ledgers[j]? <;> rfl
  · rfl

@[simp] theorem ledger?_setValue (s : Shelf ω V) (h : Handle) (value : Option V) (k : Nat) :
    (s.setValue h value).ledger? k = s.ledger? k := rfl

@[simp] theorem ledger?_evict (s : Shelf ω V) (handles : List Handle) (k : Nat) :
    (s.evict handles).ledger? k = s.ledger? k := by
  rw [ledger?, ledgers_evict, ledger?]

end Shelf

/-- The shelf after a value just made was put on it. -/
theorem Shelf.keep_snd (s : Shelf ω V) (h : Handle) (entry : Entry ω V) (value : V) :
    (s.keep h entry value).2 =
      match s.ledger? entry.cache with
      | none => s.setValue h (some value)
      | some ledger =>
        ((s.setValue h (some value)).account entry.cache fun _ =>
          (ledger.generated.enroll h entry.size).2).evict
          ((ledger.generated.enroll h entry.size).1.getD []) := by
  rw [Shelf.keep, Shelf.ledger?_setValue]
  cases s.ledger? entry.cache with
  | none => rfl
  | some ledger =>
    dsimp only
    cases (ledger.generated.enroll h entry.size).1 <;> rfl

/-- What is listed is at hand, and what is being made is not. -/
structure Tidy (c : Catalogue ω V) (busy : List Handle) (s : Shelf ω V) : Prop where
  /-- There is a place for every registered value. -/
  slots : s.values.size = c.size
  /-- No value is under way twice. -/
  nodup : busy.Nodup
  /-- Somebody refers to the values being made. -/
  known : ∀ b ∈ busy, (c.entry? b).isSome
  /-- A value being made is not at hand. -/
  idle : ∀ b ∈ busy, s.value? b = none
  /-- A ledger lists values at hand that belong to its cache. -/
  listed : ∀ k l, s.ledger? k = some l → ∀ g ∈ l.handles,
    (s.value? g).isSome ∧ c.cache? g = some k

/-- Ledgers stay, and a value leaves only for an eviction that its ledger counts. -/
structure Onward (c : Catalogue ω V) (s t : Shelf ω V) : Prop where
  /-- A cache that is gone does not come back. -/
  gone : ∀ k, s.ledger? k = none → t.ledger? k = none
  /-- Evictions add up. -/
  counted : ∀ k l, s.ledger? k = some l →
    ∃ l', t.ledger? k = some l' ∧ l.evictions ≤ l'.evictions
  /-- A value stays what it is, or has been evicted. -/
  values : ∀ g v, s.value? g = some v → t.value? g = some v ∨
    ∃ k l l', c.cache? g = some k ∧ s.ledger? k = some l ∧ t.ledger? k = some l' ∧
      l.evictions < l'.evictions

namespace Onward

variable {c : Catalogue ω V} {s t u : Shelf ω V}

theorem refl (c : Catalogue ω V) (s : Shelf ω V) : Onward c s s :=
  ⟨fun _ => id, fun _ l hl => ⟨l, hl, Nat.le_refl _⟩, fun _ _ => .inl⟩

theorem trans (O : Onward c s t) (O' : Onward c t u) : Onward c s u := by
  refine ⟨fun k hk => O'.gone k (O.gone k hk), ?_, ?_⟩
  · intro k l hl
    obtain ⟨l', hl', hle⟩ := O.counted k l hl
    obtain ⟨l'', hl'', hle'⟩ := O'.counted k l' hl'
    exact ⟨l'', hl'', Nat.le_trans hle hle'⟩
  · intro g v hv
    rcases O.values g v hv with hv' | ⟨k, l, l', hcache, hl, hl', hlt⟩
    · rcases O'.values g v hv' with hv'' | ⟨k, l', l'', hcache, hl', hl'', hlt⟩
      · exact .inl hv''
      · obtain ⟨l, hl⟩ : ∃ l, s.ledger? k = some l := by
          rw [← Option.isSome_iff_exists, Option.isSome_iff_ne_none]
          intro hnone
          rw [O.gone k hnone] at hl'
          cases hl'
        obtain ⟨_, hsame, hle⟩ := O.counted k l hl
        obtain rfl := Option.some.inj (hl'.symm.trans hsame)
        exact .inr ⟨k, l, l'', hcache, hl, hl'', Nat.lt_of_le_of_lt hle hlt⟩
    · obtain ⟨l'', hl'', hle⟩ := O'.counted k l' hl'
      exact .inr ⟨k, l, l'', hcache, hl, hl'', Nat.lt_of_lt_of_le hlt hle⟩

theorem write (change : ω → ω) : Onward c s { s with world := change s.world } :=
  ⟨fun _ => id, fun _ l hl => ⟨l, hl, Nat.le_refl _⟩, fun _ _ => .inl⟩

theorem account (k : Nat) {change : Ledger → Ledger}
    (hchange : ∀ l, l.evictions ≤ (change l).evictions) : Onward c s (s.account k change) := by
  refine ⟨?_, ?_, fun _ _ => .inl⟩
  · intro j hj
    rw [Shelf.ledger?_account, hj]
    split <;> rfl
  · intro j l hl
    rw [Shelf.ledger?_account, hl]
    split
    · exact ⟨change l, rfl, hchange l⟩
    · exact ⟨l, rfl, Nat.le_refl _⟩

end Onward

namespace Tidy

variable {c : Catalogue ω V} {busy : List Handle} {s : Shelf ω V} {h : Handle}

/-- Accounting that lists nobody new. -/
theorem account (T : Tidy c busy s) (k : Nat) {change : Ledger → Ledger}
    (hchange : ∀ l, (change l).handles ⊆ l.handles) : Tidy c busy (s.account k change) := by
  refine ⟨T.slots, T.nodup, T.known, T.idle, ?_⟩
  intro j l' hl' g hg
  rw [Shelf.ledger?_account] at hl'
  split at hl'
  · obtain ⟨l, hl, rfl⟩ := Option.map_eq_some_iff.mp hl'
    exact T.listed j l hl g (hchange l hg)
  · exact T.listed j l' hl' g hg

theorem demote (T : Tidy c busy s) (h : Handle) :
    Tidy c busy (c.demote s h) ∧ Onward c s (c.demote s h) := by
  unfold Catalogue.demote
  split
  · exact ⟨T, .refl c s⟩
  · exact ⟨T.account _ fun l => by simp, .account _ fun _ => Nat.le_refl _⟩

/-- While a value is made, it is one of those under way. -/
theorem start (T : Tidy c busy s) (halive : (c.entry? h).isSome) (hbusy : h ∉ busy)
    (hnone : s.value? h = none) : Tidy c (h :: busy) s :=
  ⟨T.slots, List.nodup_cons.mpr ⟨hbusy, T.nodup⟩, List.forall_mem_cons.mpr ⟨halive, T.known⟩,
    List.forall_mem_cons.mpr ⟨hnone, T.idle⟩, T.listed⟩

/-- Afterwards it is not. -/
theorem finish (T : Tidy c (h :: busy) s) : Tidy c busy s :=
  ⟨T.slots, T.nodup.of_cons, fun b hb => T.known b (List.mem_cons_of_mem h hb),
    fun b hb => T.idle b (List.mem_cons_of_mem h hb), T.listed⟩

/-- A value just made is put on the shelf. -/
theorem place (T : Tidy c (h :: busy) s) (value : V) :
    Tidy c busy (s.setValue h (some value)) ∧ Onward c s (s.setValue h (some value)) := by
  have hslot : h.index < s.values.size := by
    obtain ⟨entry, hentry⟩ := Option.isSome_iff_exists.mp (T.known h List.mem_cons_self)
    exact T.slots ▸ (Array.getElem?_eq_some_iff.mp (Catalogue.getElem?_of_alive hentry)).1
  have hset : ∀ g, (s.setValue h (some value)).value? g =
      if g = h then some value else s.value? g := by
    intro g
    rw [Shelf.value?_setValue]
    simp only [hslot, and_true]
  refine ⟨⟨(s.size_setValue h _).trans T.slots, T.finish.nodup, T.finish.known, ?_, ?_⟩,
    fun _ => id, fun _ l hl => ⟨l, hl, Nat.le_refl _⟩, ?_⟩
  · intro b hb
    have hne : b ≠ h := fun heq => (List.nodup_cons.mp T.nodup).1 (heq ▸ hb)
    rw [hset, if_neg hne]
    exact T.finish.idle b hb
  · intro k l hl g hg
    obtain ⟨hsome, hcache⟩ := T.listed k l hl g hg
    refine ⟨?_, hcache⟩
    rw [hset]
    split
    · rfl
    · exact hsome
  · intro g v hv
    have hne : g ≠ h := by
      rintro rfl
      rw [T.idle g List.mem_cons_self] at hv
      cases hv
    exact .inl (by rw [hset, if_neg hne, hv])

/-- A value on the shelf is listed, and others leave for it. -/
theorem enroll (T : Tidy c busy s) {k : Nat} {ledger enrolled : Ledger} {leaving : List Handle}
    (hvalue : (s.value? h).isSome) (hcache : c.cache? h = some k)
    (hledger : s.ledger? k = some ledger)
    (hlisted : ∀ g ∈ enrolled.handles, g = h ∨ g ∈ ledger.handles)
    (hleave : leaving ⊆ ledger.handles) (hstay : ∀ g ∈ enrolled.handles, g ∉ leaving)
    (hcount : enrolled.evictions = ledger.evictions + leaving.length) :
    Tidy c busy ((s.account k fun _ => enrolled).evict leaving) ∧
      Onward c s ((s.account k fun _ => enrolled).evict leaving) := by
  have hafter : ∀ j, ((s.account k fun _ => enrolled).evict leaving).ledger? j =
      if k = j then some enrolled else s.ledger? j := by
    intro j
    rw [Shelf.ledger?_evict, Shelf.ledger?_account]
    by_cases heq : k = j
    · subst heq
      simp [hledger]
    · simp [heq]
  refine ⟨⟨(Shelf.size_evict _ _).trans T.slots, T.nodup, T.known, ?_, ?_⟩, ?_, ?_, ?_⟩
  · intro b hb
    rw [Shelf.value?_evict, Shelf.value?_account, T.idle b hb, ite_self]
  · intro j l hl g hg
    rw [hafter] at hl
    rw [Shelf.value?_evict, Shelf.value?_account]
    by_cases heq : k = j
    · subst heq
      rw [if_pos rfl] at hl
      obtain rfl := Option.some.inj hl
      rw [if_neg (hstay g hg)]
      rcases hlisted g hg with rfl | hg
      · exact ⟨hvalue, hcache⟩
      · exact T.listed k ledger hledger g hg
    · rw [if_neg heq] at hl
      obtain ⟨hsome, hother⟩ := T.listed j l hl g hg
      refine ⟨?_, hother⟩
      rw [if_neg]
      · exact hsome
      · intro hin
        have hsame := (T.listed k ledger hledger g (hleave hin)).2
        exact heq (Option.some.inj (hsame.symm.trans hother))
  · intro j hj
    have hne : k ≠ j := by
      rintro rfl
      rw [hledger] at hj
      cases hj
    rw [hafter, if_neg hne, hj]
  · intro j l hl
    rw [hafter]
    split
    · next heq =>
      subst heq
      obtain rfl := Option.some.inj (hledger.symm.trans hl)
      exact ⟨enrolled, rfl, hcount ▸ Nat.le_add_right _ _⟩
    · exact ⟨l, hl, Nat.le_refl _⟩
  · intro g v hv
    rw [Shelf.value?_evict, Shelf.value?_account]
    by_cases hin : g ∈ leaving
    · have hmore := List.length_pos_of_mem hin
      exact .inr ⟨k, ledger, enrolled, (T.listed k ledger hledger g (hleave hin)).2, hledger,
        by rw [hafter, if_pos rfl], by omega⟩
    · exact .inl (by rw [if_neg hin, hv])

/-- A value just made is kept. -/
theorem keep (T : Tidy c (h :: busy) s) {entry : Entry ω V} (hentry : c.entry? h = some entry)
    (value : V) :
    Tidy c busy (s.keep h entry value).2 ∧ Onward c s (s.keep h entry value).2 := by
  obtain ⟨T', O⟩ := T.place value
  rw [Shelf.keep_snd]
  cases hledger : s.ledger? entry.cache with
  | none => exact ⟨T', O⟩
  | some ledger =>
    have hvalue : ((s.setValue h (some value)).value? h).isSome := by
      have hslot := (Array.getElem?_eq_some_iff.mp (Catalogue.getElem?_of_alive hentry)).1
      rw [Shelf.value?_setValue, if_pos ⟨rfl, T.slots ▸ hslot⟩]
      rfl
    obtain ⟨-, hleave, hstay⟩ := ledger.generated.leaving_of_enroll h entry.size
    have hlisted : ∀ g ∈ (ledger.generated.enroll h entry.size).2.handles,
        g = h ∨ g ∈ ledger.handles :=
      fun _ hg => Ledger.mem_handles_enroll (l := ledger.generated) hg
    have henroll := T'.enroll hvalue (Catalogue.cache?_of_alive hentry) hledger hlisted hleave hstay
      (ledger.generated.evictions_enroll h entry.size)
    exact henroll.imp_right O.trans

/-- A recipe runs as its requests are served. -/
theorem run {visit : Handle → Shelf ω V → Outcome V × Shelf ω V} (T : Tidy c busy s)
    (hvisit : ∀ h s, Tidy c busy s → Tidy c busy (visit h s).2 ∧ Onward c s (visit h s).2)
    (r : Recipe ω V α) :
    Tidy c busy (r.run c visit s).2 ∧ Onward c s (r.run c visit s).2 := by
  induction r generalizing s with
  | done value => exact ⟨T, .refl c s⟩
  | stop cause => exact ⟨T, .refl c s⟩
  | access h next ih =>
    obtain ⟨T', O⟩ := hvisit h s T
    rw [Recipe.run]
    generalize visit h s = x at *
    obtain ⟨answer, s'⟩ := x
    cases answer with
    | ok value => exact (ih _ T').imp_right O.trans
    | error cause =>
      cases cause with
      | problem cause => exact (ih _ T').imp_right O.trans
      | fault cause => exact ⟨T', O⟩
  | lower h next ih => exact (ih (T.demote h).1).imp_right (T.demote h).2.trans
  | inspect h next ih => exact ih _ T
  | read next ih => exact ih _ T
  | write change next ih =>
    have T' : Tidy c busy { s with world := change s.world } :=
      ⟨T.slots, T.nodup, T.known, T.idle, T.listed⟩
    exact (ih T').imp_right (Onward.write change).trans

/-- **A request leaves a tidy shelf tidy**, and values leave only for evictions. -/
theorem visit (T : Tidy c busy s) (depth : Nat) (h : Handle) :
    Tidy c busy (c.visit depth busy h s).2 ∧ Onward c s (c.visit depth busy h s).2 := by
  induction depth generalizing busy h s with
  | zero =>
    unfold Catalogue.visit
    split
    · exact ⟨T, .refl c s⟩
    · split
      · exact ⟨T, .refl c s⟩
      · split
        · exact ⟨T.account _ fun l => by simp, .account _ fun _ => Nat.le_refl _⟩
        · exact ⟨T, .refl c s⟩
  | succ depth ih =>
    rw [Catalogue.visit]
    cases hentry : c.entry? h with
    | none => exact ⟨T, .refl c s⟩
    | some entry =>
      by_cases hbusy : h ∈ busy
      · simp only [if_pos hbusy]
        exact ⟨T, .refl c s⟩
      · simp only [if_neg hbusy]
        cases hvalue : s.value? h with
        | some value => exact ⟨T.account _ fun l => by simp, .account _ fun _ => Nat.le_refl _⟩
        | none =>
          obtain ⟨T', O⟩ := (T.start (by simp [hentry]) hbusy hvalue).run
            (fun other s T => ih T other) entry.recipe
          dsimp only
          generalize entry.recipe.run c (fun other => c.visit depth (h :: busy) other) s = x at *
          obtain ⟨answer, s'⟩ := x
          cases answer with
          | ok value => exact (T'.keep hentry value).imp_right O.trans
          | error cause => exact ⟨T'.finish, O⟩

/-- Registered values may be counted anew between runs. -/
theorem of_catalogue (T : Tidy c [] s) {c' : Catalogue ω V} (hsize : c'.size = c.size)
    (hcache : ∀ g, c'.cache? g = c.cache? g) : Tidy c' [] s :=
  ⟨T.slots.trans hsize.symm, .nil, List.forall_mem_nil _, List.forall_mem_nil _,
    fun k l hl g hg => (T.listed k l hl g hg).imp_right (hcache g).trans⟩

/-- A value that nobody refers to any more leaves. -/
theorem drop (T : Tidy c [] s) {entry : Entry ω V} (hentry : c.entry? h = some entry) :
    Tidy c [] ((s.setValue h none).account entry.cache (·.forget h)) := by
  refine ⟨(s.size_setValue h none).trans T.slots, .nil, List.forall_mem_nil _,
    List.forall_mem_nil _, ?_⟩
  intro k l hl g hg
  rw [Shelf.ledger?_account, Shelf.ledger?_setValue] at hl
  rw [Shelf.value?_account, Shelf.value?_setValue_none]
  have hkept : ∃ l', s.ledger? k = some l' ∧ g ∈ l'.handles ∧ g ≠ h := by
    by_cases heq : entry.cache = k
    · rw [if_pos heq] at hl
      obtain ⟨l', hl', rfl⟩ := Option.map_eq_some_iff.mp hl
      exact ⟨l', hl', Ledger.mem_handles_forget.mp hg⟩
    · rw [if_neg heq] at hl
      refine ⟨l, hl, hg, ?_⟩
      rintro rfl
      have hcache := (T.listed k l hl g hg).2
      rw [Catalogue.cache?_of_alive hentry] at hcache
      exact heq (Option.some.inj hcache)
  obtain ⟨l', hl', hg', hne⟩ := hkept
  rw [if_neg hne]
  exact T.listed k l' hl' g hg'

/-- A value registered last is not at hand. -/
theorem push (T : Tidy c [] s) (entry : Entry ω V) :
    Tidy (c.push entry) [] { s with values := s.values.push none } := by
  refine ⟨by simp [T.slots], .nil, List.forall_mem_nil _, List.forall_mem_nil _, ?_⟩
  intro k l hl g hg
  obtain ⟨hsome, hcache⟩ := T.listed k l hl g hg
  have hlt : g.index < s.values.size := by
    obtain ⟨known, hknown, -⟩ := Option.map_eq_some_iff.mp hcache
    exact T.slots ▸ (Array.getElem?_eq_some_iff.mp hknown).1
  refine ⟨?_, Catalogue.cache?_push hcache⟩
  rw [Shelf.value?, Array.getElem?_push_lt hlt, ← Array.getElem?_eq_getElem hlt]
  exact hsome

/-- All values of a cache are taken off. -/
theorem clear (T : Tidy c [] s) {k : Nat} {ledger : Ledger} (hledger : s.ledger? k = some ledger) :
    Tidy c [] ((s.evict ledger.handles).account k Ledger.clear) := by
  refine ⟨(Shelf.size_evict _ _).trans T.slots, .nil, List.forall_mem_nil _,
    List.forall_mem_nil _, ?_⟩
  intro j l hl g hg
  rw [Shelf.ledger?_account, Shelf.ledger?_evict] at hl
  rw [Shelf.value?_account, Shelf.value?_evict]
  by_cases heq : k = j
  · rw [if_pos heq] at hl
    obtain ⟨l', -, rfl⟩ := Option.map_eq_some_iff.mp hl
    cases hg
  · rw [if_neg heq] at hl
    obtain ⟨hsome, hcache⟩ := T.listed j l hl g hg
    refine ⟨?_, hcache⟩
    rw [if_neg]
    · exact hsome
    · intro hin
      have hsame := (T.listed k ledger hledger g hin).2
      exact heq (Option.some.inj (hsame.symm.trans hcache))

/-- A cache begins or ends. -/
theorem of_ledgers (T : Tidy c [] s) {ledgers : Array (Option Ledger)}
    (hledgers : ∀ k l, (ledgers[k]?).getD none = some l → l.handles = [] ∨ s.ledger? k = some l) :
    Tidy c [] { s with ledgers } := by
  refine ⟨T.slots, .nil, List.forall_mem_nil _, List.forall_mem_nil _, ?_⟩
  intro k l hl g hg
  rcases hledgers k l hl with hnil | hsame
  · rw [hnil] at hg
    cases hg
  · exact T.listed k l hsame g hg

end Tidy

/-! ## The states -/

/-- The states of a store: the registered values, those being made, the latest first, and the
shelf. -/
inductive Reached : Catalogue ω V → List Handle → Shelf ω V → Prop
  /-- There is nothing at first. -/
  | empty (world : ω) : Reached #[] [] ⟨#[], #[], world⟩
  /-- A cache begins. -/
  | newCache {c : Catalogue ω V} {s : Shelf ω V} (R : Reached c [] s) (budget : Nat) :
      Reached c [] (Store.newCache ⟨c, s⟩ budget).2.shelf
  /-- A cache ends. -/
  | dropCache {c : Catalogue ω V} {s : Shelf ω V} (R : Reached c [] s) (cache : Nat) :
      Reached c [] (Store.dropCache ⟨c, s⟩ cache).shelf
  /-- A cache is cleared. -/
  | clear {c : Catalogue ω V} {s : Shelf ω V} (R : Reached c [] s) (cache : Nat) :
      Reached c [] (Store.clear ⟨c, s⟩ cache).shelf
  /-- A value is registered. -/
  | insert {c : Catalogue ω V} {s : Shelf ω V} (R : Reached c [] s) (cache size : Nat)
      (recipe : Recipe ω V V) (holds : List Handle) :
      Reached (Store.insert ⟨c, s⟩ cache size recipe holds).2.catalogue []
        (Store.insert ⟨c, s⟩ cache size recipe holds).2.shelf
  /-- A value is referred to once more. -/
  | retain {c : Catalogue ω V} {s : Shelf ω V} (R : Reached c [] s) (h : Handle) :
      Reached (Store.retain ⟨c, s⟩ h).catalogue [] s
  /-- A recipe takes over a reference. -/
  | hold {c : Catalogue ω V} {s : Shelf ω V} (R : Reached c [] s) (owner h : Handle) :
      Reached (c.hold owner h) [] s
  /-- References are given up. -/
  | release {c : Catalogue ω V} {s : Shelf ω V} (R : Reached c [] s) (handles : List Handle) :
      Reached (Store.release ⟨c, s⟩ handles).catalogue [] (Store.release ⟨c, s⟩ handles).shelf
  /-- A value is asked for. -/
  | ask {c : Catalogue ω V} {busy : List Handle} {s : Shelf ω V} (R : Reached c busy s)
      (h : Handle) : Reached c busy (c.visit c.size busy h s).2
  /-- A value is marked as the first to leave. -/
  | lower {c : Catalogue ω V} {busy : List Handle} {s : Shelf ω V} (R : Reached c busy s)
      (h : Handle) : Reached c busy (c.demote s h)
  /-- The world changes. -/
  | write {c : Catalogue ω V} {busy : List Handle} {s : Shelf ω V} (R : Reached c busy s)
      (change : ω → ω) : Reached c busy { s with world := change s.world }
  /-- A value begins to be made. -/
  | start {c : Catalogue ω V} {busy : List Handle} {s : Shelf ω V} (R : Reached c busy s)
      {h : Handle} (halive : (c.entry? h).isSome) (hbusy : h ∉ busy) (hnone : s.value? h = none) :
      Reached c (h :: busy) s

namespace Store

/-- What holds after the references of a list are given up, one after another. -/
theorem releaseWithin_steps {P : Store ω V → Prop}
    (hshared : ∀ (s : Store ω V) h entry, s.catalogue.entry? h = some entry →
      entry.references ≠ 1 → P s → P { s with catalogue := s.catalogue.recount h (· - 1) })
    (hlast : ∀ (s : Store ω V) h entry, s.catalogue.entry? h = some entry → P s →
      P ⟨s.catalogue.recount h (· - 1),
        (s.shelf.setValue h none).account entry.cache (·.forget h)⟩)
    {s : Store ω V} (hs : P s) (total : Nat) (handles : List Handle) :
    P (s.releaseWithin total handles) := by
  induction total generalizing s handles with
  | zero => exact hs
  | succ total ih =>
    cases handles with
    | nil => exact hs
    | cons h rest =>
      rw [Store.releaseWithin]
      cases hentry : s.catalogue.entry? h with
      | none => exact ih hs rest
      | some entry =>
        dsimp only
        split
        · exact ih (hlast s h entry hentry hs) _
        · next hmore => exact ih (hshared s h entry hentry hmore hs) rest

/-- What holds after the references of a list are given up, whatever they are. -/
theorem releaseWithin_induction {P : Store ω V → Prop}
    (hrecount : ∀ (s : Store ω V) h change, P s →
      P { s with catalogue := s.catalogue.recount h change })
    (hdrop : ∀ (s : Store ω V) h entry, s.catalogue.entry? h = some entry → P s →
      P { s with shelf := (s.shelf.setValue h none).account entry.cache (·.forget h) })
    {s : Store ω V} (hs : P s) (total : Nat) (handles : List Handle) :
    P (s.releaseWithin total handles) :=
  releaseWithin_steps (fun s h _ _ _ => hrecount s h (· - 1))
    (fun s h entry hentry hs => hrecount _ h (· - 1) (hdrop s h entry hentry hs)) hs total handles

end Store

theorem Tidy.insert {s : Store ω V} (T : Tidy s.catalogue [] s.shelf) (cache size : Nat)
    (recipe : Recipe ω V V) (holds : List Handle) :
    Tidy (s.insert cache size recipe holds).2.catalogue []
      (s.insert cache size recipe holds).2.shelf := by
  have hretained : Tidy (holds.foldl Store.retain s).catalogue []
      (holds.foldl Store.retain s).shelf := by
    induction holds generalizing s with
    | nil => exact T
    | cons h rest ih =>
      exact ih (s := s.retain h) (T.of_catalogue (Catalogue.size_recount _ h _)
        (Catalogue.cache?_recount _ h _))
  exact hretained.push _

/-- **All states are tidy.** -/
theorem Reached.tidy {c : Catalogue ω V} {busy : List Handle} {s : Shelf ω V}
    (R : Reached c busy s) : Tidy c busy s := by
  induction R with
  | empty world =>
    refine ⟨rfl, .nil, List.forall_mem_nil _, List.forall_mem_nil _, ?_⟩
    intro k l hl
    simp [Shelf.ledger?] at hl
  | newCache R budget T =>
    refine T.of_ledgers fun k l hl => ?_
    rw [Array.getElem?_push] at hl
    split at hl
    · obtain rfl := Option.some.inj hl
      exact .inl rfl
    · exact .inr hl
  | dropCache R cache T =>
    refine T.of_ledgers fun k l hl => .inr ?_
    rw [Array.getElem?_setIfInBounds] at hl
    split at hl
    · split at hl <;> simp at hl
    · exact hl
  | clear R cache T =>
    unfold Store.clear
    split
    · exact T
    · next ledger hledger => exact T.clear hledger
  | insert R cache size recipe holds T => exact Tidy.insert (s := ⟨_, _⟩) T cache size recipe holds
  | retain R h T =>
    exact T.of_catalogue (Catalogue.size_recount _ h _) (Catalogue.cache?_recount _ h _)
  | hold R owner h T =>
    exact T.of_catalogue (Catalogue.size_hold _ owner h) (Catalogue.cache?_hold _ owner h)
  | release R handles T =>
    apply Store.releaseWithin_induction (P := fun s => Tidy s.catalogue [] s.shelf) _ _ T
    · intro s h change T
      exact T.of_catalogue (Catalogue.size_recount _ h _) (Catalogue.cache?_recount _ h _)
    · intro s h entry hentry T
      exact T.drop hentry
  | ask R h T => exact (T.visit _ h).1
  | lower R h T => exact (T.demote h).1
  | write R change T => exact ⟨T.slots, T.nodup, T.known, T.idle, T.listed⟩
  | start R halive hbusy hnone T => exact T.start halive hbusy hnone

/-- A recipe leads from state to state. -/
theorem Reached.run {c : Catalogue ω V} {busy : List Handle} {s : Shelf ω V}
    (R : Reached c busy s) (r : Recipe ω V α) :
    Reached c busy (r.run c (c.visit c.size busy) s).2 := by
  induction r generalizing s with
  | done value => exact R
  | stop cause => exact R
  | access h next ih =>
    have R' := R.ask h
    rw [Recipe.run]
    generalize c.visit c.size busy h s = x at *
    obtain ⟨answer, s'⟩ := x
    cases answer with
    | ok value => exact ih _ R'
    | error cause =>
      cases cause with
      | problem cause => exact ih _ R'
      | fault cause => exact R'
  | lower h next ih => exact ih (R.lower h)
  | inspect h next ih => exact ih _ R
  | read next ih => exact ih _ R
  | write change next ih => exact ih (R.write change)

end Patchwork.Cache
