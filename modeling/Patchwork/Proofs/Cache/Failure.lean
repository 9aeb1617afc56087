import Patchwork.Proofs.Cache.Reached

/-!
# Values that could not be made

A recipe may fail after it asked for other values, which were made and kept, for which others left,
and which it marked as the first to leave.  The request that ran the recipe adds nothing to this: it
leaves the shelf as these deeds left it, with every ledger and every counter.  The value is neither
at hand nor listed, and the next request for it runs the recipe again.

This holds at any depth of requests, and for a fault, which ends all recipes under way, as for a
problem that a recipe reports.

## Main definitions

* `Deed`, `Recipe.deeds` — what a recipe does to the shelf.
* `Unmade` — what a request leaves whose recipe failed.
* `Admitted` — what a request leaves whose recipe made the value.

## Main statements

* `Recipe.run_snd` — a recipe leaves what its deeds leave.
* `Tidy.admitted` — a value just made is counted as the last to leave.
* `Reached.visit_failed` — a recipe that fails, and the next request.
-/

namespace Patchwork.Cache

variable {ω V α : Type}

/-! ## Deeds -/

/-- What a recipe does to the shelf. -/
inductive Deed (ω : Type) where
  /-- It asks for a value. -/
  | ask (handle : Handle)
  /-- It marks a value as the first to leave. -/
  | lower (handle : Handle)
  /-- It changes the world. -/
  | write (change : ω → ω)

/-- The shelf after a deed done while the values `busy` are being made. -/
def Catalogue.perform (c : Catalogue ω V) (busy : List Handle) (s : Shelf ω V) :
    Deed ω → Shelf ω V
  | .ask h => (c.visit c.size busy h s).2
  | .lower h => c.demote s h
  | .write change => { s with world := change s.world }

/-- The deeds of a recipe, in their order. -/
def Recipe.deeds (c : Catalogue ω V) (busy : List Handle) :
    Recipe ω V α → Shelf ω V → List (Deed ω)
  | .done _, _ => []
  | .stop _, _ => []
  | .access h next, s =>
    .ask h ::
      match c.visit c.size busy h s with
      | (.ok value, s) => (next (.ok value)).deeds c busy s
      | (.error (.problem cause), s) => (next (.error cause)).deeds c busy s
      | (.error (.fault _), _) => []
  | .lower h next, s => .lower h :: next.deeds c busy (c.demote s h)
  | .inspect h next, s => (next (c.status s h)).deeds c busy s
  | .read next, s => (next s.world).deeds c busy s
  | .write change next, s =>
    .write change :: next.deeds c busy { s with world := change s.world }

/-- **A recipe leaves what its deeds leave.** -/
theorem Recipe.run_snd (c : Catalogue ω V) (busy : List Handle) (r : Recipe ω V α)
    (s : Shelf ω V) :
    (r.run c (c.visit c.size busy) s).2 = (r.deeds c busy s).foldl (c.perform busy) s := by
  induction r generalizing s with
  | done value => rfl
  | stop cause => rfl
  | access h next ih =>
    rw [Recipe.run, Recipe.deeds, List.foldl_cons, Catalogue.perform]
    generalize c.visit c.size busy h s = x
    obtain ⟨answer, s'⟩ := x
    cases answer with
    | ok value => exact ih _ s'
    | error cause =>
      cases cause with
      | problem cause => exact ih _ s'
      | fault cause => rfl
  | lower h next ih => exact ih _
  | inspect h next ih => exact ih _ s
  | read next ih => exact ih _ s
  | write change next ih => exact ih _

/-! ## A value just made -/

/-- How a ledger counts a value just made. -/
structure Ledger.Takes (l l' : Ledger) (newcomer : Item V) : Prop where
  /-- It is listed, with a stamp later than all so far. -/
  listed : l'.find? newcomer.handle = some ⟨newcomer.handle, newcomer.size, l.newest + 1⟩
  /-- It has been made. -/
  generations : l'.generations = l.generations + 1
  /-- Nothing was met at hand. -/
  hits : l'.hits = l.hits
  /-- It joins the queue, and those who leave for it are counted. -/
  queue : ∀ q : Queue V, l.Mirrors q → l'.Mirrors (q.enroll l.budget newcomer) ∧
    l'.evictions + (q.enroll l.budget newcomer).length = l.evictions + q.length + 1

/-- An enrolment when there is room for the count. -/
theorem Ledger.enroll_eq {l : Ledger} {h : Handle} {size : Nat} (hnone : h ∉ l.handles)
    (hfits : l.residentBytes + size ≤ wordMax) :
    ∃ leaving left, l.enroll h size = (some leaving,
      { l.enter h size with
        residents := (l.enter h size).residents.filter fun r => r.handle ∉ leaving
        residentBytes := left
        evictions := l.evictions + leaving.length }) := by
  have hroom : ¬ wordMax < (l.enter h size).residentBytes + size := Nat.not_lt.mpr hfits
  rw [Ledger.enroll, forget_of_notMem hnone]
  dsimp only
  rw [if_neg hroom]
  exact ⟨_, _, rfl⟩

/-- An enrolment counts a newcomer, if there is room for the count. -/
theorem Ledger.enroll_takes {l : Ledger} {newcomer : Item V}
    (hnone : newcomer.handle ∉ l.handles) (hfits : l.residentBytes + newcomer.size ≤ wordMax) :
    ∃ leaving l', l.generated.enroll newcomer.handle newcomer.size = (some leaving, l') ∧
      newcomer.handle ∉ leaving ∧ l.Takes l' newcomer := by
  have hnone' : newcomer.handle ∉ l.generated.handles := hnone
  obtain ⟨hstays, -, -⟩ := l.generated.leaving_of_enroll newcomer.handle newcomer.size
  obtain ⟨leaving, left, henroll⟩ := enroll_eq hnone' hfits
  rw [henroll] at hstays
  refine ⟨leaving, _, henroll, hstays, ?_, rfl, rfl, ?_⟩
  · have hstays : newcomer.handle ∉ leaving := hstays
    have hothers : (l.residents.filter fun r => r.handle ∉ leaving).find?
        (·.handle = newcomer.handle) = none := by
      rw [List.find?_eq_none]
      intro r hr
      have hne : r.handle ≠ newcomer.handle := fun heq =>
        hnone (heq ▸ List.mem_map_of_mem (List.mem_filter.mp hr).1)
      simpa using hne
    simp only [find?, enter, generated, List.filter_append, List.find?_append, hothers]
    simp [hstays]
  · intro q M
    have hnew : newcomer.handle ∉ q.handles := mt M.mem_iff.mpr hnone
    obtain ⟨leaving', l', henroll', -, M', hparts⟩ :=
      M.generated.enroll hnew (by rw [← M.bytes]; exact hfits)
    obtain ⟨hleaving, rfl⟩ := Prod.mk.inj (henroll.symm.trans henroll')
    obtain rfl := Option.some.inj hleaving
    have hlength : q.length = leaving.length + (q.trim l.budget newcomer.size).length := by
      simpa [Queue.handles, Ledger.generated] using congrArg List.length hparts
    refine ⟨M', ?_⟩
    simp only [Queue.enroll, List.length_append, List.length_singleton, hlength,
      Ledger.generated]
    omega

/-- A value just made is at hand and, if its cache is there, counted as the last to leave. -/
structure Admitted (h : Handle) (entry : Entry ω V) (value : V) (s t : Shelf ω V) : Prop where
  /-- It is at hand. -/
  atHand : t.value? h = some value
  /-- Its ledger counts it. -/
  counted : ∀ l, s.ledger? entry.cache = some l →
    ∃ l', t.ledger? entry.cache = some l' ∧ l.Takes l' ⟨h, entry.size, value⟩
  /-- The ledgers of other caches stay. -/
  others : ∀ k, k ≠ entry.cache → t.ledger? k = s.ledger? k
  /-- The world stays. -/
  world : t.world = s.world

/-- **A value just made is counted as the last to leave**, if there is room for the count. -/
theorem Tidy.admitted {c : Catalogue ω V} {busy : List Handle} {s : Shelf ω V} {h : Handle}
    (T : Tidy c (h :: busy) s) {entry : Entry ω V} (hentry : c.entry? h = some entry) (value : V)
    (hfits : ∀ l, s.ledger? entry.cache = some l → l.residentBytes + entry.size ≤ wordMax) :
    ∃ t, s.keep h entry value = (.ok value, t) ∧ Admitted h entry value s t := by
  have hslot : h.index < s.values.size :=
    T.slots ▸ (Array.getElem?_eq_some_iff.mp (Catalogue.getElem?_of_alive hentry)).1
  have hset : (s.setValue h (some value)).value? h = some value := by
    rw [Shelf.value?_setValue, if_pos ⟨rfl, hslot⟩]
  rw [Shelf.keep, Shelf.ledger?_setValue]
  cases hledger : s.ledger? entry.cache with
  | none =>
    refine ⟨_, rfl, hset, ?_, fun _ _ => rfl, rfl⟩
    intro l hl
    rw [hledger] at hl
    cases hl
  | some l =>
    have hnone : h ∉ l.handles := by
      intro hin
      have hsome := (T.listed _ l hledger h hin).1
      rw [T.idle h List.mem_cons_self] at hsome
      cases hsome
    let newcomer : Item V := ⟨h, entry.size, value⟩
    have hnew : newcomer.handle ∉ l.handles := hnone
    have hroom : l.residentBytes + newcomer.size ≤ wordMax := hfits l hledger
    obtain ⟨leaving, l', henroll, hstays, htakes⟩ := Ledger.enroll_takes hnew hroom
    have henroll' : l.generated.enroll h entry.size = (some leaving, l') := henroll
    have hstays : h ∉ leaving := hstays
    have hafter : ∀ k, (((s.setValue h (some value)).account entry.cache fun _ => l').evict
        leaving).ledger? k = if entry.cache = k then some l' else s.ledger? k := by
      intro k
      rw [Shelf.ledger?_evict, Shelf.ledger?_account, Shelf.ledger?_setValue]
      by_cases heq : entry.cache = k
      · subst heq
        simp [hledger]
      · simp [heq]
    dsimp only
    rw [henroll']
    refine ⟨_, rfl, ?_, ?_, ?_, Shelf.world_evict _ _⟩
    · rw [Shelf.value?_evict, if_neg hstays, Shelf.value?_account, hset]
    · intro l₀ hl₀
      obtain rfl := Option.some.inj (hledger.symm.trans hl₀)
      exact ⟨l', by rw [hafter, if_pos rfl], htakes⟩
    · intro k hk
      rw [hafter, if_neg (Ne.symm hk)]

/-! ## A recipe that fails -/

/-- What a request leaves whose recipe failed. -/
structure Unmade (c : Catalogue ω V) (busy : List Handle) (h : Handle) (recipe : Recipe ω V V)
    (s t : Shelf ω V) : Prop where
  /-- It leaves what the deeds of the recipe leave, done while the value was being made. -/
  deeds : t = (recipe.deeds c (h :: busy) s).foldl (c.perform (h :: busy)) s
  /-- The value is not at hand. -/
  absent : t.value? h = none
  /-- No ledger lists it. -/
  unlisted : ∀ k l, t.ledger? k = some l → l.find? h = none
  /-- Other values stay, or leave for evictions that are counted. -/
  onward : Onward c s t
  /-- Everything can go on from here. -/
  reached : Reached c busy t

/-- **A recipe that fails leaves nothing of its own.**  When a value is asked for that is neither at
hand nor being made, and its recipe fails, then the request fails in the same way and leaves what
the deeds of the recipe left.  Whenever the value is asked for next, its recipe runs again; what it
then makes is counted as any value is. -/
theorem Reached.visit_failed {c : Catalogue ω V} {busy : List Handle} {s t : Shelf ω V}
    {h : Handle} {entry : Entry ω V} {cause : Failure} (R : Reached c busy s)
    (hentry : c.entry? h = some entry) (hbusy : h ∉ busy) (hnone : s.value? h = none)
    (hfails : entry.recipe.run c (c.visit c.size (h :: busy)) s = (.error cause, t)) :
    c.visit c.size busy h s = (.error cause, t) ∧ Unmade c busy h entry.recipe s t ∧
      ∀ {c' : Catalogue ω V} {busy' : List Handle} {u : Shelf ω V} {entry' : Entry ω V},
        Reached c' busy' u → c'.entry? h = some entry' → h ∉ busy' → u.value? h = none →
        (∀ cause' w, entry'.recipe.run c' (c'.visit c'.size (h :: busy')) u = (.error cause', w) →
          c'.visit c'.size busy' h u = (.error cause', w)) ∧
        ∀ value w, entry'.recipe.run c' (c'.visit c'.size (h :: busy')) u = (.ok value, w) →
          c'.visit c'.size busy' h u = w.keep h entry' value ∧
          ((∀ l, w.ledger? entry'.cache = some l → l.residentBytes + entry'.size ≤ wordMax) →
            ∃ w', w.keep h entry' value = (.ok value, w') ∧ Admitted h entry' value w w') := by
  have T := R.tidy
  have hvisit := Catalogue.visit_new T.nodup T.known hentry hbusy hnone
  rw [hfails] at hvisit
  have hstart : Reached c (h :: busy) s := R.start (by simp [hentry]) hbusy hnone
  have hshelf : t = (entry.recipe.run c (c.visit c.size (h :: busy)) s).2 := by rw [hfails]
  have T' : Tidy c (h :: busy) t := hshelf ▸ (hstart.run entry.recipe).tidy
  have hafter : Reached c busy t := by
    have hask := R.ask h
    rwa [hvisit] at hask
  refine ⟨hvisit, ⟨?_, T'.idle h List.mem_cons_self, ?_, ?_, hafter⟩, ?_⟩
  · rw [hshelf, Recipe.run_snd]
  · intro k l hl
    refine Ledger.find?_eq_none_iff.mpr fun hin => ?_
    have hsome := (T'.listed k l hl h hin).1
    rw [T'.idle h List.mem_cons_self] at hsome
    cases hsome
  · rw [hshelf]
    exact (hstart.tidy.run (fun g s T => T.visit c.size g) entry.recipe).2
  · intro c' busy' u entry' R' hentry' hbusy' hnone'
    have T₁ := R'.tidy
    have hagain := Catalogue.visit_new T₁.nodup T₁.known hentry' hbusy' hnone'
    refine ⟨?_, ?_⟩
    · intro cause' w hrun
      rw [hagain, hrun]
    · intro value w hrun
      have hstart' := R'.start (by simp [hentry']) hbusy' hnone'
      have T₂ : Tidy c' (h :: busy') w := by
        have hreached := (hstart'.run entry'.recipe).tidy
        rwa [hrun] at hreached
      exact ⟨by rw [hagain, hrun], T₂.admitted hentry' value⟩

/-- Asks for two values, of which the first is demoted and leaves for the second, and breaks off
unless the world has something to give. -/
def hesitant : Recipe Nat Nat Nat := do
  let found ← Recipe.observe id
  if found = 0 then
    let _ ← Recipe.fetch ⟨0⟩
    Recipe.demote ⟨0⟩
    let _ ← Recipe.fetch ⟨1⟩
    .stop (.fault .brokenRecipe)
  else pure found

/-- A store with that recipe and those it asks for, too large for one another. -/
def workshop : Store Nat Nat :=
  let s := ((Store.empty 0).newCache 8).2
  let s := (s.insert 0 5 (.done 1) []).2
  let s := (s.insert 0 4 (.done 2) []).2
  (s.insert 0 2 hesitant [⟨0⟩, ⟨1⟩]).2

theorem reached_workshop : Reached workshop.catalogue [] workshop.shelf :=
  ((((Reached.empty 0).newCache 8).insert 0 5 (.done 1) []).insert 0 4 (.done 2) []).insert 0 2
    hesitant [⟨0⟩, ⟨1⟩]

/-- What a ledger counts. -/
def Ledger.counters (l : Ledger) : List Nat :=
  [l.residentBytes, l.residents.length, l.hits, l.generations, l.evictions]

theorem visit_failed_workshop :
    ∃ t t', workshop.catalogue.visit 3 [] ⟨2⟩ workshop.shelf = (.error (.fault .brokenRecipe), t) ∧
      t.value? ⟨2⟩ = none ∧ (t.ledger? 0).map Ledger.counters = some [4, 1, 0, 2, 1] ∧
      workshop.catalogue.visit 3 [] ⟨2⟩ { t with world := 7 } = (.ok 7, t') ∧
      t'.value? ⟨2⟩ = some 7 := by
  let c := workshop.catalogue
  let t := (hesitant.run c (c.visit c.size [⟨2⟩]) workshop.shelf).2
  have hentry : c.entry? ⟨2⟩ = some ⟨0, 2, 2, hesitant, [⟨0⟩, ⟨1⟩], 1⟩ := rfl
  have hnone : workshop.shelf.value? ⟨2⟩ = none := by decide +kernel
  have hfails : hesitant.run c (c.visit c.size [⟨2⟩]) workshop.shelf =
      (.error (.fault .brokenRecipe), t) := Prod.ext (by decide +kernel) rfl
  obtain ⟨hvisit, U, hagain⟩ :=
    reached_workshop.visit_failed hentry List.not_mem_nil hnone hfails
  have hcounters : (t.ledger? 0).map Ledger.counters = some [4, 1, 0, 2, 1] := by decide +kernel
  obtain ⟨-, hmade⟩ := hagain (U.reached.write fun _ => 7) hentry List.not_mem_nil U.absent
  obtain ⟨hkeep, hadmitted⟩ := hmade 7 { t with world := 7 } rfl
  have hfits : ∀ l, t.ledger? 0 = some l → l.residentBytes + 2 ≤ wordMax := by
    intro l hl
    rw [hl] at hcounters
    have hbytes : l.residentBytes = 4 := (List.cons.inj (Option.some.inj hcounters)).1
    rw [hbytes]
    decide
  obtain ⟨t', ht', A⟩ := hadmitted hfits
  exact ⟨t, t', hvisit, U.absent, hcounters, hkeep.trans ht', A.atHand⟩

end Patchwork.Cache
