import Patchwork.Proofs.Cache.Reached
import Patchwork.Proofs.Cache.Transparency

/-!
# Values that wait for themselves

When every recipe asks for a fixed list of values and fails without one of them, a value on a circle
of such lists, or on the way to one, cannot be made: the first of them to be made would have been
given another one before.  So none of them is ever at hand, at any point of any run, and a request
for one of them is refused.  It is refused at last: a request ends although nothing bounds how deep
recipes ask for one another, since no value is under way twice.

The refusal is a problem that the user can handle as long as the declared sizes fit a machine word
together.  When they do not, a value that a recipe asks for on its way may break the running total
of a ledger, and then the request ends with a fault instead.

## Main definitions

* `Recipe.Errand` — a recipe that asks for a fixed list of values.
* `Circular` — a value on a circle, or on the way to one.
* `Ends` — how requests and recipes end, without a bound on their depth.

## Main statements

* `Ends.ask_iff` — a request ends, in one way.
* `Reached.clean` — no circular value is at hand.
* `Store.circular_refused` — requests for circular values.
-/

namespace Patchwork.Cache

variable {ω V α : Type}

/-! ## Requests end -/

/-- What is to be done: answer a request, or run a recipe. -/
inductive Task (ω V : Type) where
  /-- Answer a request for a value. -/
  | ask (handle : Handle)
  /-- Run a recipe. -/
  | run (recipe : Recipe ω V V)

/-- How a task ends that is begun while the values `busy` are being made.  Nothing bounds how deep
recipes ask for one another. -/
inductive Ends (c : Catalogue ω V) :
    List Handle → Task ω V → Shelf ω V → Outcome V × Shelf ω V → Prop
  /-- Nobody refers to the value. -/
  | gone {busy : List Handle} {h : Handle} {s : Shelf ω V} (hentry : c.entry? h = none) :
      Ends c busy (.ask h) s (.error (.fault .outOfBounds), s)
  /-- The value is being made. -/
  | reentrant {busy : List Handle} {h : Handle} {entry : Entry ω V} {s : Shelf ω V}
      (hentry : c.entry? h = some entry) (hbusy : h ∈ busy) :
      Ends c busy (.ask h) s (.error (.problem (.reentrant entry.number)), s)
  /-- The value is at hand. -/
  | hit {busy : List Handle} {h : Handle} {entry : Entry ω V} {s : Shelf ω V} {value : V}
      (hentry : c.entry? h = some entry) (hbusy : h ∉ busy) (hvalue : s.value? h = some value) :
      Ends c busy (.ask h) s (.ok value, s.account entry.cache (·.hit h))
  /-- The value is made. -/
  | made {busy : List Handle} {h : Handle} {entry : Entry ω V} {s t : Shelf ω V} {value : V}
      (hentry : c.entry? h = some entry) (hbusy : h ∉ busy) (hnone : s.value? h = none)
      (hrun : Ends c (h :: busy) (.run entry.recipe) s (.ok value, t)) :
      Ends c busy (.ask h) s (t.keep h entry value)
  /-- The value cannot be made. -/
  | unmade {busy : List Handle} {h : Handle} {entry : Entry ω V} {s t : Shelf ω V}
      {cause : Failure} (hentry : c.entry? h = some entry) (hbusy : h ∉ busy)
      (hnone : s.value? h = none)
      (hrun : Ends c (h :: busy) (.run entry.recipe) s (.error cause, t)) :
      Ends c busy (.ask h) s (.error cause, t)
  /-- The recipe gives a value. -/
  | done {busy : List Handle} {s : Shelf ω V} (value : V) :
      Ends c busy (.run (.done value)) s (.ok value, s)
  /-- The recipe stops. -/
  | stop {busy : List Handle} {s : Shelf ω V} (cause : Failure) :
      Ends c busy (.run (.stop cause)) s (.error cause, s)
  /-- The recipe is given a value. -/
  | given {busy : List Handle} {h : Handle} {next : Except Problem V → Recipe ω V V}
      {s t : Shelf ω V} {value : V} {x : Outcome V × Shelf ω V}
      (hask : Ends c busy (.ask h) s (.ok value, t))
      (hnext : Ends c busy (.run (next (.ok value))) t x) :
      Ends c busy (.run (.access h next)) s x
  /-- The recipe is refused a value. -/
  | refused {busy : List Handle} {h : Handle} {next : Except Problem V → Recipe ω V V}
      {s t : Shelf ω V} {cause : Problem} {x : Outcome V × Shelf ω V}
      (hask : Ends c busy (.ask h) s (.error (.problem cause), t))
      (hnext : Ends c busy (.run (next (.error cause))) t x) :
      Ends c busy (.run (.access h next)) s x
  /-- A request breaks off. -/
  | broken {busy : List Handle} {h : Handle} {next : Except Problem V → Recipe ω V V}
      {s t : Shelf ω V} {cause : Fault}
      (hask : Ends c busy (.ask h) s (.error (.fault cause), t)) :
      Ends c busy (.run (.access h next)) s (.error (.fault cause), t)
  /-- The recipe marks a value. -/
  | lower {busy : List Handle} {h : Handle} {next : Recipe ω V V} {s : Shelf ω V}
      {x : Outcome V × Shelf ω V} (hnext : Ends c busy (.run next) (c.demote s h) x) :
      Ends c busy (.run (.lower h next)) s x
  /-- The recipe looks at a value. -/
  | inspect {busy : List Handle} {h : Handle} {next : Status → Recipe ω V V} {s : Shelf ω V}
      {x : Outcome V × Shelf ω V} (hnext : Ends c busy (.run (next (c.status s h))) s x) :
      Ends c busy (.run (.inspect h next)) s x
  /-- The recipe reads the world. -/
  | read {busy : List Handle} {next : ω → Recipe ω V V} {s : Shelf ω V}
      {x : Outcome V × Shelf ω V} (hnext : Ends c busy (.run (next s.world)) s x) :
      Ends c busy (.run (.read next)) s x
  /-- The recipe changes the world. -/
  | write {busy : List Handle} {change : ω → ω} {next : Recipe ω V V} {s : Shelf ω V}
      {x : Outcome V × Shelf ω V}
      (hnext : Ends c busy (.run next) { s with world := change s.world } x) :
      Ends c busy (.run (.write change next)) s x

namespace Ends

variable {c : Catalogue ω V} {busy : List Handle} {s : Shelf ω V} {x : Outcome V × Shelf ω V}

/-- What a task comes to. -/
def result (c : Catalogue ω V) (busy : List Handle) (s : Shelf ω V) :
    Task ω V → Outcome V × Shelf ω V
  | .ask h => c.visit c.size busy h s
  | .run r => r.run c (c.visit c.size busy) s

/-- A task ends in one way at most. -/
theorem eq_result {task : Task ω V} (E : Ends c busy task s x) (hnodup : busy.Nodup)
    (hknown : ∀ b ∈ busy, (c.entry? b).isSome) : x = result c busy s task := by
  induction E with
  | gone hentry =>
    rw [result, Catalogue.visit.eq_def]
    simp only [hentry]
  | reentrant hentry hbusy =>
    rw [result, Catalogue.visit.eq_def]
    simp only [hentry, if_pos hbusy]
  | hit hentry hbusy hvalue =>
    rw [result, Catalogue.visit.eq_def]
    simp only [hentry, if_neg hbusy, hvalue]
  | made hentry hbusy hnone _ ih =>
    have hrun := ih (List.nodup_cons.mpr ⟨hbusy, hnodup⟩)
      (List.forall_mem_cons.mpr ⟨by simp [hentry], hknown⟩)
    rw [result] at hrun
    rw [result, Catalogue.visit_new hnodup hknown hentry hbusy hnone, ← hrun]
  | unmade hentry hbusy hnone _ ih =>
    have hrun := ih (List.nodup_cons.mpr ⟨hbusy, hnodup⟩)
      (List.forall_mem_cons.mpr ⟨by simp [hentry], hknown⟩)
    rw [result] at hrun
    rw [result, Catalogue.visit_new hnodup hknown hentry hbusy hnone, ← hrun]
  | done value => rfl
  | stop cause => rfl
  | given _ _ ihask ihnext =>
    have hask := ihask hnodup hknown
    rw [result] at hask
    rw [ihnext hnodup hknown, result, result, Recipe.run, ← hask]
  | refused _ _ ihask ihnext =>
    have hask := ihask hnodup hknown
    rw [result] at hask
    rw [ihnext hnodup hknown, result, result, Recipe.run, ← hask]
  | broken _ ihask =>
    have hask := ihask hnodup hknown
    rw [result] at hask
    rw [result, Recipe.run, ← hask]
  | lower _ ih => exact ih hnodup hknown
  | inspect _ ih => exact ih hnodup hknown
  | read _ ih => exact ih hnodup hknown
  | write _ ih => exact ih hnodup hknown

/-- A recipe ends when its requests do. -/
theorem run (hask : ∀ h s, Ends c busy (.ask h) s (c.visit c.size busy h s))
    (r : Recipe ω V V) : Ends c busy (.run r) s (r.run c (c.visit c.size busy) s) := by
  induction r generalizing s with
  | done value => exact .done value
  | stop cause => exact .stop cause
  | access h next ih =>
    have E := hask h s
    rw [Recipe.run]
    generalize c.visit c.size busy h s = y at *
    obtain ⟨answer, t⟩ := y
    cases answer with
    | ok value => exact .given E (ih _)
    | error cause =>
      cases cause with
      | problem cause => exact .refused E (ih _)
      | fault cause => exact .broken E
  | lower h next ih => exact .lower ih
  | inspect h next ih => exact .inspect (ih _)
  | read next ih => exact .read (ih _)
  | write change next ih => exact .write ih

/-- A request ends.  What makes it end is that fewer values are left that could be under way. -/
theorem ask (hnodup : busy.Nodup) (hknown : ∀ b ∈ busy, (c.entry? b).isSome) (h : Handle)
    (s : Shelf ω V) : Ends c busy (.ask h) s (c.visit c.size busy h s) := by
  induction hleft : c.size - busy.length using Nat.strongRecOn generalizing busy h s with
  | ind left ih =>
    cases hentry : c.entry? h with
    | none =>
      rw [Catalogue.visit.eq_def]
      simp only [hentry]
      exact .gone hentry
    | some entry =>
      by_cases hbusy : h ∈ busy
      · rw [Catalogue.visit.eq_def]
        simp only [hentry, if_pos hbusy]
        exact .reentrant hentry hbusy
      · cases hvalue : s.value? h with
        | some value =>
          rw [Catalogue.visit.eq_def]
          simp only [hentry, if_neg hbusy, hvalue]
          exact .hit hentry hbusy hvalue
        | none =>
          have hroom := Catalogue.length_lt_of_new hnodup hknown (by simp [hentry]) hbusy
          have hfewer : c.size - (h :: busy).length < left := by
            rw [List.length_cons]
            omega
          have E := run (s := s) (fun g s => ih _ hfewer (List.nodup_cons.mpr ⟨hbusy, hnodup⟩)
            (List.forall_mem_cons.mpr ⟨by simp [hentry], hknown⟩) g s rfl) entry.recipe
          rw [Catalogue.visit_new hnodup hknown hentry hbusy hvalue]
          generalize entry.recipe.run c (c.visit c.size (h :: busy)) s = y at *
          obtain ⟨answer, t⟩ := y
          cases answer with
          | ok value => exact .made hentry hbusy hvalue E
          | error cause => exact .unmade hentry hbusy hvalue E

/-- **A request ends, in one way**, in every state of a store. -/
theorem ask_iff (R : Reached c busy s) (h : Handle) :
    Ends c busy (.ask h) s x ↔ x = c.visit c.size busy h s := by
  have T := R.tidy
  refine ⟨fun E => E.eq_result T.nodup T.known, ?_⟩
  rintro rfl
  exact ask T.nodup T.known h s

end Ends

/-! ## Circles -/

namespace Recipe

/-- The recipe asks for the listed values in their order, fails when one is refused, and gives a
value only after it was given all of them. -/
inductive Errand : List Handle → Recipe ω V α → Prop
  /-- Give a value. -/
  | done (value : α) : Errand [] (done value)
  /-- Fail. -/
  | stop (wanted : List Handle) (cause : Problem) : Errand wanted (stop (.problem cause))
  /-- Ask for the next value, and fail without it. -/
  | access {h : Handle} {wanted : List Handle} {next : Except Problem V → Recipe ω V α}
      (given : ∀ value, Errand wanted (next (.ok value)))
      (refused : ∀ cause, ∃ cause', next (.error cause) = .stop (.problem cause')) :
      Errand (h :: wanted) (access h next)
  /-- Mark a value as the first to go. -/
  | lower {h : Handle} {wanted : List Handle} {next : Recipe ω V α} (rest : Errand wanted next) :
      Errand wanted (lower h next)
  /-- Look where a value stands. -/
  | inspect {h : Handle} {wanted : List Handle} {next : Status → Recipe ω V α}
      (rest : ∀ status, Errand wanted (next status)) : Errand wanted (inspect h next)
  /-- Read the world. -/
  | read {wanted : List Handle} {next : ω → Recipe ω V α}
      (rest : ∀ world, Errand wanted (next world)) : Errand wanted (read next)
  /-- Change the world. -/
  | write {wanted : List Handle} {change : ω → ω} {next : Recipe ω V α}
      (rest : Errand wanted next) : Errand wanted (write change next)

/-- A recipe that asks for a value and goes on with it. -/
theorem Errand.fetch {h : Handle} {wanted : List Handle} {f : V → Recipe ω V α}
    (hf : ∀ value, (f value).Errand wanted) : Errand (h :: wanted) (Recipe.fetch h >>= f) :=
  .access hf fun cause => ⟨cause, rfl⟩

end Recipe

/-- All registered recipes ask for what is listed for them. -/
def Catalogue.Errands (c : Catalogue ω V) (lists : Handle → List Handle) : Prop :=
  ∀ (h : Handle) recipe, c.recipes[h.index]? = some recipe → recipe.Errand (lists h)

/-- A list leads from one value to another. -/
def Leads (lists : Handle → List Handle) (h d : Handle) : Prop := d ∈ lists h

/-- The value is on a circle of lists, or on the way to one. -/
def Circular (lists : Handle → List Handle) (h : Handle) : Prop :=
  ∃ g, Relation.ReflTransGen (Leads lists) h g ∧ Relation.TransGen (Leads lists) g g

variable {lists : Handle → List Handle} {h : Handle}

/-- A circular value asks for a circular one. -/
theorem Circular.next (hcircular : Circular lists h) : ∃ d ∈ lists h, Circular lists d := by
  obtain ⟨g, hreach, hcircle⟩ := hcircular
  rcases Relation.ReflTransGen.cases_head hreach with rfl | ⟨d, hd, hreach⟩
  · obtain ⟨d, hd, hback⟩ := Relation.TransGen.head'_iff.mp hcircle
    exact ⟨d, hd, h, hback, hcircle⟩
  · exact ⟨d, hd, g, hreach, hcircle⟩

theorem recipes_of_alive {c : Catalogue ω V} {entry : Entry ω V}
    (hentry : c.entry? h = some entry) : c.recipes[h.index]? = some entry.recipe := by
  simp [Catalogue.recipes, Catalogue.getElem?_of_alive hentry]

/-- No circular value is at hand. -/
def Clean (lists : Handle → List Handle) (s : Shelf ω V) : Prop :=
  ∀ h v, s.value? h = some v → ¬ Circular lists h

namespace Clean

variable {c : Catalogue ω V} {s : Shelf ω V}

/-- A recipe that gives a value was given all that is listed, so none of it is circular. -/
theorem run {visit : Handle → Shelf ω V → Outcome V × Shelf ω V} {r : Recipe ω V α}
    {wanted : List Handle} (C : Clean lists s) (E : r.Errand wanted)
    (hvisit : ∀ d s, Clean lists s → Clean lists (visit d s).2 ∧
      ∀ v, (visit d s).1 = .ok v → ¬ Circular lists d) :
    Clean lists (r.run c visit s).2 ∧
      ∀ a, (r.run c visit s).1 = .ok a → ∀ d ∈ wanted, ¬ Circular lists d := by
  induction E generalizing s with
  | done value => exact ⟨C, fun _ _ => List.forall_mem_nil _⟩
  | stop wanted cause => exact ⟨C, by rintro _ ⟨⟩⟩
  | @access h wanted next _ refused ih =>
    obtain ⟨C', hgiven⟩ := hvisit h s C
    rw [Recipe.run]
    generalize visit h s = x at *
    obtain ⟨answer, s'⟩ := x
    cases answer with
    | ok value =>
      obtain ⟨C'', hrest⟩ := ih value C'
      exact ⟨C'', fun a ha => List.forall_mem_cons.mpr ⟨hgiven value rfl, hrest a ha⟩⟩
    | error cause =>
      cases cause with
      | problem cause =>
        obtain ⟨cause', hstop⟩ := refused cause
        dsimp only
        rw [hstop]
        exact ⟨C', by rintro _ ⟨⟩⟩
      | fault cause => exact ⟨C', by rintro _ ⟨⟩⟩
  | @lower h wanted next _ ih =>
    have C' : Clean lists (c.demote s h) := by
      unfold Catalogue.demote
      split
      · exact C
      · exact C
    exact ih C'
  | inspect _ ih => exact ih _ C
  | read _ ih => exact ih _ C
  | @write wanted change next _ ih => exact ih (s := { s with world := change s.world }) C

/-- A value just made is at hand afterwards, and no other that was not. -/
theorem keep (C : Clean lists s) (hfree : ¬ Circular lists h) (entry : Entry ω V) (value : V) :
    Clean lists (s.keep h entry value).2 := by
  have C' : Clean lists (s.setValue h (some value)) := by
    intro g v hg
    rw [Shelf.value?_setValue] at hg
    split at hg
    · next heq => exact heq.1 ▸ hfree
    · exact C g v hg
  rw [Shelf.keep_snd]
  split
  · exact C'
  · intro g v hg
    rw [Shelf.value?_evict] at hg
    split at hg
    · cases hg
    · exact C' g v hg

/-- **What is given is not circular**, and nothing circular comes to hand. -/
theorem visit (C : Clean lists s) (E : c.Errands lists) (depth : Nat) (busy : List Handle)
    (h : Handle) : Clean lists (c.visit depth busy h s).2 ∧
      ∀ v, (c.visit depth busy h s).1 = .ok v → ¬ Circular lists h := by
  induction depth using Nat.strongRecOn generalizing busy h s with
  | ind depth ih =>
    rw [Catalogue.visit.eq_def]
    cases hentry : c.entry? h with
    | none => exact ⟨C, by rintro _ ⟨⟩⟩
    | some entry =>
      by_cases hbusy : h ∈ busy
      · simp only [if_pos hbusy]
        exact ⟨C, by rintro _ ⟨⟩⟩
      · simp only [if_neg hbusy]
        cases hvalue : s.value? h with
        | some value => exact ⟨C, fun _ _ => C h value hvalue⟩
        | none =>
          cases depth with
          | zero => exact ⟨C, by rintro _ ⟨⟩⟩
          | succ depth =>
            obtain ⟨C', hgiven⟩ := C.run (c := c) (E h entry.recipe (recipes_of_alive hentry))
              fun d s C => ih depth (Nat.lt_succ_self depth) C (h :: busy) d
            dsimp only
            generalize entry.recipe.run c (fun other => c.visit depth (h :: busy) other) s = x at *
            obtain ⟨answer, s'⟩ := x
            cases answer with
            | error cause => exact ⟨C', by rintro _ ⟨⟩⟩
            | ok value =>
              have hfree : ¬ Circular lists h := by
                intro hcircular
                obtain ⟨d, hd, hnext⟩ := hcircular.next
                exact hgiven value rfl d hd hnext
              exact ⟨C'.keep hfree entry value, fun _ _ => hfree⟩

end Clean

/-- Recipes that are registered early ask for what is listed, too. -/
theorem Catalogue.Errands.earlier {c c' : Catalogue ω V} (E : c'.Errands lists)
    (hearly : c.recipes <+: c'.recipes) : c.Errands lists := by
  intro h recipe hrecipe
  have hlt := (List.getElem?_eq_some_iff.mp hrecipe).1
  have hsame := List.prefix_iff_getElem?.mp hearly h.index hlt
  rw [(List.getElem?_eq_some_iff.mp hrecipe).2] at hsame
  exact E h recipe hsame

/-- The same recipes ask for the same. -/
theorem Catalogue.Errands.of_eq {c c' : Catalogue ω V} (E : c'.Errands lists)
    (hrecipes : c'.recipes = c.recipes) : c.Errands lists :=
  E.earlier (hrecipes ▸ List.prefix_refl _)

/-- References are given up without regard to recipes. -/
theorem Store.recipes_release (s : Store ω V) (handles : List Handle) :
    (s.release handles).catalogue.recipes = s.catalogue.recipes := by
  apply Store.releaseWithin_induction (P := fun t => t.catalogue.recipes = s.catalogue.recipes) _ _
    rfl
  · exact fun t h change ht => (Catalogue.recipes_recount _ h change).trans ht
  · exact fun t h entry _ ht => ht

/-- Giving up references brings nothing to hand. -/
theorem Clean.release {s : Store ω V} (C : Clean lists s.shelf) (handles : List Handle) :
    Clean lists (s.release handles).shelf := by
  apply Store.releaseWithin_induction (P := fun t => Clean lists t.shelf) _ _ C
  · exact fun _ _ _ C => C
  · intro t h entry _ C g v hg
    rw [Shelf.value?_account, Shelf.value?_setValue_none] at hg
    split at hg
    · cases hg
    · exact C g v hg

/-- Referring to values once more changes neither recipes nor what stands on the shelf. -/
theorem Store.recipes_retain (s : Store ω V) (holds : List Handle) :
    (holds.foldl Store.retain s).catalogue.recipes = s.catalogue.recipes ∧
      (holds.foldl Store.retain s).shelf = s.shelf := by
  induction holds generalizing s with
  | nil => exact ⟨rfl, rfl⟩
  | cons h rest ih =>
    obtain ⟨hrecipes, hshelf⟩ := ih (s.retain h)
    exact ⟨hrecipes.trans (Catalogue.recipes_recount _ h _), hshelf⟩

/-- The recipe of a value registered last is the last. -/
theorem Store.recipes_insert (s : Store ω V) (cache size : Nat) (recipe : Recipe ω V V)
    (holds : List Handle) :
    s.catalogue.recipes <+: (s.insert cache size recipe holds).2.catalogue.recipes := by
  have happend : (s.insert cache size recipe holds).2.catalogue.recipes =
      (holds.foldl Store.retain s).catalogue.recipes ++ [recipe] := by
    simp [Store.insert, Catalogue.recipes]
  rw [happend, (s.recipes_retain holds).1]
  exact List.prefix_append _ _

/-- A value registered last is not at hand. -/
theorem Clean.insert {s : Store ω V} (C : Clean lists s.shelf) (cache size : Nat)
    (recipe : Recipe ω V V) (holds : List Handle) :
    Clean lists (s.insert cache size recipe holds).2.shelf := by
  intro g v hg
  rw [Store.insert, (s.recipes_retain holds).2, Shelf.value?, Array.getElem?_push] at hg
  split at hg
  · cases hg
  · exact C g v hg

/-- **No circular value is at hand**, at any point of a run. -/
theorem Reached.clean {c : Catalogue ω V} {busy : List Handle} {s : Shelf ω V}
    (R : Reached c busy s) (E : c.Errands lists) : Clean lists s := by
  induction R with
  | empty world =>
    intro h v hv
    simp [Shelf.value?] at hv
  | newCache R budget ih => exact ih E
  | dropCache R cache ih => exact ih E
  | clear R cache ih =>
    have C := ih E
    unfold Store.clear
    split
    · exact C
    · intro g v hg
      rw [Shelf.value?_account, Shelf.value?_evict] at hg
      split at hg
      · cases hg
      · exact C g v hg
  | @insert c s R cache size recipe holds ih =>
    have C : Clean lists (Store.mk c s).shelf :=
      ih (E.earlier (Store.recipes_insert ⟨c, s⟩ cache size recipe holds))
    exact C.insert cache size recipe holds
  | @retain c s R h ih =>
    exact ih (E.of_eq (Catalogue.recipes_recount c h (· + 1)))
  | @hold c s R owner h ih => exact ih (E.of_eq (Catalogue.recipes_hold c owner h))
  | @release c s R handles ih =>
    have C : Clean lists (Store.mk c s).shelf :=
      ih (E.of_eq (Store.recipes_release ⟨c, s⟩ handles))
    exact C.release handles
  | ask R h ih => exact ((ih E).visit E _ _ h).1
  | lower R h ih =>
    have C := ih E
    unfold Catalogue.demote
    split
    · exact C
    · exact C
  | write R change ih => exact ih E
  | start R halive hbusy hnone ih => exact ih E

/-! ## Requests for circular values -/

/-- All that the lists lead to is referred to. -/
def Catalogue.Reaches (c : Catalogue ω V) (lists : Handle → List Handle) (h : Handle) : Prop :=
  ∀ g, Relation.ReflTransGen (Leads lists) h g → (c.entry? g).isSome

/-- What a list of values leads to is in the list, when what each of them asks for is. -/
theorem Catalogue.Reaches.of_closed {c : Catalogue ω V} (handles : List Handle)
    (hclosed : ∀ g ∈ handles, ∀ d ∈ lists g, d ∈ handles)
    (halive : ∀ g ∈ handles, (c.entry? g).isSome) (hh : h ∈ handles) : c.Reaches lists h := by
  intro g hg
  suffices hin : g ∈ handles from halive g hin
  induction hg with
  | refl => exact hh
  | @tail b d _ hd ih => exact hclosed b ih d hd

/-- A recipe breaks off only with a request. -/
theorem Recipe.Errand.play_ne_fault {c : Catalogue ω V}
    {ask : Handle → Lru ω V → Outcome V × Lru ω V} {r : Recipe ω V α} {wanted : List Handle}
    (E : r.Errand wanted) (hask : ∀ d ∈ wanted, ∀ l f, (ask d l).1 ≠ .error (.fault f))
    (l : Lru ω V) (f : Fault) : (r.play c ask l).1 ≠ .error (.fault f) := by
  induction E generalizing l with
  | done value => rintro ⟨⟩
  | stop wanted cause => rintro ⟨⟩
  | @access h wanted next _ refused ih =>
    obtain ⟨hhead, hrest⟩ := List.forall_mem_cons.mp hask
    have hanswer := hhead l
    rw [Recipe.play]
    generalize ask h l = x at *
    obtain ⟨answer, l'⟩ := x
    cases answer with
    | ok value => exact ih value hrest l'
    | error cause =>
      cases cause with
      | problem cause =>
        obtain ⟨cause', hstop⟩ := refused cause
        dsimp only
        rw [hstop]
        rintro ⟨⟩
      | fault cause => exact absurd rfl (hanswer cause)
  | lower _ ih => exact ih hask _
  | inspect _ ih => exact ih _ hask _
  | read _ ih => exact ih _ hask _
  | write _ ih => exact ih hask _

/-- A request does not break off in a queue, which keeps no running total. -/
theorem Catalogue.Errands.ask_ne_fault {c : Catalogue ω V} (E : c.Errands lists)
    (hreaches : c.Reaches lists h) (depth : Nat) (busy : List Handle) (l : Lru ω V) (f : Fault) :
    (c.ask depth busy h l).1 ≠ .error (.fault f) := by
  induction depth generalizing busy h l f with
  | zero =>
    obtain ⟨entry, hentry⟩ := Option.isSome_iff_exists.mp (hreaches h .refl)
    unfold Catalogue.ask
    simp only [hentry]
    split
    · rintro ⟨⟩
    · split <;> rintro ⟨⟩
  | succ depth ih =>
    obtain ⟨entry, hentry⟩ := Option.isSome_iff_exists.mp (hreaches h .refl)
    have hask : ∀ d ∈ lists h, ∀ l f, (c.ask depth (h :: busy) d l).1 ≠ .error (.fault f) :=
      fun d hd => ih (fun g hg => hreaches g (.head hd hg)) (h :: busy)
    have hrun := (E h entry.recipe (recipes_of_alive hentry)).play_ne_fault (c := c) hask l f
    rw [Catalogue.ask]
    simp only [hentry]
    split
    · rintro ⟨⟩
    · split
      · rintro ⟨⟩
      · split
        · rintro ⟨⟩
        · next heq =>
          rw [heq] at hrun
          exact hrun

namespace Store

/-- The store after a run of dealings with a cache. -/
def afterDealings (budget : Nat) (world : ω) (dealings : List (Dealing ω V)) : Store ω V :=
  dealings.foldl deal ((Store.empty world).newCache budget).2

/-- A dealing leads from state to state. -/
theorem reached_deal {s : Store ω V} (R : Reached s.catalogue [] s.shelf) (dealing : Dealing ω V) :
    Reached (s.deal dealing).catalogue [] (s.deal dealing).shelf := by
  cases dealing with
  | lend owner h => exact (R.retain h).hold owner h
  | request request =>
    cases request with
    | insert size recipe holds => exact R.insert 0 size recipe holds
    | access h =>
      rw [deal, serve, access_eq]
      exact R.ask h
    | demote h => exact R.lower h
    | retain h => exact R.retain h
    | release h => exact R.release [h]
    | clear =>
      have hcatalogue : (s.clear 0).catalogue = s.catalogue := by
        unfold Store.clear
        split <;> rfl
      rw [deal, serve, hcatalogue]
      exact R.clear 0
    | amend change => exact R.write change

/-- A run leads from state to state. -/
theorem reached_foldl {s : Store ω V} (R : Reached s.catalogue [] s.shelf)
    (dealings : List (Dealing ω V)) :
    Reached (dealings.foldl deal s).catalogue [] (dealings.foldl deal s).shelf := by
  induction dealings generalizing s with
  | nil => exact R
  | cons dealing rest ih => exact ih (reached_deal R dealing)

theorem reached_afterDealings (budget : Nat) (world : ω) (dealings : List (Dealing ω V)) :
    Reached (afterDealings budget world dealings).catalogue []
      (afterDealings budget world dealings).shelf :=
  reached_foldl (s := ((Store.empty world).newCache budget).2)
    ((Reached.empty world).newCache budget) dealings

/-- Recipes are only ever added. -/
theorem recipes_deal (s : Store ω V) (dealing : Dealing ω V) :
    s.catalogue.recipes <+: (s.deal dealing).catalogue.recipes := by
  have hsame : ∀ {c : Catalogue ω V}, c.recipes = s.catalogue.recipes →
      s.catalogue.recipes <+: c.recipes := fun heq => heq ▸ List.prefix_refl _
  cases dealing with
  | lend owner h =>
    exact hsame ((Catalogue.recipes_hold _ owner h).trans (Catalogue.recipes_recount _ h _))
  | request request =>
    cases request with
    | insert size recipe holds =>
      exact Store.recipes_insert s 0 size recipe holds
    | access h => exact List.prefix_refl _
    | demote h => exact List.prefix_refl _
    | retain h => exact hsame (Catalogue.recipes_recount _ h _)
    | release h => exact hsame (Store.recipes_release s [h])
    | clear =>
      refine hsame (congrArg Catalogue.recipes ?_)
      rw [deal, serve, Store.clear]
      split <;> rfl
    | amend change => exact List.prefix_refl _

theorem recipes_foldl (s : Store ω V) (dealings : List (Dealing ω V)) :
    s.catalogue.recipes <+: (dealings.foldl deal s).catalogue.recipes := by
  induction dealings generalizing s with
  | nil => exact List.prefix_refl _
  | cons dealing rest ih => exact (recipes_deal s dealing).trans (ih _)

/-- A run follows the queue of the same run. -/
theorem follows_foldl {s : Store ω V} {m : Lru.Store ω V} {bytes : Nat} (F : s.Follows m bytes)
    {dealings : List (Dealing ω V)} (hroom : bytes + (dealings.map (·.size)).sum ≤ wordMax) :
    ∃ m' bytes', (dealings.foldl deal s).Follows m' bytes' := by
  induction dealings generalizing s m bytes with
  | nil => exact ⟨m, bytes, F⟩
  | cons dealing rest ih =>
    rw [List.map_cons, List.sum_cons, ← Nat.add_assoc] at hroom
    exact ih (F.deal dealing (by omega)) hroom

/-- **Requests for circular values are refused.**  At every point of a run of dealings, from outside
or from a recipe, a request ends, although nothing bounds how deep recipes ask for one another; a
circular value is never at hand and never given; and when the declared sizes fit a machine word
together and the values on the way are referred to, a request for it is refused with a problem. -/
theorem circular_refused {budget : Nat} {world : ω} {dealings : List (Dealing ω V)}
    {lists : Handle → List Handle}
    (E : (afterDealings budget world dealings).catalogue.Errands lists) (h : Handle) :
    (∀ before, before <+: dealings → ∀ busy t,
      Reached (afterDealings budget world before).catalogue busy t →
        (∀ x, Ends (afterDealings budget world before).catalogue busy (.ask h) t x ↔
          x = (afterDealings budget world before).catalogue.visit
            (afterDealings budget world before).catalogue.size busy h t) ∧
        (Circular lists h → t.value? h = none ∧
          ∀ v, ((afterDealings budget world before).catalogue.visit
            (afterDealings budget world before).catalogue.size busy h t).1 ≠ .ok v)) ∧
    ((dealings.map (·.size)).sum ≤ wordMax →
      (afterDealings budget world dealings).catalogue.Reaches lists h → Circular lists h →
        ∃ cause, ((afterDealings budget world dealings).access h).1 = .error (.problem cause)) := by
  have hnever : ∀ before, before <+: dealings → ∀ busy t,
      Reached (afterDealings budget world before).catalogue busy t → Circular lists h →
        t.value? h = none ∧ ∀ v, ((afterDealings budget world before).catalogue.visit
          (afterDealings budget world before).catalogue.size busy h t).1 ≠ .ok v := by
    rintro before ⟨rest, rfl⟩ busy t R hcircular
    have E' : (afterDealings budget world before).catalogue.Errands lists := by
      apply E.earlier
      rw [afterDealings, afterDealings, List.foldl_append]
      exact recipes_foldl _ rest
    have C : Clean lists t := R.clean E'
    refine ⟨?_, fun v hv => (C.visit E' _ busy h).2 v hv hcircular⟩
    cases hvalue : t.value? h with
    | none => rfl
    | some v => exact absurd hcircular (C h v hvalue)
  refine ⟨fun before hbefore busy t R =>
    ⟨fun x => Ends.ask_iff R h, hnever before hbefore busy t R⟩, ?_⟩
  intro hfits hreaches hcircular
  obtain ⟨m, bytes, F⟩ := follows_foldl (Follows.empty budget world) (by rwa [Nat.zero_add])
  have hgiven := (hnever dealings (List.prefix_refl _) [] _
    (reached_afterDealings budget world dealings) hcircular).2
  have hanswer := (F.access h).1
  have hfault := E.ask_ne_fault hreaches
    (afterDealings budget world dealings).catalogue.size [] m.lru
  rw [show (afterDealings budget world dealings).catalogue = m.catalogue from F.catalogue] at hfault
  have hnone : ∀ v, ((afterDealings budget world dealings).access h).1 ≠ .ok v := by
    intro v
    rw [access_eq]
    exact hgiven v
  cases hcase : ((afterDealings budget world dealings).access h).1 with
  | ok v => exact absurd hcase (hnone v)
  | error cause =>
    cases cause with
    | problem cause => exact ⟨cause, rfl⟩
    | fault cause => exact absurd (hanswer.symm.trans hcase) (hfault cause)

/-- The sum of two other values. -/
def adding (a b : Handle) : Recipe Unit Nat Nat := do
  return (← Recipe.fetch a) + (← Recipe.fetch b)

theorem errand_adding (a b : Handle) : (adding a b).Errand [a, b] :=
  .fetch fun x => .fetch fun y => .done (x + y)

/-- Two values that follow one another in a circle, a value, and the sum of that value and one of
the circle. -/
def ring : List (Dealing Unit Nat) :=
  [.request (.insert 3 (following ⟨1⟩) []), .request (.insert 3 (following ⟨0⟩) [⟨0⟩]),
    .lend ⟨0⟩ ⟨1⟩, .request (.insert 4 (.done 7) []),
    .request (.insert 2 (adding ⟨2⟩ ⟨0⟩) [⟨2⟩, ⟨0⟩]), .request (.access ⟨2⟩)]

/-- What the values of that run ask for. -/
def ringLists (h : Handle) : List Handle :=
  match h.index with
  | 0 => [⟨1⟩]
  | 1 => [⟨0⟩]
  | 3 => [⟨2⟩, ⟨0⟩]
  | _ => []

theorem errand_following (h : Handle) : (following h).Errand [h] :=
  .fetch fun value => .done (value + 1)

theorem circular_refused_ring :
    Circular ringLists ⟨3⟩ ∧
      ∃ cause, ((afterDealings 5 () ring).access ⟨3⟩).1 = .error (.problem cause) := by
  have hrecipes : (afterDealings 5 () ring).catalogue.recipes =
      [following ⟨1⟩, following ⟨0⟩, .done 7, adding ⟨2⟩ ⟨0⟩] := rfl
  have E : (afterDealings 5 () ring).catalogue.Errands ringLists := by
    rintro ⟨i⟩ recipe hrecipe
    rw [hrecipes] at hrecipe
    rcases i with _ | _ | _ | _ | i
    · exact Option.some.inj hrecipe ▸ errand_following ⟨1⟩
    · exact Option.some.inj hrecipe ▸ errand_following ⟨0⟩
    · exact Option.some.inj hrecipe ▸ .done 7
    · exact Option.some.inj hrecipe ▸ errand_adding ⟨2⟩ ⟨0⟩
    · simp at hrecipe
  have hreaches : (afterDealings 5 () ring).catalogue.Reaches ringLists ⟨3⟩ :=
    .of_closed [⟨0⟩, ⟨1⟩, ⟨2⟩, ⟨3⟩] (by decide) (by decide +kernel) (by decide)
  have h30 : (⟨0⟩ : Handle) ∈ ringLists ⟨3⟩ := by decide
  have h01 : (⟨1⟩ : Handle) ∈ ringLists ⟨0⟩ := by decide
  have h10 : (⟨0⟩ : Handle) ∈ ringLists ⟨1⟩ := by decide
  have hcircular : Circular ringLists ⟨3⟩ := ⟨⟨0⟩, .single h30, .head h01 (.single h10)⟩
  exact ⟨hcircular, (circular_refused E ⟨3⟩).2 (by decide) hreaches hcircular⟩

/-- A value at hand that takes up all that can be counted, one more, and one that asks for that one
and then for itself. -/
def overladen : List (Dealing Unit Nat) :=
  [.request (.insert wordMax (.done 1) []), .request (.insert 1 (.done 2) []),
    .request (.insert 1 (adding ⟨1⟩ ⟨2⟩) [⟨1⟩]), .lend ⟨2⟩ ⟨2⟩, .request (.access ⟨0⟩)]

/-- What the values of that run ask for. -/
def overladenLists (h : Handle) : List Handle := if h.index = 2 then [⟨1⟩, ⟨2⟩] else []

/-- Without a bound on the declared sizes a request for a circular value may end with a fault: the
running total breaks before the circle is noticed. -/
theorem not_circular_refused_overladen :
    ¬ ∀ (budget : Nat) (dealings : List (Dealing Unit Nat)) (lists : Handle → List Handle)
      (h : Handle), (afterDealings budget () dealings).catalogue.Errands lists →
        (afterDealings budget () dealings).catalogue.Reaches lists h → Circular lists h →
          ∃ cause, ((afterDealings budget () dealings).access h).1 = .error (.problem cause) := by
  intro hall
  have hrecipes : (afterDealings 10 () overladen).catalogue.recipes =
      [.done 1, .done 2, adding ⟨1⟩ ⟨2⟩] := rfl
  have E : (afterDealings 10 () overladen).catalogue.Errands overladenLists := by
    rintro ⟨i⟩ recipe hrecipe
    rw [hrecipes] at hrecipe
    rcases i with _ | _ | _ | i
    · exact Option.some.inj hrecipe ▸ .done 1
    · exact Option.some.inj hrecipe ▸ .done 2
    · exact Option.some.inj hrecipe ▸ errand_adding ⟨1⟩ ⟨2⟩
    · simp at hrecipe
  have hreaches : (afterDealings 10 () overladen).catalogue.Reaches overladenLists ⟨2⟩ :=
    .of_closed [⟨0⟩, ⟨1⟩, ⟨2⟩] (by decide) (by decide +kernel) (by decide)
  have hself : (⟨2⟩ : Handle) ∈ overladenLists ⟨2⟩ := by decide
  obtain ⟨cause, hcause⟩ := hall 10 overladen overladenLists ⟨2⟩ E hreaches
    ⟨⟨2⟩, .refl, .single hself⟩
  have hfault : ((afterDealings 10 () overladen).access ⟨2⟩).1 = .error (.fault .overflow) := by
    decide +kernel
  rw [hfault] at hcause
  cases hcause

end Store

end Patchwork.Cache
