import Patchwork.Proofs.Cache.References

/-!
# A cache cannot be seen

How much a cache may keep decides what leaves it, when, and how often and how deep recipes run.
It does not decide what a user is given: when the registered recipes are pure, a run of dealings is
answered alike under any two budgets.

The catalogue of a run does not depend on the budget, and the values at hand are at any time values
that the recipes make, although not the same ones.  So each request is put to two queues over one
catalogue, which answer alike.

## Main definitions

* `Store.deal`, `Store.answers` — a run of dealings, and what it is answered.
* `Store.Faithful` — a store that follows a queue of values that the recipes make.

## Main statements

* `Store.Faithful.access`, `Store.Faithful.deal` — one request, one dealing.
* `Store.answers_eq_of_budgets` — runs under two budgets.
-/

namespace Patchwork.Cache

variable {ω V : Type}

/-! ## The catalogue of a run -/

/-- The recipes that a dealing registers. -/
def Dealing.recipes : Dealing ω V → List (Recipe ω V V)
  | .request (.insert _ recipe _) => [recipe]
  | _ => []

namespace Catalogue

variable {c c' : Catalogue ω V} {own : List Handle}

/-- The registered recipes in the order of their handles. -/
def recipes (c : Catalogue ω V) : List (Recipe ω V V) := c.toList.map (·.recipe)

/-- A part that holding references leaves alone. -/
theorem map_hold {α : Type} (c : Catalogue ω V) (owner h : Handle) (part : Entry ω V → α)
    (hpart : ∀ e holds, part { e with holds } = part e) :
    (c.hold owner h).toList.map part = c.toList.map part := by
  apply List.ext_getElem?
  intro i
  rw [List.getElem?_map, List.getElem?_map, hold, Array.toList_modify, List.getElem?_modify]
  cases c.toList[i]? with
  | none => rfl
  | some e =>
    by_cases heq : owner.index = i
    · simp [heq, hpart]
    · simp [heq]

theorem recipes_recount (c : Catalogue ω V) (h : Handle) (change : Nat → Nat) :
    (c.recount h change).recipes = c.recipes :=
  map_recount c h change (·.recipe) fun _ _ => rfl

theorem recipes_hold (c : Catalogue ω V) (owner h : Handle) :
    (c.hold owner h).recipes = c.recipes :=
  map_hold c owner h (·.recipe) fun _ _ => rfl

theorem recipes_retainAll (c : Catalogue ω V) (handles : List Handle) :
    (c.retainAll handles).recipes = c.recipes := by
  induction handles generalizing c with
  | nil => rfl
  | cons h rest ih => exact (ih (c.recount h (· + 1))).trans (recipes_recount c h _)

theorem recipes_releaseWithin (c : Catalogue ω V) (total : Nat) (handles : List Handle) :
    (c.releaseWithin total handles).recipes = c.recipes := by
  induction total generalizing c handles with
  | zero => rfl
  | succ total ih =>
    cases handles with
    | nil => rfl
    | cons h rest =>
      rw [releaseWithin]
      cases c.entry? h with
      | none => exact ih c rest
      | some entry =>
        dsimp only
        split
        · exact (ih _ _).trans (recipes_recount c h _)
        · exact (ih _ _).trans (recipes_recount c h _)

/-- Recipes are only ever added. -/
theorem recipes_settle (c : Catalogue ω V) (dealing : Dealing ω V) :
    (c.settle dealing).recipes = c.recipes ++ dealing.recipes := by
  cases dealing with
  | lend owner h =>
    rw [settle, recipes_hold, recipes_recount]
    exact (List.append_nil _).symm
  | request request =>
    cases request with
    | insert size recipe holds =>
      rw [settle, recipes, Array.toList_push, List.map_append]
      exact congrArg (· ++ [recipe]) (recipes_retainAll c holds)
    | retain h => exact (recipes_recount c h _).trans (List.append_nil _).symm
    | release h => exact (recipes_releaseWithin c _ [h]).trans (List.append_nil _).symm
    | access | demote | clear | amend => exact (List.append_nil _).symm

theorem pure_iff : c.Pure ↔ ∀ r ∈ c.recipes, r.Pure := by
  simp [Pure, recipes]

/-- A user who registers pure recipes keeps all of them pure. -/
theorem Pure.settle (hpure : c.Pure) {dealing : Dealing ω V} (hallows : c.Allows own dealing) :
    (c.settle dealing).Pure := by
  rw [pure_iff] at hpure ⊢
  rw [recipes_settle]
  refine List.forall_mem_append.mpr ⟨hpure, ?_⟩
  cases dealing with
  | lend => exact List.forall_mem_nil _
  | request request =>
    cases request with
    | insert => exact List.forall_mem_singleton.mpr hallows.1
    | access | demote | retain | release | clear | amend => exact List.forall_mem_nil _

/-- What recipes make is not lost when others are registered. -/
theorem Makes.of_prefix (hrecipes : c.recipes <+: c'.recipes) {n : Nat} {h : Handle} {v : V}
    (hv : c.Makes n h v) : c'.Makes n h v := by
  induction n generalizing h v with
  | zero => exact hv.elim
  | succ n ih =>
    obtain ⟨entry, hentry, hyields⟩ := hv
    have hrecipe : c.recipes[h.index]? = some entry.recipe := by simp [recipes, hentry]
    have hrecipe' := List.prefix_iff_getElem?.mp hrecipes h.index
      (List.getElem?_eq_some_iff.mp hrecipe).1
    obtain ⟨entry', hentry', heq⟩ : ∃ e, c'[h.index]? = some e ∧ e.recipe = entry.recipe := by
      rw [(List.getElem?_eq_some_iff.mp hrecipe).2] at hrecipe'
      simpa [recipes] using hrecipe'
    exact ⟨entry', hentry', heq ▸ hyields.mono fun _ _ => ih⟩

end Catalogue

/-! ## A queue during a run -/

namespace Lru.Store

variable {m : Lru.Store ω V}

/-- Serve a dealing. -/
def deal (m : Lru.Store ω V) : Dealing ω V → Lru.Store ω V
  | .request request => m.serve request
  | .lend owner h => { m with catalogue := (m.catalogue.recount h (· + 1)).hold owner h }

theorem catalogue_releaseWithin (m : Lru.Store ω V) (total : Nat) (handles : List Handle) :
    (m.releaseWithin total handles).catalogue = m.catalogue.releaseWithin total handles := by
  induction total generalizing m handles with
  | zero => rfl
  | succ total ih =>
    cases handles with
    | nil => rfl
    | cons h rest =>
      rw [releaseWithin, Catalogue.releaseWithin]
      cases m.catalogue.entry? h with
      | none => exact ih m rest
      | some entry =>
        dsimp only
        split
        · exact ih _ _
        · exact ih _ _

/-- The budget has no say in what is registered. -/
theorem catalogue_deal (m : Lru.Store ω V) (dealing : Dealing ω V) :
    (m.deal dealing).catalogue = m.catalogue.settle dealing := by
  cases dealing with
  | lend => rfl
  | request request =>
    cases request with
    | release h => exact m.catalogue_releaseWithin _ [h]
    | insert | access | demote | retain | clear | amend => rfl

/-- Giving up references brings nothing to hand. -/
theorem mem_queue_releaseWithin {total : Nat} {handles : List Handle} {item : Item V}
    (hitem : item ∈ (m.releaseWithin total handles).lru.queue) : item ∈ m.lru.queue := by
  induction total generalizing m handles with
  | zero => exact hitem
  | succ total ih =>
    cases handles with
    | nil => exact hitem
    | cons h rest =>
      rw [releaseWithin] at hitem
      cases hentry : m.catalogue.entry? h with
      | none =>
        rw [hentry] at hitem
        exact ih hitem
      | some entry =>
        simp only [hentry] at hitem
        split at hitem
        · exact (List.mem_filter.mp (ih hitem)).1
        · exact (ih hitem :)

end Lru.Store

/-! ## A request for a value -/

namespace Catalogue

variable {c : Catalogue ω V} {l l' : Lru ω V} {h : Handle}

/-- A value that is asked for first does not wait for anything. -/
theorem Supports.pending (hsupports : c.Supports h) : c.Pending c.size [] h :=
  ⟨List.nodup_nil, List.forall_mem_nil _, Nat.le_add_right _ _, List.forall_mem_nil _, hsupports⟩

theorem Counted.supports_of_allows {own : List Handle} (C : c.Counted own)
    (hallows : c.Allows own (.request (.access h))) : c.Supports h :=
  C.supports hallows.2 (C.alive_of_mem hallows.1)

end Catalogue

/-- Which references a recipe holds does not matter to what is at hand. -/
theorem Follows.hold {c : Catalogue ω V} {s : Shelf ω V} {l : Lru ω V} (F : Follows c s l)
    (owner h : Handle) : Follows (c.hold owner h) s l := by
  refine ⟨F.world, F.slots.trans Array.size_modify.symm, F.value, ?_, F.ledger⟩
  intro item hitem
  obtain ⟨entry, hentry, hsize⟩ := F.known item hitem
  obtain ⟨hat, hpos⟩ := Option.filter_eq_some_iff.mp hentry
  by_cases heq : owner.index = item.handle.index
  · refine ⟨{ entry with holds := h :: entry.holds }, ?_, hsize⟩
    simpa [Catalogue.entry?, Catalogue.hold, Array.getElem?_modify, heq, hat] using hpos
  · refine ⟨entry, ?_, hsize⟩
    simpa [Catalogue.entry?, Catalogue.hold, Array.getElem?_modify, heq, hat] using hpos

namespace Store

/-- Serve a dealing with the first cache. -/
def deal (s : Store ω V) : Dealing ω V → Store ω V
  | .request request => s.serve request
  | .lend owner h => { s.retain h with catalogue := (s.retain h).catalogue.hold owner h }

/-- What a dealing is answered, if it asks for a value. -/
def answer? (s : Store ω V) : Dealing ω V → Option (Outcome V)
  | .request (.access h) => some (s.access h).1
  | _ => none

/-- What the dealings of a run are answered. -/
def answers (s : Store ω V) : List (Dealing ω V) → List (Option (Outcome V))
  | [] => []
  | dealing :: rest => s.answer? dealing :: (s.deal dealing).answers rest

namespace Follows

variable {s : Store ω V} {m : Lru.Store ω V} {bytes : Nat}

/-- Which references a recipe holds does not matter to what is at hand. -/
theorem hold (F : s.Follows m bytes) (owner h : Handle) :
    Store.Follows { s with catalogue := s.catalogue.hold owner h }
      { m with catalogue := m.catalogue.hold owner h } bytes := by
  have hcaches := s.catalogue.map_hold owner h (·.cache) fun _ _ => rfl
  have hsizes := s.catalogue.map_hold owner h (·.size) fun _ _ => rfl
  refine ⟨congrArg (Catalogue.hold · owner h) F.catalogue, ⟨?_, hsizes ▸ F.single.fits⟩,
    hsizes ▸ F.bytes, F.shelf.hold owner h⟩
  intro entry hentry
  have hmem := List.mem_map_of_mem (f := (·.cache)) (Array.mem_toList_iff.mpr hentry)
  rw [hcaches] at hmem
  obtain ⟨other, hother, heq⟩ := List.mem_map.mp hmem
  exact heq ▸ F.single.cache other (Array.mem_toList_iff.mp hother)

/-- A dealing keeps the store and the queue together. -/
theorem deal (F : s.Follows m bytes) (dealing : Dealing ω V)
    (hroom : bytes + dealing.size ≤ wordMax) :
    (s.deal dealing).Follows (m.deal dealing) (bytes + dealing.size) := by
  cases dealing with
  | request request => exact F.serve request hroom
  | lend owner h => exact (F.retain h).hold owner h

end Follows

/-- A store with the values of a catalogue that follows a queue of values that the recipes make. -/
def Faithful (s : Store ω V) (c : Catalogue ω V) (bytes : Nat) : Prop :=
  ∃ m : Lru.Store ω V, s.Follows m bytes ∧ m.catalogue = c ∧ c.Backs m.lru

namespace Faithful

variable {s s' : Store ω V} {c : Catalogue ω V} {bytes bytes' : Nat} {own : List Handle}

theorem empty (budget : Nat) (world : ω) :
    ((Store.empty world : Store ω V).newCache budget).2.Faithful #[] 0 :=
  ⟨.empty budget world, .empty budget world, rfl, List.forall_mem_nil _⟩

/-- **Two stores over one catalogue give the same answer.** -/
theorem access (S : s.Faithful c bytes) (S' : s'.Faithful c bytes') (hpure : c.Pure) {h : Handle}
    (hsupports : c.Supports h) : (s.access h).1 = (s'.access h).1 := by
  obtain ⟨m, F, rfl, B⟩ := S
  obtain ⟨m', F', hcatalogue, B'⟩ := S'
  rw [(F.access h).1, (F'.access h).1, hcatalogue]
  exact (Catalogue.ask_agree hpure hsupports.pending B B').answer

/-- What is at hand after a dealing is made by the recipes. -/
theorem deal (S : s.Faithful c bytes) (hpure : c.Pure) (C : c.Counted own) {dealing : Dealing ω V}
    (hallows : c.Allows own dealing) (hroom : bytes + dealing.size ≤ wordMax) :
    (s.deal dealing).Faithful (c.settle dealing) (bytes + dealing.size) := by
  obtain ⟨m, F, rfl, B⟩ := S
  refine ⟨m.deal dealing, F.deal dealing hroom, m.catalogue_deal dealing, ?_⟩
  have hprefix : m.catalogue.recipes <+: (m.catalogue.settle dealing).recipes := by
    rw [Catalogue.recipes_settle]
    exact List.prefix_append _ _
  have hbacks : m.catalogue.Backs (m.deal dealing).lru := by
    cases dealing with
    | lend => exact B
    | request request =>
      cases request with
      | access h =>
        exact (Catalogue.ask_agree hpure (C.supports_of_allows hallows).pending B B).left
      | demote h => exact B.lower h
      | release h => exact fun item hitem => B item (Lru.Store.mem_queue_releaseWithin hitem)
      | clear => exact List.forall_mem_nil _
      | insert | retain | amend => exact B
  intro item hitem
  obtain ⟨n, hn⟩ := hbacks item hitem
  exact ⟨n, hn.of_prefix hprefix⟩

/-- Two stores over one catalogue answer a run of dealings alike. -/
theorem answers (S : s.Faithful c bytes) (S' : s'.Faithful c bytes) (hpure : c.Pure)
    (C : c.Counted own) {dealings : List (Dealing ω V)} (hlawful : c.Lawful own dealings)
    (hroom : bytes + (dealings.map (·.size)).sum ≤ wordMax) :
    s.answers dealings = s'.answers dealings := by
  -- the two stores part company in what they keep, and share the catalogue all along
  induction dealings generalizing s s' c own bytes with
  | nil => rfl
  | cons dealing rest ih =>
    obtain ⟨hallows, hrest⟩ := hlawful
    rw [List.map_cons, List.sum_cons, ← Nat.add_assoc] at hroom
    have hanswer : s.answer? dealing = s'.answer? dealing := by
      cases dealing with
      | lend => rfl
      | request request =>
        cases request with
        | access h =>
          exact congrArg some (S.access S' hpure (C.supports_of_allows hallows))
        | insert | demote | retain | release | clear | amend => rfl
    rw [Store.answers, Store.answers, hanswer,
      ih (S.deal hpure C hallows (by omega)) (S'.deal hpure C hallows (by omega))
        (hpure.settle hallows) (C.settle hallows) hrest hroom]

end Faithful

/-- **A cache cannot be seen.**  A user registers pure recipes, asks for their values, demotes them,
refers to them and parts with his references, hands references to recipes, and clears the cache, in
any order.  What he is given, and which failures he meets, is the same under any two budgets. -/
theorem answers_eq_of_budgets {dealings : List (Dealing ω V)}
    (hlawful : Catalogue.Lawful #[] [] dealings)
    (hfits : (dealings.map (·.size)).sum ≤ wordMax) (world : ω) (budget budget' : Nat) :
    ((Store.empty world).newCache budget).2.answers dealings =
      ((Store.empty world).newCache budget').2.answers dealings := by
  have hpure : Catalogue.Pure (#[] : Catalogue ω V) := fun _ hentry => by simp at hentry
  exact (Faithful.empty budget world).answers (Faithful.empty budget' world) hpure .nil hlawful
    (by rwa [Nat.zero_add])

/-- One more than another value. -/
def following (h : Handle) : Recipe Unit Nat Nat := do return (← Recipe.fetch h) + 1

theorem pure_following (h : Handle) : (following h).Pure := .fetch fun value => .done (value + 1)

theorem asks_following {h d : Handle} : (following h).Asks d ↔ h = d :=
  or_iff_left fun ⟨_, hasks⟩ => hasks

/-- Two values that follow one another in a circle, a value and one that follows it, which keeps it
after the user parted with it. -/
def roundabout : List (Dealing Unit Nat) :=
  [.request (.insert 3 (following ⟨1⟩) []), .request (.insert 3 (following ⟨0⟩) [⟨0⟩]),
    .lend ⟨0⟩ ⟨1⟩, .request (.insert 4 (.done 7) []), .request (.insert 2 (following ⟨2⟩) [⟨2⟩]),
    .request (.access ⟨3⟩), .request (.access ⟨2⟩), .request (.access ⟨0⟩),
    .request (.release ⟨2⟩), .request (.access ⟨3⟩)]

/-- The values of that run, the third with a number of references. -/
def roundaboutValues (references : Nat) : Catalogue Unit Nat :=
  #[⟨0, 0, 3, following ⟨1⟩, [⟨1⟩], 2⟩, ⟨0, 1, 3, following ⟨0⟩, [⟨0⟩], 2⟩,
    ⟨0, 2, 4, .done 7, [], references⟩, ⟨0, 3, 2, following ⟨2⟩, [⟨2⟩], 1⟩]

theorem settled_roundaboutValues (references : Nat) (h : Handle) :
    (roundaboutValues references).Settled h := by
  apply Catalogue.settled_of_holds
  simp [roundaboutValues, asks_following, Recipe.Asks]

theorem lawful_roundabout : Catalogue.Lawful #[] [] roundabout := by
  have hlent : (⟨1⟩ : Handle) ∈ [(⟨1⟩ : Handle), ⟨0⟩] := by decide
  have hreleased : (⟨2⟩ : Handle) ∈ [(⟨3⟩ : Handle), ⟨2⟩, ⟨1⟩, ⟨0⟩] := by decide
  exact ⟨⟨pure_following _, by decide⟩, ⟨pure_following _, by decide⟩, hlent,
    ⟨.done 7, by decide⟩, ⟨pure_following _, by decide⟩,
    ⟨by decide, settled_roundaboutValues 2 _⟩, ⟨by decide, settled_roundaboutValues 2 _⟩,
    ⟨by decide, settled_roundaboutValues 2 _⟩, hreleased,
    ⟨by decide, settled_roundaboutValues 1 _⟩, trivial⟩

theorem answers_eq_of_budgets_roundabout :
    Catalogue.Lawful #[] [] roundabout ∧ (roundabout.map (·.size)).sum ≤ wordMax ∧
      (((Store.empty ()).newCache 512).2.answers roundabout).drop 5 =
        [some (.ok 8), some (.ok 7), some (.error (.problem (.reentrant 0))), none,
          some (.ok 8)] := by
  have hfits : (roundabout.map (·.size)).sum ≤ wordMax := by decide
  -- with a budget of 5 the third value and the fourth displace one another
  have hsmall : (((Store.empty ()).newCache 5).2.answers roundabout).drop 5 =
      [some (.ok 8), some (.ok 7), some (.error (.problem (.reentrant 0))), none,
        some (.ok 8)] := by
    decide +kernel
  rw [answers_eq_of_budgets lawful_roundabout hfits () 5 512] at hsmall
  exact ⟨lawful_roundabout, hfits, hsmall⟩

end Store

end Patchwork.Cache
