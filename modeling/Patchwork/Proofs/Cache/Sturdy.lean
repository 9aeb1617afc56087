import Patchwork.Proofs.Cache.Pledges
import Patchwork.Proofs.Cache.Pool

/-!
# Recipes that never break

A problem is handed to whoever asked, who may go on without the value; a fault ends everything.  A
recipe is sturdy when it never causes a fault itself, as long as the values that it is given are as
promised and the world is as it should be.  Then no request for a value ends with a fault either,
however the recipes depend on each other and whatever the cache keeps.

Promises about values alone do not suffice for this.  A request for a value that nobody refers to is
a fault, so a recipe may ask for registered values only, and the store must not have parted with
them.

## Main definitions

* `Outcome.IsProblem` — a failure that is no fault.
* `Recipe.Sturdy` — a recipe that never breaks, over promises.
* `Store.Sturdy` — a store whose recipes are sturdy.

## Main statements

* `Catalogue.Sturdy.ask` — a request for a value never breaks.
* `Store.Sturdy.perform`, `Store.Sturdy.insert` — running and registering sturdy recipes.
-/

namespace Patchwork

/-- The request is refused, and no more than that. -/
def Outcome.IsProblem (cause : Failure) : Prop := ∃ problem, cause = .problem problem

theorem Outcome.isProblem (problem : Problem) : IsProblem (.problem problem) := ⟨problem, rfl⟩

namespace Cache

open Outcome

variable {ω V α β : Type} {T T' : Promise V} {I : ω → Prop} {limit limit' : Nat}

/-! ## Recipes -/

namespace Recipe

/-- The recipe asks for values with lower numbers only and keeps what holds of the world, and it
answers with `P` or stops with a problem. -/
def Sturdy (T : Promise V) (I : ω → Prop) (limit : Nat) (P : α → Prop) : Recipe ω V α → Prop
  | .done value => P value
  | .stop cause => IsProblem cause
  | .access h next => h.index < limit ∧
      (∀ value, T h value → (next (.ok value)).Sturdy T I limit P) ∧
      ∀ cause, (next (.error cause)).Sturdy T I limit P
  | .lower _ next => next.Sturdy T I limit P
  | .inspect _ next => ∀ status, (next status).Sturdy T I limit P
  | .read next => ∀ w, I w → (next w).Sturdy T I limit P
  | .write change next => (∀ w, I w → I (change w)) ∧ next.Sturdy T I limit P

namespace Sturdy

variable {P Q : α → Prop} {r : Recipe ω V α}

/-- More may be promised, more values registered, and less be asked of the answer. -/
theorem mono (h : r.Sturdy T I limit P) (hT : ∀ h v, T' h v → T h v) (hlimit : limit ≤ limit')
    (hP : ∀ a, P a → Q a) : r.Sturdy T' I limit' Q := by
  induction r with
  | done value => exact hP value h
  | stop cause => exact h
  | access g next ih =>
    obtain ⟨hg, hok, herror⟩ := h
    exact ⟨Nat.lt_of_lt_of_le hg hlimit, fun value hvalue => ih _ (hok value (hT g value hvalue)),
      fun cause => ih _ (herror cause)⟩
  | lower g next ih => exact ih h
  | inspect g next ih => exact fun status => ih status (h status)
  | read next ih => exact fun w hw => ih w (h w hw)
  | write change next ih => exact ⟨h.1, ih h.2⟩

/-- One recipe after another. -/
theorem bind {R : β → Prop} {f : α → Recipe ω V β} (h : r.Sturdy T I limit P)
    (hf : ∀ a, P a → (f a).Sturdy T I limit R) : (r >>= f).Sturdy T I limit R := by
  rw [bind_eq_bind]
  induction r with
  | done value => exact hf value h
  | stop cause => exact h
  | access g next ih =>
    exact ⟨h.1, fun value hvalue => ih _ (h.2.1 value hvalue), fun cause => ih _ (h.2.2 cause)⟩
  | lower g next ih => exact ih h
  | inspect g next ih => exact fun status => ih status (h status)
  | read next ih => exact fun w hw => ih w (h w hw)
  | write change next ih => exact ⟨h.1, ih h.2⟩

theorem lift {x : Outcome α} (h : Outcome.Ends IsProblem P x) :
    (ofOutcome x : Recipe ω V α).Sturdy T I limit P := by
  cases x with
  | ok a => exact h
  | error cause => exact h

/-- A cached value is as promised. -/
theorem fetch {h : Handle} (hlimit : h.index < limit) :
    (Recipe.fetch h : Recipe ω V V).Sturdy T I limit (T h) :=
  ⟨hlimit, fun _ hvalue => hvalue, isProblem⟩

theorem demote (h : Handle) : (Recipe.demote h : Recipe ω V Unit).Sturdy T I limit fun _ => True :=
  trivial

theorem statusOf (h : Handle) :
    (Recipe.statusOf h : Recipe ω V Status).Sturdy T I limit fun _ => True :=
  fun _ => trivial

/-- What is read holds of some world as it should be. -/
theorem observe (part : ω → α) :
    (Recipe.observe part : Recipe ω V α).Sturdy T I limit fun a => ∃ w, I w ∧ part w = a :=
  fun w hw => ⟨w, hw, rfl⟩

/-- An operation that keeps what holds of the world. -/
theorem act {operation : ω → Outcome α × ω}
    (h : ∀ w, I w → Outcome.Ends IsProblem P (operation w).1 ∧ I (operation w).2) :
    (Recipe.act operation : Recipe ω V α).Sturdy T I limit P :=
  fun w hw => ⟨fun _ _ => (h w hw).2, lift (h w hw).1⟩

theorem amend {change : ω → ω} (h : ∀ w, I w → I (change w)) :
    (Recipe.amend change : Recipe ω V Unit).Sturdy T I limit fun _ => True :=
  ⟨h, trivial⟩

end Sturdy

/-- The postconditions of sturdy recipes. -/
def sturdy (T : Promise V) (I : ω → Prop) (limit : Nat) : Logic (Recipe ω V) IsProblem where
  Ensures := Sturdy T I limit
  pure h := h
  bind := Sturdy.bind
  lift := Sturdy.lift

/-- Going on to the next request leaves a sturdy recipe. -/
theorem Sturdy.toRequest {P : α → Prop} {r : Recipe ω V α} (h : r.Sturdy T I limit P) :
    r.toRequest.Sturdy T I limit fun left => left.Sturdy T I limit P := by
  induction r with
  | done value => exact h
  | stop cause =>
    obtain ⟨problem, rfl⟩ := h
    exact isProblem problem
  | access g next => exact h
  | lower g next ih => exact ih h
  | inspect g next ih => exact fun status => ih status (h status)
  | read next ih => exact fun w hw => ih w (h w hw)
  | write change next ih => exact ⟨h.1, ih h.2⟩

/-- Sturdy tasks may interrupt one another. -/
theorem interruptible_sturdy : Interruptible (sturdy (ω := ω) T I limit) where
  turn {α P r} h := by
    cases r with
    | access g next => exact h
    | _ => exact Sturdy.toRequest h
  stop h := h

end Recipe

/-! ## Running recipes on a queue -/

/-- The world is as it should be and the values at hand are as promised. -/
structure Lru.Keeps (T : Promise V) (I : ω → Prop) (l : Lru ω V) : Prop where
  /-- The world is as it should be. -/
  fits : I l.world
  /-- What is at hand is as promised. -/
  values : ∀ item ∈ l.queue, T item.handle item.value

/-- How a run ends that does not break. -/
structure Lru.Survives (T : Promise V) (I : ω → Prop) (P : α → Prop) (y : Outcome α × Lru ω V) :
    Prop where
  /-- It answers, or is refused. -/
  answer : Outcome.Ends IsProblem P y.1
  /-- What holds is kept. -/
  keeps : y.2.Keeps T I

/-- Every registered value can be asked for, and a sturdy recipe makes it from earlier ones. -/
def Catalogue.Sturdy (T : Promise V) (I : ω → Prop) (c : Catalogue ω V) : Prop :=
  ∀ h : Handle, h.index < c.size →
    ∃ r, c.recipe? h = some r ∧ r.Sturdy T I h.index (T h)

section Running

variable {c : Catalogue ω V} {l : Lru ω V}

open Lru

theorem Lru.Keeps.move (K : l.Keeps T I) {change : Queue V → Queue V}
    (hchange : ∀ item ∈ change l.queue, item ∈ l.queue) : (l.line change).Keeps T I :=
  ⟨K.fits, fun item hitem => K.values item (hchange item hitem)⟩

theorem Lru.Keeps.enroll (K : l.Keeps T I) {h : Handle} {value : V} (hvalue : T h value)
    (size : Nat) : (l.line (·.enroll l.budget ⟨h, size, value⟩)).Keeps T I := by
  refine ⟨K.fits, fun item hitem => ?_⟩
  rcases Queue.mem_of_mem_enroll hitem with hitem | rfl
  · exact K.values item hitem
  · exact hvalue

/-- A sturdy recipe does not break when requests for values do not. -/
theorem Recipe.Sturdy.play {ask : Handle → Lru ω V → Outcome V × Lru ω V}
    (hask : ∀ (h : Handle) (l : Lru ω V), h.index < limit → l.Keeps T I →
      Survives T I (T h) (ask h l))
    {P : α → Prop} {r : Recipe ω V α} (hr : r.Sturdy T I limit P) (K : l.Keeps T I) :
    Survives T I P (r.play c ask l) := by
  induction r generalizing l with
  | done value => exact ⟨hr, K⟩
  | stop cause => exact ⟨hr, K⟩
  | access h next ih =>
    obtain ⟨hlimit, hok, herror⟩ := hr
    obtain ⟨hanswer, K'⟩ := hask h l hlimit K
    rw [Recipe.play]
    generalize ask h l = y at *
    obtain ⟨answer, l'⟩ := y
    cases answer with
    | ok value => exact ih _ (hok value hanswer) K'
    | error cause =>
      obtain ⟨problem, rfl⟩ := hanswer
      exact ih _ (herror problem) K'
  | lower h next ih =>
    refine ih hr (K.move fun item hitem => ?_)
    split at hitem
    · exact Queue.mem_of_mem_lower hitem
    · exact hitem
  | inspect h next ih => exact ih _ (hr _) K
  | read next ih => exact ih _ (hr l.world K.fits) K
  | write change next ih => exact ih hr.2 ⟨hr.1 l.world K.fits, K.values⟩

/-- **A request for a registered value does not break**, however deep recipes ask for others.  When
too many values are under way it is refused. -/
theorem Catalogue.Sturdy.ask (hc : c.Sturdy T I) (depth : Nat) (busy : List Handle) {h : Handle}
    (hh : h.index < c.size) (K : l.Keeps T I) : Survives T I (T h) (c.ask depth busy h l) := by
  induction depth using Nat.strongRecOn generalizing busy h l with
  | ind depth ih =>
    obtain ⟨recipe, hrecipe, hmakes⟩ := hc h hh
    obtain ⟨entry, hentry, rfl⟩ := Catalogue.recipe?_eq_some_iff.mp hrecipe
    rw [Catalogue.ask.eq_def]
    simp only [hentry]
    by_cases hbusy : h ∈ busy
    · rw [if_pos hbusy]
      exact ⟨isProblem _, K⟩
    rw [if_neg hbusy]
    cases hitem : l.queue.item? h with
    | some item =>
      obtain ⟨hmem, rfl⟩ := Queue.mem_of_item? hitem
      have K' : (l.line (·.hit item.handle)).Keeps T I := K.move fun _ => Queue.mem_of_mem_hit
      exact ⟨K.values item hmem, K'⟩
    | none =>
      cases depth with
      | zero => exact ⟨isProblem _, K⟩
      | succ depth =>
        have hrun := hmakes.play (c := c) (fun _ _ hother K =>
          ih depth (Nat.lt_succ_self depth) (h :: busy) (Nat.lt_trans hother hh) K) K
        dsimp only
        generalize entry.recipe.play c (fun other => c.ask depth (h :: busy) other) l = y at *
        obtain ⟨answer, l'⟩ := y
        obtain ⟨hanswer, K'⟩ := hrun
        cases answer with
        | error cause => exact ⟨hanswer, K'⟩
        | ok value => exact ⟨hanswer, K'.enroll hanswer entry.size⟩

end Running

/-! ## Stores -/

namespace Store

/-- The store has one cache, whose declared sizes fit a machine word together, and its recipes are
sturdy. -/
structure Sturdy (s : Store ω V) (T : Promise V) (I : ω → Prop) : Prop where
  /-- The recipes are sturdy, and all values can still be asked for. -/
  catalogue : s.catalogue.Sturdy T I
  /-- Anything may be registered later. -/
  fresh : ∀ (h : Handle) (v : V), s.catalogue.size ≤ h.index → T h v
  /-- The store follows a queue of what is promised. -/
  queue : ∃ (m : Lru.Store ω V) (bytes : Nat), s.Follows m bytes ∧ m.lru.Keeps T I

namespace Sturdy

variable {s : Store ω V}

theorem empty {world : ω} (hworld : I world) (budget : Nat) :
    ((Store.empty world : Store ω V).newCache budget).2.Sturdy (fun _ _ => True) I :=
  ⟨fun _ hh => absurd hh (Nat.not_lt_zero _), fun _ _ _ => trivial, _, _, .empty budget world,
    hworld, List.forall_mem_nil _⟩

theorem amend (S : s.Sturdy T I) {change : ω → ω} (hchange : I (change s.world)) :
    (s.amend change).Sturdy T I := by
  obtain ⟨m, bytes, F, K⟩ := S.queue
  have hworld : s.world = m.lru.world := F.shelf.world
  rw [hworld] at hchange
  exact ⟨S.catalogue, S.fresh, _, bytes, F.amend change, hchange, K.values⟩

/-- **A sturdy recipe does not break** in a store of sturdy recipes, and leaves it one. -/
theorem perform (S : s.Sturdy T I) {P : α → Prop} {r : Recipe ω V α}
    (hr : r.Sturdy T I s.catalogue.size P) :
    Outcome.Ends IsProblem P (s.perform r).1 ∧ (s.perform r).2.Sturdy T I := by
  obtain ⟨m, bytes, F, K⟩ := S.queue
  obtain ⟨hanswer, hcatalogue, F'⟩ := F.perform r
  have hrun := hr.play (c := s.catalogue) (fun _ _ => S.catalogue.ask s.catalogue.size []) K
  exact ⟨hanswer ▸ hrun.answer, hcatalogue ▸ S.catalogue, hcatalogue ▸ S.fresh, _, bytes, F',
    hrun.keeps⟩

/-- Registering a value that a sturdy recipe makes. -/
theorem insert (S : s.Sturdy T I) (number : Nat) (hnumber : s.catalogue.size = number)
    {Q : V → Prop} {recipe : Recipe ω V V} (hrecipe : recipe.Sturdy T I number Q) (size : Nat)
    {holds : List Handle} (hholds : ∀ g ∈ holds, g.index < number)
    (hroom : s.declared + size ≤ wordMax) :
    (s.insert 0 size recipe holds).2.Sturdy (T.grant ⟨number⟩ Q) I := by
  subst hnumber
  have hweaker : ∀ h v, T.grant ⟨s.catalogue.size⟩ Q h v → T h v := fun _ _ hv => hv.1
  have hold : ∀ {h : Handle}, h.index < s.catalogue.size → h ≠ ⟨s.catalogue.size⟩ := by
    rintro _ hlt rfl
    exact absurd hlt (Nat.lt_irrefl _)
  have hknown : ∀ g ∈ holds, (s.recipe? g).isSome := fun g hg => by
    obtain ⟨r, hr, -⟩ := S.catalogue g (hholds g hg)
    exact Option.isSome_of_eq_some hr
  obtain ⟨m, bytes, F, K⟩ := S.queue
  refine ⟨?_, ?_, _, _, F.insert size recipe holds (F.bytes ▸ hroom), K.fits, ?_⟩
  · intro h hh
    have hrecipe? : (s.insert 0 size recipe holds).2.catalogue.recipe? h = _ :=
      recipe?_insert hknown h
    rw [hrecipe?]
    by_cases hnew : h.index = s.catalogue.size
    · obtain rfl : h = ⟨s.catalogue.size⟩ := congrArg Handle.mk hnew
      rw [if_pos rfl]
      exact ⟨recipe, rfl, hrecipe.mono hweaker (Nat.le_refl _) fun v hv =>
        ⟨S.fresh _ v (Nat.le_refl _), fun _ => hv⟩⟩
    · rw [size_insert] at hh
      have hlt : h.index < s.catalogue.size := by omega
      obtain ⟨r, hr, hmakes⟩ := S.catalogue h hlt
      rw [if_neg hnew]
      exact ⟨r, hr, hmakes.mono hweaker (Nat.le_refl _) fun v hv =>
        ⟨hv, fun heq => absurd heq (hold hlt)⟩⟩
  · intro h v hh
    rw [size_insert] at hh
    exact ⟨S.fresh h v (Nat.le_of_succ_le hh), fun heq => by subst heq; exact absurd hh (by simp)⟩
  · intro item hitem
    obtain ⟨entry, hentry, -⟩ := F.shelf.known item hitem
    have hlt := Catalogue.lt_size_of_recipe? (Catalogue.recipe?_eq_some_iff.mpr
      ⟨entry, hentry, rfl⟩)
    exact ⟨K.values item hitem, fun heq => absurd heq (hold hlt)⟩

end Sturdy

end Store

end Cache

end Patchwork
