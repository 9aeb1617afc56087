import Patchwork.Cache.Pool
import Patchwork.Proofs.Cache.Promises

/-!
# What holds of recipes side by side

The tasks of a pool interrupt one another after every turn.  What each of them ensures alone is
ensured by all of them together, under every schedule, when a turn leaves a task that still ensures
it.  That is so for postconditions that rely on nothing but what no task takes from another.

Where a task relies on more, such as on what it has stored, an invariant of all the tasks and the
world carries the proof, one turn at a time.

## Main definitions

* `Recipe.Interruptible` — postconditions that a turn leaves.
* `Recipe.Gathers` — the recipe does nothing but ask for values.

## Main statements

* `Recipe.Interruptible.pool` — all tasks together.
* `Recipe.Ensures.pool` — an invariant of the tasks and the world.
-/

namespace Patchwork

namespace Cache.Recipe

variable {ω V α ι : Type} {T : Promise V} {D : Drift ω} {F : ω → Prop}

/-! ## Postconditions that a turn leaves -/

/-- Two lists that belong together have both something at a place or both nothing.  If they have,
two others may be put there. -/
theorem forall₂_at {β γ : Type} {R : β → γ → Prop} {l : List β} {l' : List γ}
    (h : List.Forall₂ R l l') (i : Nat) :
    (l[i]? = none ∧ l'[i]? = none) ∨ ∃ b c, l[i]? = some b ∧ l'[i]? = some c ∧ R b c ∧
      ∀ b' c', R b' c' → List.Forall₂ R (l.set i b') (l'.set i c') := by
  induction h generalizing i with
  | nil => exact .inl ⟨rfl, rfl⟩
  | @cons b c l l' hbc h ih =>
    cases i with
    | zero => exact .inr ⟨b, c, rfl, rfl, hbc, fun b' c' hbc' => .cons hbc' h⟩
    | succ i =>
      refine (ih i).imp id ?_
      rintro ⟨b', c', hb', hc', hrel, hset⟩
      exact ⟨b', c', hb', hc', hrel, fun b'' c'' hbc'' => .cons hbc (hset b'' c'' hbc'')⟩

/-- What is left of a task after one turn ensures what the task does. -/
structure Interruptible {E : Failure → Prop} (L : Logic (Recipe ω V) E) : Prop where
  /-- A turn leaves the postcondition. -/
  turn : ∀ {α : Type} {P : α → Prop} {r : Recipe ω V α},
    L.Ensures P r → L.Ensures (L.Ensures P) r.turn
  /-- Only failures that are allowed end a task. -/
  stop : ∀ {α : Type} {P : α → Prop} {cause : Failure},
    L.Ensures P (.stop cause : Recipe ω V α) → E cause

namespace Interruptible

variable {E : Failure → Prop} {L : Logic (Recipe ω V) E} {R : ι → α → Prop} {l : List ι}
  {tasks : List (Recipe ω V α)}

/-- Tasks that are done in order. -/
theorem sequence (h : List.Forall₂ (fun i r => L.Ensures (R i) r) l tasks) :
    L.Ensures (List.Forall₂ R l) (tasks.mapM id) := by
  induction h with
  | nil => exact L.pure .nil
  | cons hr _ ih =>
    rw [List.mapM_cons]
    exact L.bind hr fun a ha => L.bind ih fun rest hrest => L.pure (.cons ha hrest)

/-- A turn of any task leaves what all of them ensure. -/
theorem takeTurn (hL : Interruptible L)
    (h : List.Forall₂ (fun i r => L.Ensures (R i) r) l tasks) (index : Nat) :
    L.Ensures (List.Forall₂ (fun i r => L.Ensures (R i) r) l) (Recipe.takeTurn tasks index) := by
  unfold Recipe.takeTurn
  obtain ⟨-, hnone⟩ | ⟨i, task, hi, htask, hensures, hset⟩ := forall₂_at h index
  · rw [hnone]
    exact L.pure h
  · rw [htask]
    obtain ⟨hlt, rfl⟩ := List.getElem?_eq_some_iff.mp hi
    refine L.bind (hL.turn hensures) fun left hleft => L.pure ?_
    have htasks := hset l[index] left hleft
    rwa [List.set_getElem_self] at htasks

/-- **Side by side** the tasks ensure what each of them does alone, whatever the schedule. -/
theorem pool (hL : Interruptible L) (schedule : Schedule)
    (h : List.Forall₂ (fun i r => L.Ensures (R i) r) l tasks) :
    L.Ensures (List.Forall₂ R l) (Recipe.pool schedule tasks) := by
  refine L.bind (P := List.Forall₂ (fun i r => L.Ensures (R i) r) l) ?_ fun tasks h => ?_
  · exact L.foldlM (I := fun _ => List.Forall₂ (fun i r => L.Ensures (R i) r) l) h
      fun _ index tasks _ h => hL.takeTurn h index
  · split
    · next cause hblamed =>
      obtain ⟨-, hnone⟩ | ⟨i, _, -, hsome, hensures, -⟩ := forall₂_at h schedule.blamed
      · rw [hnone] at hblamed
        cases hblamed
      · obtain rfl := Option.some.inj (hsome.symm.trans hblamed)
        exact L.lift (x := .error cause) (hL.stop hensures)
    · exact sequence h

/-- A task for each of a list. -/
theorem pool_map (hL : Interruptible L) (schedule : Schedule) {f : ι → Recipe ω V α}
    (h : ∀ i ∈ l, L.Ensures (R i) (f i)) :
    L.Ensures (List.Forall₂ R l) (Recipe.pool schedule (l.map f)) :=
  hL.pool schedule (List.forall₂_map_right_iff.mpr (List.forall₂_same.mpr h))

/-- Tasks whose answers are known. -/
theorem pool_eq (hL : Interruptible L) (schedule : Schedule) {f : ι → Recipe ω V α} {g : ι → α}
    (h : ∀ i ∈ l, L.Ensures (· = g i) (f i)) :
    L.Ensures (· = l.map g) (Recipe.pool schedule (l.map f)) := by
  refine L.imp (hL.pool_map schedule h) fun answers hanswers => ?_
  rw [← List.forall₂_eq_eq_eq, List.forall₂_map_right_iff]
  exact hanswers.flip

end Interruptible

/-! ## An invariant of the tasks and the world -/

namespace Ensures

/-- Tasks that are done in order keep an invariant of those done so far. -/
theorem sequence {tasks : List (Recipe ω V α)} {I : Nat → ω → Prop} {w : ω} (h0 : I 0 w)
    (hstep : ∀ i task w, tasks[i]? = some task → I i w →
      task.Ensures T D F (fun _ => I (i + 1)) w) :
    (tasks.mapM id).Ensures T D F (fun _ => I tasks.length) w := by
  induction tasks generalizing I w with
  | nil => exact h0
  | cons task tasks ih =>
    rw [List.mapM_cons]
    refine (hstep 0 task w rfl h0).bind fun _ w' h1 => ?_
    refine (ih (I := fun i => I (i + 1)) h1 fun i => hstep (i + 1)).bind fun _ _ h => h

/-- **Side by side** the tasks keep an invariant that every turn keeps. -/
theorem pool {tasks : List (Recipe ω V α)} {I : List (Recipe ω V α) → ω → Prop}
    {P : List α → ω → Prop} {w : ω} (schedule : Schedule) (h0 : I tasks w)
    (hturn : ∀ (tasks : List (Recipe ω V α)) (i : Nat) (task : Recipe ω V α) (w : ω),
      tasks[i]? = some task → I tasks w →
        task.turn.Ensures T D F (fun left w' => I (tasks.set i left) w') w)
    (hstop : ∀ tasks w, I tasks w → F w)
    (hrest : ∀ tasks w, I tasks w → (tasks.mapM id).Ensures T D F P w) :
    (Recipe.pool schedule tasks).Ensures T D F P w := by
  obtain ⟨turns, blamed⟩ := schedule
  have hturns : (turns.foldlM takeTurn tasks).Ensures T D F I w := by
    induction turns generalizing tasks w with
    | nil => exact h0
    | cons i turns ih =>
      rw [List.foldlM_cons]
      refine Ensures.bind (P := I) ?_ fun _ _ => ih
      unfold takeTurn
      cases htask : tasks[i]? with
      | none => exact h0
      | some task => exact (hturn tasks i task w htask h0).bind fun _ _ h => h
  refine hturns.bind fun tasks w h => ?_
  split
  · exact hstop tasks w h
  · exact hrest tasks w h

/-- A turn that is an operation on the world. -/
theorem turn_act {P : Recipe ω V α → ω → Prop} {operation : ω → Outcome α × ω} {w : ω}
    (hfits : D.Fits (operation w).2) (hF : F (operation w).2)
    (hok : ∀ a, (operation w).1 = .ok a → P (.done a) (operation w).2)
    (hrefused : ∀ cause, (operation w).1 = .error cause → P (.stop cause) (operation w).2) :
    (Recipe.act operation : Recipe ω V α).turn.Ensures T D F P w := by
  refine ⟨hfits, ?_⟩
  change (ofOutcome (operation w).1).toRequest.Ensures T D F P (operation w).2
  cases h : (operation w).1 with
  | ok a => exact hok a h
  | error cause =>
    cases cause with
    | problem problem => exact hrefused _ h
    | fault fault => exact hF

end Ensures

/-! ## Recipes that only ask -/

/-- The recipe does nothing but ask for values, and answers with `P` when they are as promised. -/
def Gathers (T : Promise V) (P : α → Prop) : Recipe ω V α → Prop
  | .done value => P value
  | .stop _ => True
  | .access h next => (∀ value, T h value → (next (.ok value)).Gathers T P) ∧
      ∀ cause, (next (.error cause)).Gathers T P
  | _ => False

namespace Gathers

variable {β : Type} {P : α → Prop} {Q : β → Prop} {r : Recipe ω V α}

theorem bind {f : α → Recipe ω V β} (h : r.Gathers T P) (hf : ∀ a, P a → (f a).Gathers T Q) :
    (r >>= f).Gathers T Q := by
  rw [bind_eq_bind]
  induction r with
  | done value => exact hf value h
  | stop cause => exact h
  | access g next ih =>
    exact ⟨fun value hvalue => ih _ (h.1 value hvalue), fun cause => ih _ (h.2 cause)⟩
  | lower | inspect | read | write => exact h.elim

theorem fetch (h : Handle) : (Recipe.fetch h : Recipe ω V V).Gathers T (T h) :=
  ⟨fun _ hvalue => hvalue, fun _ => trivial⟩

/-- It only drifts, whatever the drift is. -/
theorem quiet (h : r.Gathers T P) : r.Quiet T D P := by
  intro w hw
  have hdrifts : ∀ {start}, D.Step start w →
      r.Ensures T D (D.Step start) (fun a w' => P a ∧ D.Step start w') w := by
    clear hw
    induction r generalizing w with
    | done value => exact fun hstep => ⟨h, hstep⟩
    | stop cause => exact id
    | access g next ih =>
      intro start hstep w' hstep'
      have htrans := D.trans hstep hstep'
      exact ⟨htrans, fun value hvalue => ih _ (h.1 value hvalue) w' htrans,
        fun cause => ih _ (h.2 cause) w' htrans⟩
    | lower | inspect | read | write => exact h.elim
  exact hdrifts (D.refl hw)

end Gathers

/-- The postconditions of recipes that only ask. -/
def gathers (T : Promise V) : Logic (Recipe ω V) fun _ => True where
  Ensures := Gathers T
  pure h := h
  bind := Gathers.bind
  lift {α P x} h := by
    cases x with
    | ok a => exact h
    | error cause => exact trivial

end Cache.Recipe

end Patchwork
