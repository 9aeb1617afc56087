import Patchwork.Outcome

/-!
# Recipes

A `Recipe` describes how a value is made from other cached values and from the world around.  It is
a plain value: asking for a cached value, marking one as the first to go, looking whether one is at
hand, and reading or changing the world are its steps, and the store decides what each step does.

## Main definitions

* `Handle` — names a cached value.
* `Recipe` — a description of a computation with cached values.
* `Recipe.fetch`, `Recipe.demote`, `Recipe.statusOf`, `Recipe.observe`, `Recipe.amend`,
  `Recipe.act` — the steps.
-/

namespace Patchwork.Cache

/-- Names one cached value. -/
structure Handle where
  /-- Position among all values ever registered. -/
  index : Nat
  deriving DecidableEq, Inhabited

/-- Where a cached value stands. -/
inductive Status
  /-- Nobody refers to it any more, or it was never registered. -/
  | gone
  /-- It can be made on request. -/
  | idle
  /-- It is at hand. -/
  | resident
  deriving DecidableEq

/-- How a value of type `α` is made from cached values of type `V` in a world `ω`. -/
inductive Recipe (ω V α : Type) where
  /-- The value itself. -/
  | done (value : α)
  /-- Stop. -/
  | stop (cause : Failure)
  /-- Ask for a cached value, which may be refused. -/
  | access (handle : Handle) (next : Except Problem V → Recipe ω V α)
  /-- Mark a cached value as the first to go. -/
  | lower (handle : Handle) (next : Recipe ω V α)
  /-- Look where a cached value stands. -/
  | inspect (handle : Handle) (next : Status → Recipe ω V α)
  /-- Read the world. -/
  | read (next : ω → Recipe ω V α)
  /-- Change the world. -/
  | write (change : ω → ω) (next : Recipe ω V α)

namespace Recipe

variable {ω V α β : Type}

/-- Continue with the value of a recipe. -/
def bind : Recipe ω V α → (α → Recipe ω V β) → Recipe ω V β
  | done value, f => f value
  | stop cause, _ => stop cause
  | access handle next, f => access handle fun answer => (next answer).bind f
  | lower handle next, f => lower handle (next.bind f)
  | inspect handle next, f => inspect handle fun status => (next status).bind f
  | read next, f => read fun world => (next world).bind f
  | write change next, f => write change (next.bind f)

instance : Monad (Recipe ω V) where
  pure := done
  bind := bind

@[simp] theorem bind_done (r : Recipe ω V α) : r.bind done = r := by
  induction r with
  | done | stop => rfl
  | access _ _ ih => simp only [bind, ih]
  | lower _ _ ih => simp only [bind, ih]
  | inspect _ _ ih => simp only [bind, ih]
  | read _ ih => simp only [bind, ih]
  | write _ _ ih => simp only [bind, ih]

theorem bind_assoc {γ : Type} (r : Recipe ω V α) (f : α → Recipe ω V β) (g : β → Recipe ω V γ) :
    (r.bind f).bind g = r.bind fun a => (f a).bind g := by
  induction r with
  | done | stop => rfl
  | access _ _ ih => simp only [bind, ih]
  | lower _ _ ih => simp only [bind, ih]
  | inspect _ _ ih => simp only [bind, ih]
  | read _ ih => simp only [bind, ih]
  | write _ _ ih => simp only [bind, ih]

theorem bind_eq_bind (r : Recipe ω V α) (f : α → Recipe ω V β) : r >>= f = r.bind f := rfl

/-- An outcome as a recipe without further steps. -/
def ofOutcome : Outcome α → Recipe ω V α
  | .ok value => done value
  | .error cause => stop cause

instance : MonadLift Outcome (Recipe ω V) := ⟨ofOutcome⟩

/-- A cached value; a refusal is passed on. -/
def fetch (handle : Handle) : Recipe ω V V :=
  access handle fun
    | .ok value => done value
    | .error cause => stop (.problem cause)

/-- Mark a cached value as the first to go. -/
def demote (handle : Handle) : Recipe ω V Unit := lower handle (done ())

/-- Where a cached value stands. -/
def statusOf (handle : Handle) : Recipe ω V Status := inspect handle done

/-- A part of the world. -/
def observe (part : ω → α) : Recipe ω V α := read fun world => done (part world)

/-- An operation on the world, which changes it even when it is refused. -/
def act (operation : ω → Outcome α × ω) : Recipe ω V α :=
  read fun world =>
    let (answer, after) := operation world
    write (fun _ => after) (ofOutcome answer)

/-- Change the world. -/
def amend (change : ω → ω) : Recipe ω V Unit := write change (done ())

end Recipe

end Patchwork.Cache
