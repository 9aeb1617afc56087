import Mathlib.Data.List.Forall2
import Patchwork.Proofs.Outcome

/-!
# Computations beside plain outcomes

An algorithm that leaves its monad open can be run on plain outcomes as well.  When what it asks for
has fixed outcomes, the run in the monad shows what the run on these outcomes gives: both answer,
and with answers that belong together, or both fail.  Which failure it is may differ.

What shows what is left to the monad.  Whatever notion it has, it is respected by sequencing and by
outcomes, and this suffices for every algorithm.

## Main definitions

* `Outcome.Alike` — two outcomes that belong together.
* `Mirror` — computations of a monad that show plain outcomes.
-/

namespace Patchwork

open Outcome

namespace Outcome

variable {α β γ δ : Type} {R : α → β → Prop} {S : γ → δ → Prop}

/-- Both answer, with answers that belong together, or both fail. -/
def Alike (R : α → β → Prop) : Outcome α → Outcome β → Prop
  | .ok a, .ok b => R a b
  | .error _, .error _ => True
  | _, _ => False

/-- There is no answer. -/
def Fails (x : Outcome α) : Prop := ∀ a, x ≠ .ok a

theorem fails_error (cause : Failure) : Fails (.error cause : Outcome α) := by
  intro a h
  cases h

theorem Fails.bind {x : Outcome α} (h : x.Fails) (f : α → Outcome γ) : (x >>= f).Fails := by
  cases x with
  | error cause => exact fails_error cause
  | ok a => exact absurd rfl (h a)

/-- Nothing but a failure belongs to a failure. -/
theorem alike_error_iff {x : Outcome α} {cause : Failure} :
    Alike R x (.error cause) ↔ x.Fails := by
  cases x with
  | error cause' => exact ⟨fun _ => fails_error cause', fun _ => trivial⟩
  | ok a => exact ⟨False.elim, fun h => absurd rfl (h a)⟩

namespace Alike

theorem bind {x : Outcome α} {y : Outcome β} {f : α → Outcome γ} {g : β → Outcome δ}
    (h : Alike R x y) (hf : ∀ a b, R a b → Alike S (f a) (g b)) : Alike S (x >>= f) (y >>= g) := by
  cases x with
  | error cause =>
    cases y with
    | error cause' => exact trivial
    | ok b => exact h.elim
  | ok a =>
    cases y with
    | error cause' => exact h.elim
    | ok b => exact hf a b h

theorem refl (x : Outcome α) : Alike Eq x x := by
  cases x with
  | error cause => exact trivial
  | ok a => exact rfl

/-- Outcomes with equal answers. -/
theorem eq_iff {x y : Outcome α} : Alike Eq x y ↔ ∀ a, x = .ok a ↔ y = .ok a := by
  cases x with
  | error cause =>
    cases y with
    | error cause' => simp [Alike]
    | ok b => simp [Alike]
  | ok a =>
    cases y with
    | error cause' => simp [Alike]
    | ok b => simp [Alike]

/-- An outcome with the same answer will do as well. -/
theorem congr {x x' : Outcome α} {y : Outcome β} (h : Alike R x y) (hx : Alike Eq x x') :
    Alike R x' y := by
  cases x with
  | error cause =>
    cases x' with
    | error cause' =>
      cases y with
      | error => exact trivial
      | ok b => exact h
    | ok a => exact hx.elim
  | ok a =>
    cases x' with
    | error cause' => exact hx.elim
    | ok a' =>
      obtain rfl : a = a' := hx
      exact h

theorem fails {x x' : Outcome α} (hx : Alike Eq x x') (h : x.Fails) : x'.Fails := by
  intro a hx'
  rw [hx'] at hx
  exact h a (eq_iff.mp hx a |>.mpr rfl)

end Alike

end Outcome

/-- Computations of a monad that show plain outcomes. -/
structure Mirror (m : Type → Type) [Monad m] [MonadLiftT Outcome m] where
  /-- The computation shows the outcome, up to a relation of their answers. -/
  Shows : {α β : Type} → (α → β → Prop) → Outcome α → m β → Prop
  /-- An answer without steps. -/
  pure : ∀ {α β : Type} {R : α → β → Prop} {a : α} {b : β}, R a b →
    Shows R (Pure.pure a) (Pure.pure b)
  /-- One computation after another. -/
  bind : ∀ {α β γ δ : Type} {R : α → β → Prop} {S : γ → δ → Prop} {x : Outcome α} {y : m β}
    {f : α → Outcome γ} {g : β → m δ}, Shows R x y → (∀ a b, R a b → Shows S (f a) (g b)) →
    Shows S (x >>= f) (y >>= g)
  /-- An outcome. -/
  lift : ∀ {α β : Type} {R : α → β → Prop} {x : Outcome α} {y : Outcome β}, Alike R x y →
    Shows R x (liftM y : m β)

namespace Mirror

variable {m : Type → Type} [Monad m] [MonadLiftT Outcome m] (M : Mirror m)
variable {α β γ δ : Type} {R : α → β → Prop} {S : γ → δ → Prop}

/-- A step that is the same on both sides. -/
theorem bind_lift {x : Outcome α} {f : α → Outcome γ} {g : α → m δ}
    (hf : ∀ a, M.Shows S (f a) (g a)) : M.Shows S (x >>= f) ((liftM x : m α) >>= g) :=
  M.bind (M.lift (Alike.refl x)) fun a _ hab => hab ▸ hf a

/-- A step with one answer. -/
theorem bind_eq {x : Outcome α} {y : m α} {f : α → Outcome γ} {g : α → m δ}
    (h : M.Shows Eq x y) (hf : ∀ a, M.Shows S (f a) (g a)) : M.Shows S (x >>= f) (y >>= g) :=
  M.bind h fun a _ hab => hab ▸ hf a

/-- A computation that goes on where the outcome ends. -/
theorem bind_right {x : Outcome α} {y : m α} {T : α → δ → Prop} {g : α → m δ}
    (h : M.Shows Eq x y) (hg : ∀ a, M.Shows T (Pure.pure a) (g a)) : M.Shows T x (y >>= g) := by
  rw [← bind_pure x]
  exact M.bind_eq h hg

/-- Folds over lists that belong together, whose steps do. -/
theorem foldlM {f : γ → α → Outcome γ} {g : δ → β → m δ} {l : List α} {l' : List β} {c : γ} {d : δ}
    (hl : List.Forall₂ R l l') (h0 : S c d)
    (hstep : ∀ a b c d, R a b → S c d → M.Shows S (f c a) (g d b)) :
    M.Shows S (l.foldlM f c) (l'.foldlM g d) := by
  induction hl generalizing c d with
  | nil => exact M.pure h0
  | cons hab _ ih =>
    rw [List.foldlM_cons, List.foldlM_cons]
    exact M.bind (hstep _ _ c d hab h0) fun _ _ => ih

/-- A computation for each of two lists that belong together. -/
theorem mapM [LawfulMonad m] {f : α → Outcome γ} {g : β → m δ} {l : List α} {l' : List β}
    (hl : List.Forall₂ (fun a b => M.Shows S (f a) (g b)) l l') :
    M.Shows (List.Forall₂ S) (l.mapM f) (l'.mapM g) := by
  induction hl with
  | nil => exact M.pure .nil
  | cons hab _ ih =>
    rw [List.mapM_cons, List.mapM_cons]
    exact M.bind hab fun c d hcd => M.bind ih fun cs ds hrest => M.pure (.cons hcd hrest)

end Mirror

end Patchwork
