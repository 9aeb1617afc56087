import Mathlib.Data.List.Forall2
import Patchwork.Proofs.Outcome

/-!
# Postconditions in any monad

Some algorithms ask their caller for intermediate images and leave open which monad that happens in.
What they compute is proved once, for any notion of postcondition that is respected by sequencing
and by outcomes.

## Main definitions

* `Logic` — a notion of postcondition for a monad.
* `Logic.plain` — the one of outcomes.
-/

namespace Patchwork

open Outcome

/-- A notion of postcondition for a monad, in which failures of `E` are allowed. -/
structure Logic (m : Type → Type) [Monad m] [MonadLiftT Outcome m] (E : Failure → Prop) where
  /-- What the computation answers has the property. -/
  Ensures : {α : Type} → (α → Prop) → m α → Prop
  /-- An answer without steps. -/
  pure : ∀ {α : Type} {P : α → Prop} {a : α}, P a → Ensures P (Pure.pure a)
  /-- One computation after another. -/
  bind : ∀ {α β : Type} {P : α → Prop} {Q : β → Prop} {x : m α} {f : α → m β},
    Ensures P x → (∀ a, P a → Ensures Q (f a)) → Ensures Q (x >>= f)
  /-- An outcome. -/
  lift : ∀ {α : Type} {P : α → Prop} {x : Outcome α}, Ends E P x → Ensures P (liftM x : m α)

namespace Logic

/-- The postconditions of outcomes. -/
def plain (E : Failure → Prop) : Logic Outcome E where
  Ensures := Ends E
  pure h := h
  bind h hf := h.bind hf
  lift h := h

variable {m : Type → Type} [Monad m] [MonadLiftT Outcome m] {E : Failure → Prop} (L : Logic m E)
variable {α β γ : Type}

/-- A step whose answer is known. -/
theorem bind_eq {x : m α} {a : α} {f : α → m β} {Q : β → Prop} (h : L.Ensures (· = a) x)
    (hf : L.Ensures Q (f a)) : L.Ensures Q (x >>= f) := by
  apply L.bind h
  intro b hb
  rwa [hb]

/-- A fold ensures an invariant of the part done so far, when each step keeps it. -/
theorem foldlM {f : β → γ → m β} {I : List γ → β → Prop} {l : List γ} {b : β} (h0 : I [] b)
    (hstep : ∀ done c b, c ∈ l → I done b → L.Ensures (I (done ++ [c])) (f b c)) :
    L.Ensures (I l) (l.foldlM f b) := by
  suffices h : ∀ (rest done : List γ) (b : β), done ++ rest = l → I done b →
      L.Ensures (I l) (rest.foldlM f b) from h l [] b rfl h0
  intro rest
  induction rest with
  | nil =>
    rintro done b rfl hb
    rw [List.append_nil]
    exact L.pure hb
  | cons c rest ih =>
    rintro done b rfl hb
    rw [List.foldlM_cons]
    apply L.bind (hstep done c b (by simp) hb)
    intro b' hb'
    exact ih (done ++ [c]) b' (by simp) hb'

/-- A step for each of a list. -/
theorem forM {f : α → m PUnit} {l : List α} (h : ∀ a ∈ l, L.Ensures (fun _ => True) (f a)) :
    L.Ensures (fun _ => True) (l.forM f) := by
  induction l with
  | nil => exact L.pure trivial
  | cons a l ih =>
    obtain ⟨ha, hl⟩ := List.forall_mem_cons.mp h
    exact L.bind ha fun _ _ => ih hl

variable [LawfulMonad m]

theorem imp {x : m α} {P Q : α → Prop} (h : L.Ensures P x) (hP : ∀ a, P a → Q a) :
    L.Ensures Q x := by
  rw [← bind_pure x]
  exact L.bind h fun a ha => L.pure (hP a ha)

/-- A computation for each of a list. -/
theorem mapM {f : α → m β} {R : α → β → Prop} {l : List α}
    (h : ∀ a ∈ l, L.Ensures (R a) (f a)) : L.Ensures (List.Forall₂ R l) (l.mapM f) := by
  induction l with
  | nil => exact L.pure .nil
  | cons a l ih =>
    obtain ⟨ha, hl⟩ := List.forall_mem_cons.mp h
    rw [List.mapM_cons]
    apply L.bind ha
    intro b hb
    apply L.bind (ih hl)
    intro bs hbs
    exact L.pure (.cons hb hbs)

/-- Computations whose answers have one property. -/
theorem mapM_all {f : α → m β} {P : β → Prop} {l : List α} (h : ∀ a ∈ l, L.Ensures P (f a)) :
    L.Ensures (fun bs => ∀ b ∈ bs, P b) (l.mapM f) := by
  apply L.imp (L.mapM (R := fun _ => P) h)
  intro bs hbs
  clear h
  induction hbs with
  | nil => exact List.forall_mem_nil P
  | cons hb _ ih => exact List.forall_mem_cons.mpr ⟨hb, ih⟩

/-- Computations whose answers are known. -/
theorem mapM_eq {f : α → m β} {g : α → β} {l : List α}
    (h : ∀ a ∈ l, L.Ensures (· = g a) (f a)) : L.Ensures (· = l.map g) (l.mapM f) := by
  apply L.imp (L.mapM h)
  intro bs hbs
  induction hbs with
  | nil => rfl
  | cons hb _ ih => rw [hb, ih fun a ha => h a (List.mem_cons_of_mem _ ha), List.map_cons]

end Logic

end Patchwork
