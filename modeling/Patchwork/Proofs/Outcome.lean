import Patchwork.Outcome

/-!
# How an operation ends

An operation of the library answers, or stops with one of many failures.  Most statements about an
operation say both what its answer is and which failures are possible at all, so that "it answers"
follows once the possible failures are excluded.  `Outcome.Ends` states the two together; it is
composed along the operation's `do` block.

## Main definitions

* `Outcome.Ends` — an answer with a property, or a failure from a given set.
* `Outcome.IsOverflow`, `Outcome.IsRange` — a coordinate out of range; that, or a raster larger than
  any memory.
* `Coordinate.stepwise` — an answer, provided that a list of integers are coordinates.
-/

namespace Patchwork.Outcome

variable {α β γ : Type} {E E' : Failure → Prop} {P Q : α → Prop}

/-- The operation answers with `P`, or stops with a failure of `E`. -/
def Ends (E : Failure → Prop) (P : α → Prop) : Outcome α → Prop
  | .ok a => P a
  | .error cause => E cause

@[simp] theorem ends_ok {a : α} : Ends E P (.ok a) ↔ P a := Iff.rfl

@[simp] theorem ends_error {cause : Failure} : Ends E P (.error cause) ↔ E cause := Iff.rfl

@[simp] theorem ends_pure {a : α} : Ends E P (pure a) ↔ P a := Iff.rfl

theorem exists_eq_ok {x : Outcome α} (h : x.isOk) : ∃ a, x = .ok a := by
  cases x with
  | ok a => exact ⟨a, rfl⟩
  | error cause => cases h

/-- An answer that passes a test. -/
theorem exists_eq_ok_of_any (x : Outcome α) (test : α → Bool)
    (h : x.toOption.any test = true) : ∃ a, x = .ok a ∧ test a = true := by
  cases x with
  | ok a => exact ⟨a, rfl, h⟩
  | error cause => cases h

/-- A coordinate out of range. -/
def IsOverflow (cause : Failure) : Prop := cause = .fault .overflow

/-- A coordinate out of range, or a raster larger than any memory. -/
def IsRange (cause : Failure) : Prop := cause = .fault .overflow ∨ cause = .fault .capacity

theorem IsOverflow.isRange {cause : Failure} (h : IsOverflow cause) : IsRange cause := .inl h

namespace Ends

theorem mono {x : Outcome α} (h : Ends E P x) (hE : ∀ cause, E cause → E' cause)
    (hP : ∀ a, P a → Q a) : Ends E' Q x := by
  cases x with
  | ok a => exact hP a h
  | error cause => exact hE cause h

theorem imp {x : Outcome α} (h : Ends E P x) (hP : ∀ a, P a → Q a) : Ends E Q x :=
  h.mono (fun _ => id) hP

theorem weaken {x : Outcome α} (h : Ends E P x) (hE : ∀ cause, E cause → E' cause) :
    Ends E' P x :=
  h.mono hE fun _ => id

/-- An answer has the property. -/
theorem of_ok {x : Outcome α} {a : α} (h : Ends E P x) (hx : x = .ok a) : P a := by
  subst hx
  exact h

theorem of_error {x : Outcome α} {cause : Failure} (h : Ends E P x) (hx : x = .error cause) :
    E cause := by
  subst hx
  exact h

/-- Without any of the failures there is an answer. -/
theorem exists_ok {x : Outcome α} (h : Ends E P x) (hx : ∀ cause, E cause → x ≠ .error cause) :
    ∃ a, x = .ok a ∧ P a := by
  cases x with
  | ok a => exact ⟨a, rfl, h⟩
  | error cause => exact absurd rfl (hx cause h)

/-- A known answer that cannot fail. -/
theorem eq_ok {x : Outcome α} {a : α} (h : Ends (fun _ => False) (· = a) x) : x = .ok a := by
  obtain ⟨b, hx, rfl⟩ := h.exists_ok fun _ hc => hc.elim
  exact hx

theorem bind {x : Outcome α} {f : α → Outcome β} {R : β → Prop} (h : Ends E P x)
    (hf : ∀ a, P a → Ends E R (f a)) : Ends E R (x >>= f) := by
  cases x with
  | ok a => exact hf a h
  | error cause => exact h

/-- A step whose answer is known. -/
theorem bind_eq {x : Outcome α} {a : α} {f : α → Outcome β} {R : β → Prop}
    (h : Ends E (· = a) x) (hf : Ends E R (f a)) : Ends E R (x >>= f) := by
  apply h.bind
  intro b hb
  rwa [hb]

/-- A fold ends with an invariant of the part done so far, when each step keeps it.  The step may
use where in the list it stands. -/
theorem foldlM_split {f : β → γ → Outcome β} {I : List γ → β → Prop} {l : List γ} {b : β}
    (h0 : I [] b)
    (hstep : ∀ done c rest b, done ++ c :: rest = l → I done b →
      Ends E (I (done ++ [c])) (f b c)) :
    Ends E (I l) (l.foldlM f b) := by
  suffices h : ∀ (rest done : List γ) (b : β), done ++ rest = l → I done b →
      Ends E (I l) (rest.foldlM f b) from h l [] b rfl h0
  intro rest
  induction rest with
  | nil =>
    rintro done b rfl hb
    rwa [List.append_nil]
  | cons c rest ih =>
    rintro done b rfl hb
    rw [List.foldlM_cons]
    apply (hstep done c rest b rfl hb).bind
    intro b' hb'
    exact ih (done ++ [c]) b' (by simp) hb'

/-- A fold ends with an invariant of the part done so far, when each step keeps it. -/
theorem foldlM {f : β → γ → Outcome β} {I : List γ → β → Prop} {l : List γ} {b : β} (h0 : I [] b)
    (hstep : ∀ done c b, c ∈ l → I done b → Ends E (I (done ++ [c])) (f b c)) :
    Ends E (I l) (l.foldlM f b) :=
  foldlM_split h0 fun done c rest b hl => hstep done c b (hl ▸ by simp)

/-- A fold over the first numbers ends with an invariant of how many are done. -/
theorem foldlM_range {f : β → Nat → Outcome β} {I : Nat → β → Prop} {count : Nat} {b : β}
    (h0 : I 0 b) (hstep : ∀ k < count, ∀ b, I k b → Ends E (I (k + 1)) (f b k)) :
    Ends E (I count) ((List.range count).foldlM f b) := by
  induction count with
  | zero => exact h0
  | succ count ih =>
    rw [List.range_succ, List.foldlM_append]
    apply (ih fun k hk => hstep k (Nat.lt_succ_of_lt hk)).bind
    intro b' hb'
    rw [List.foldlM_cons]
    exact (hstep count (Nat.lt_succ_self count) b' hb').bind fun _ h => h

end Ends

theorem ends_require (condition : Prop) [Decidable condition] (otherwise : Failure) :
    Ends (fun cause => cause = otherwise ∧ ¬ condition) (fun _ => condition)
      (require condition otherwise) := by
  by_cases h : condition <;> simp [require, h]

theorem bind_eq_ok_iff {x : Outcome α} {f : α → Outcome β} {b : β} :
    x >>= f = .ok b ↔ ∃ a, x = .ok a ∧ f a = .ok b := by
  constructor
  · intro h
    cases x with
    | ok a => exact ⟨a, rfl, h⟩
    | error cause => cases h
  · rintro ⟨a, rfl, h⟩
    exact h

end Patchwork.Outcome

namespace Patchwork.Coordinate

open Outcome

/-- A step gives its exact result or overflows. -/
theorem ends_checked (v : Int) : Ends IsOverflow (fun w => w = v ∧ Fits v) (checked v) := by
  by_cases h : Fits v <;> simp [checked, h, IsOverflow]

/-- A step gives its exact result where an overflow is allowed or the result is a coordinate. -/
theorem ends_checked_of {E : Failure → Prop} {v : Int} (h : E (.fault .overflow) ∨ Fits v) :
    Ends E (· = v) (checked v) := by
  by_cases hfits : Fits v
  · simp [checked, hfits]
  · simpa [checked, hfits] using h

theorem ends_checked_eq (v : Int) : Ends IsOverflow (· = v) (checked v) :=
  ends_checked_of (.inl rfl)

/-- A step that stays in range gives its exact result. -/
theorem answers_checked {E : Failure → Prop} {v : Int} (h : Fits v) : Ends E (· = v) (checked v) :=
  ends_checked_of (.inr h)

/-- A position that is computed from coordinates and not before the origin. -/
theorem bind_position {β : Type} {E : Failure → Prop} {R : β → Prop} {v : Int}
    {f : Nat → Outcome β} (hv : 0 ≤ v) (h : E (.fault .overflow) ∨ v ≤ highest)
    (hf : Ends E R (f v.toNat)) : Ends E R (checked v >>= fun w => position w >>= f) := by
  have hfits : E (.fault .overflow) ∨ Fits v := by
    refine h.imp_right fun hhigh => ⟨?_, hhigh⟩
    simp only [lowest]
    omega
  have hposition : position v = .ok v.toNat := if_neg (Int.not_lt.mpr hv)
  refine (ends_checked_of hfits).bind_eq ?_
  rw [hposition]
  exact hf

/-! ## Answers step by step -/

section Stepwise

variable {α β : Type} {steps : List Int} {a c : α}

/-- The answer of a computation whose steps have these exact results, an overflow unless all of them
are coordinates. -/
def stepwise (steps : List Int) (a : α) : Outcome α :=
  if ∀ v ∈ steps, Fits v then .ok a else .error (.fault .overflow)

theorem stepwise_eq_ok_iff : stepwise steps a = .ok c ↔ (∀ v ∈ steps, Fits v) ∧ a = c := by
  unfold stepwise
  split
  · next h => simpa using fun _ => h
  · next h => simp [h]

theorem pure_eq_stepwise (a : α) : (pure a : Outcome α) = stepwise [] a := by
  rw [stepwise, if_pos (by simp)]
  rfl

/-- One step, and the steps of the computation that goes on with its result. -/
theorem checked_bind {v : Int} {f : Int → Outcome β} {b : β} (hf : f v = stepwise steps b) :
    checked v >>= f = stepwise (v :: steps) b := by
  by_cases hv : Fits v
  · rw [checked_of_fits hv]
    simp only [stepwise, List.forall_mem_cons, hv, true_and] at hf ⊢
    exact hf
  · simp only [checked, stepwise, List.forall_mem_cons, hv, false_and, if_false]
    rfl

theorem stepwise_bind {f : α → Outcome β} {b : β} (hf : f a = pure b) :
    stepwise steps a >>= f = stepwise steps b := by
  unfold stepwise
  split
  · exact hf
  · rfl

/-- The exact answer, where an overflow is allowed or all steps are coordinates. -/
theorem ends_stepwise_of {E : Failure → Prop}
    (h : E (.fault .overflow) ∨ ∀ v ∈ steps, Fits v) : Ends E (· = a) (stepwise steps a) := by
  unfold stepwise
  split
  · exact rfl
  · next hnot => exact h.resolve_right hnot

end Stepwise

end Patchwork.Coordinate
