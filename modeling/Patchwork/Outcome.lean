import Patchwork.Problem

/-!
# Outcomes

Every operation of the library either answers or stops with a `Failure`.  A `Problem` is a refusal
that callers handle; a `Fault` says that a computation left the range in which it is defined, and
nothing after it can be trusted.

Coordinates are 32-bit: a step whose exact result lies outside that range is a fault, never a
wrapped value.  `Coordinate.checked` is the one place where this is decided.
-/

namespace Patchwork

/-- A computation left the range in which it is defined. -/
inductive Fault
  /-- An integer does not fit its width. -/
  | overflow
  /-- A position outside a raster. -/
  | outOfBounds
  /-- A raster larger than any memory. -/
  | capacity
  /-- Two computations of one value disagree. -/
  | disagreement
  /-- A recipe broke off. -/
  | brokenRecipe
  deriving DecidableEq

/-- Why an operation stopped. -/
inductive Failure
  /-- The computation is undefined here. -/
  | fault (cause : Fault)
  /-- The request is refused. -/
  | problem (cause : Problem)
  deriving DecidableEq

/-- An answer, or why there is none. -/
abbrev Outcome (α : Type) := Except Failure α

namespace Outcome

/-- Refuse the request. -/
def refuse {α : Type} (cause : Problem) : Outcome α := .error (.problem cause)

/-- Refuse a wrong value. -/
def invalid {α : Type} (cause : Invalid) : Outcome α := refuse (.validation cause)

/-- Report an image that could not be made. -/
def undelivered {α : Type} (cause : Undelivered) : Outcome α := refuse (.generation cause)

/-- Report what stood in the way. -/
def blocked {α : Type} (cause : Blocked) : Outcome α := refuse (.other cause)

/-- Stop: the computation is undefined here. -/
def undefinedAt {α : Type} (cause : Fault) : Outcome α := .error (.fault cause)

/-- Go on only under a condition. -/
def require (condition : Prop) [Decidable condition] (otherwise : Failure) : Outcome Unit :=
  if condition then .ok () else .error otherwise

@[simp] theorem require_eq_ok_iff {condition : Prop} [Decidable condition] {otherwise : Failure} :
    require condition otherwise = .ok () ↔ condition := by
  by_cases h : condition <;> simp [require, h]

end Outcome

namespace Coordinate

/-- The least coordinate. -/
def lowest : Int := -2147483648

/-- The greatest coordinate. -/
def highest : Int := 2147483647

/-- The integer is a coordinate. -/
def Fits (v : Int) : Prop := lowest ≤ v ∧ v ≤ highest

instance (v : Int) : Decidable (Fits v) := inferInstanceAs (Decidable (_ ∧ _))

/-- The result of one arithmetic step, when it is a coordinate. -/
def checked (v : Int) : Outcome Int :=
  if Fits v then .ok v else .error (.fault .overflow)

theorem checked_eq_ok_iff {v w : Int} : checked v = .ok w ↔ Fits v ∧ v = w := by
  by_cases h : Fits v <;> simp [checked, h]

@[simp] theorem checked_of_fits {v : Int} (h : Fits v) : checked v = .ok v := by
  simp [checked, h]

/-- A raster's side as a coordinate, sides beyond the range cut to the greatest coordinate. -/
def ofSide (n : Nat) : Int := min (n : Int) highest

/-- A coordinate as a position to count from; a negative one lies in no raster. -/
def position (v : Int) : Outcome Nat :=
  if v < 0 then Outcome.undefinedAt .outOfBounds else .ok v.toNat

/-- The columns or rows `start, start + 1, …` of `count` pixels are all coordinates. -/
def run (start : Int) (count : Nat) : Outcome Unit :=
  Outcome.require (count = 0 ∨ Fits (start + (count - 1 : Nat))) (.fault .overflow)

end Coordinate

/-- Largest value of a machine word, in which sizes are counted. -/
def wordMax : Nat := 18446744073709551615

/-- Largest number of bytes one block of memory may have. -/
def blockMax : Nat := 9223372036854775807

/-- A size in bytes, sizes beyond a machine word cut to its largest value. -/
def saturated (n : Nat) : Nat := min n wordMax

end Patchwork
