import Patchwork.Outcome

/-!
# Channel values

The engine is written once for any `Channel` type.  Two are provided: `Float32`, in which every
operation rounds once to single precision and which the program runs on, and `Rat`, in which the
same pipeline is exact and its algebra can be studied.

## Main definitions

* `Channel` — arithmetic, order and the link to bytes.
* `Channel.ofByte`, `Channel.toByte` — between bytes and the unit interval.
* `Channel.ratio?` — a quotient, when it is meaningful.
-/

namespace Patchwork

/-- Arithmetic on the values of one channel. -/
class Channel (κ : Type) extends Zero κ, One κ, Add κ, Sub κ, Mul κ, Div κ, LT κ, LE κ, BEq κ,
    OfScientific κ where
  /-- The strict order can be decided. -/
  decidableLT : DecidableLT κ
  /-- The order can be decided. -/
  decidableLE : DecidableLE κ
  /-- The value is a number, not an overflow. -/
  isFinite : κ → Bool
  /-- The number a byte stands for. -/
  ofNatByte : UInt8 → κ
  /-- The whole part of a value between 0 and 255. -/
  floorByte : κ → UInt8

namespace Channel

variable {κ : Type} [Channel κ]

instance : DecidableLT κ := decidableLT

instance : DecidableLE κ := decidableLE

instance : Channel Float32 where
  zero := 0.0
  one := 1.0
  decidableLT := inferInstance
  decidableLE := inferInstance
  isFinite := Float32.isFinite
  ofNatByte := UInt8.toFloat32
  floorByte := Float32.toUInt8

instance : Channel Rat where
  zero := 0
  one := 1
  decidableLT := inferInstance
  decidableLE := inferInstance
  isFinite _ := true
  ofNatByte b := (b.toNat : Rat)
  floorByte v := UInt8.ofNat v.floor.toNat

/-- A byte as a value between 0 and 1. -/
def ofByte (b : UInt8) : κ := ofNatByte b / (255.0 : κ)

/-- The value cut to the unit interval. -/
def clampUnit (v : κ) : κ :=
  if v < 0 then 0 else if 1 < v then 1 else v

/-- The byte nearest to a value between 0 and 1, halves going up.  Values outside are cut to the
interval first, and what is no number gives zero. -/
def toByte (v : κ) : UInt8 :=
  if isFinite v then
    let scaled := clampUnit v * (255.0 : κ)
    let whole := floorByte scaled
    if (0.5 : κ) ≤ scaled - ofNatByte whole then whole + 1 else whole
  else 0

/-- The quotient, when the divisor is positive and both it and the quotient are numbers. -/
def ratio? (numerator divisor : κ) : Option κ :=
  if 0 < divisor ∧ isFinite divisor then
    let quotient := numerator / divisor
    if isFinite quotient then some quotient else none
  else none

/-- The larger of two values, the second of equal ones.  A second value that compares with nothing
is passed over. -/
def larger (a b : κ) : κ := if a ≤ b then b else a

/-- The smaller of two values, the second of equal ones.  A second value that compares with nothing
is passed over. -/
def smaller (a b : κ) : κ := if b ≤ a then b else a

end Channel

end Patchwork
