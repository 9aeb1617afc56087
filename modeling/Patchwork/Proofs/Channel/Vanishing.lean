import Patchwork.Proofs.Channel.Single

/-!
# Scaling to nothing

A pixel without coverage is scaled by zero divided by its alpha.  In single precision the products
may then be zeros of either sign, or no numbers at all where a channel was infinite.  Those that are
numbers compare equal to zero.

## Main definitions

* `Channel.Vanishing` — what is a number after such a scaling is zero.

The rationals and single precision both have it.
-/

namespace Patchwork.Channel

/-- Scaling to coverage zero leaves nothing, as far as it leaves numbers. -/
class Vanishing (κ : Type) [Channel κ] : Prop where
  /-- Zero equals itself. -/
  zero_beq : ((0 : κ) == 0) = true
  /-- A channel scaled by zero over a positive number is zero, if it is a number. -/
  scaled_beq {alpha c : κ} : 0 < alpha → isFinite alpha = true →
    isFinite (c * (0 / alpha)) = true → (c * (0 / alpha) == 0) = true

instance : Vanishing Rat where
  zero_beq := beq_self_eq_true (0 : ℚ)
  scaled_beq {alpha c} _ _ _ := show ((c : ℚ) * (0 / alpha) == 0) = true by simp

namespace Single

open Float.Model Float.Model.UnpackedFloat

theorem unpack_packedZero (sign : Sign) :
    UnpackedFloat.unpack Format.binary32 (packedZero Format.binary32 sign) = .zero sign := by
  cases sign <;> rfl

theorem unpack_packedNaN :
    UnpackedFloat.unpack Format.binary32 (packedNaN Format.binary32) = .notANumber := rfl

variable {a b : Float32}

theorem unpack_mul (a b : Float32) :
    (a * b).toModel.unpack = UnpackedFloat.unpack Format.binary32 (UnpackedFloat.pack
      Format.binary32 (UnpackedFloat.mul Format.binary32 a.toModel.unpack b.toModel.unpack)) :=
  rfl

theorem unpack_div (a b : Float32) :
    (a / b).toModel.unpack = UnpackedFloat.unpack Format.binary32 (UnpackedFloat.pack
      Format.binary32 (UnpackedFloat.div Format.binary32 a.toModel.unpack b.toModel.unpack)) :=
  rfl

/-- Zero over a positive number is zero. -/
theorem unpack_zero_div (hpos : 0 < a) (hfinite : isFinite a = true) :
    ∃ sign, ((0 : Float32) / a).toModel.unpack = .zero sign := by
  have hzero : (0 : Float32).toModel.unpack = .zero .positive := rfl
  have hlt : (UnpackedFloat.compare (.zero .positive) a.toModel.unpack == some .lt) = true :=
    of_decide_eq_true hpos
  have hnumber : a.toModel.unpack.isFinite = true := hfinite
  rw [unpack_div, hzero]
  cases ha : a.toModel.unpack with
  | notANumber | infinity =>
    rw [ha] at hnumber
    cases hnumber
  | zero sign =>
    rw [ha] at hlt
    cases hlt
  | finite sign m e hm => exact ⟨_, unpack_packedZero _⟩

/-- A number times zero is zero; what is no number stays none. -/
theorem unpack_mul_zero {sign : Sign} (hb : b.toModel.unpack = .zero sign)
    (hfinite : isFinite (a * b) = true) : ∃ sign, (a * b).toModel.unpack = .zero sign := by
  have hnumber : (a * b).toModel.unpack.isFinite = true := hfinite
  rw [unpack_mul, hb] at hnumber ⊢
  cases ha : a.toModel.unpack with
  | notANumber | infinity =>
    rw [ha] at hnumber
    exact absurd hnumber (by simp only [UnpackedFloat.mul, UnpackedFloat.pack, unpack_packedNaN,
      UnpackedFloat.isFinite, Bool.false_eq_true, not_false_iff])
  | zero | finite => exact ⟨_, unpack_packedZero _⟩

instance : Vanishing Float32 where
  zero_beq := rfl
  scaled_beq {alpha c} hpos hfinite hnumber := by
    obtain ⟨sign, hquotient⟩ := unpack_zero_div hpos hfinite
    obtain ⟨sign, hproduct⟩ := unpack_mul_zero hquotient hnumber
    have hbeq :
        ((c * (0 / alpha)).toModel.unpack.compare (.zero .positive) == some .eq) = true := by
      rw [hproduct]
      rfl
    exact hbeq

end Single

end Patchwork.Channel
