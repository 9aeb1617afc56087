import Patchwork.Proofs.Channel.Single

/-!
# Whole numbers in a channel

Distances are whole numbers, and a channel that rounds holds these exactly only up to a limit.  In
single precision every whole number of at most 24 bits has a form with exactly 24 bits, the lower
ones zero; adding one gives the form of the next, because the sum has at most 24 bits in front of
zeros and rounding only drops zeros.

## Main definitions

* `Channel.Integral` — a channel that holds whole numbers exactly up to a limit.
* `Single.whole`, `Single.value` — a whole number in single precision, and the rational number that
  a single-precision value stands for.

## Main statements

* `Single.round_whole`, `Single.unpack_pack_whole` — neither rounding nor packing changes a whole
  number.
* `Single.value_whole` — a whole number in single precision is that number.
* The instances `Channel.Integral Rat` and `Channel.Integral Float32`.
-/

namespace Patchwork.Channel

/-- A channel that holds whole numbers exactly up to a limit. -/
class Integral (κ : Type) [Channel κ] where
  /-- The value of a whole number. -/
  whole : Nat → κ
  /-- The whole number is within the limit. -/
  Exact : Nat → Prop
  /-- Everything below is within the limit, too. -/
  exact_of_le {m n : Nat} : m ≤ n → Exact n → Exact m
  /-- Zero is zero. -/
  whole_zero : whole 0 = 0
  /-- Counting gives the next number. -/
  whole_succ {n : Nat} : Exact (n + 1) → whole n + 1 = whole (n + 1)
  /-- The order is that of the numbers. -/
  whole_le_iff {m n : Nat} : Exact m → Exact n → (whole m ≤ whole n ↔ m ≤ n)
  /-- Only zero equals zero. -/
  whole_beq_zero_iff {n : Nat} : Exact n → ((whole n == 0) = true ↔ n = 0)

export Integral (whole Exact)

theorem smaller_whole {κ : Type} [Channel κ] [Integral κ] {m n : Nat} (hm : Exact κ m)
    (hn : Exact κ n) : smaller (whole m : κ) (whole n) = whole (min m n) := by
  rw [smaller]
  split
  · next h => rw [min_eq_right ((Integral.whole_le_iff hn hm).mp h)]
  · next h =>
    have hlt : ¬ n ≤ m := fun hle => h ((Integral.whole_le_iff hn hm).mpr hle)
    rw [min_eq_left (by omega)]

/-- The rationals hold every whole number. -/
instance : Integral Rat where
  whole n := (n : ℚ)
  Exact _ := True
  exact_of_le _ _ := trivial
  whole_zero := Nat.cast_zero (R := ℚ)
  whole_succ {n} _ := (Nat.cast_succ (R := ℚ) n).symm
  whole_le_iff {m n} _ _ := Nat.cast_le (α := ℚ)
  whole_beq_zero_iff {n} _ := show ((n : ℚ) == 0) = true ↔ n = 0 by
    rw [beq_iff_eq, Nat.cast_eq_zero]

namespace Single

open Float.Model Float.Model.UnpackedFloat

/-! ## Rounding without loss -/

theorem log2_mul_two_pow {n : Nat} (hn : n ≠ 0) (s : Nat) : (n * 2 ^ s).log2 = n.log2 + s := by
  obtain ⟨hlow, hhigh⟩ := (Nat.log2_eq_iff hn).mp rfl
  rw [Nat.log2_eq_iff (Nat.mul_ne_zero hn (Nat.two_pow_pos s).ne')]
  constructor
  · rw [Nat.pow_add]
    exact Nat.mul_le_mul_right _ hlow
  · rw [Nat.add_right_comm, Nat.pow_add]
    exact Nat.mul_lt_mul_of_pos_right hhigh (Nat.two_pow_pos s)

/-- Shifting out zeros leaves nothing behind. -/
theorem shiftRight_exact (m s : Nat) :
    ExtendedMantissa.ofMantissaAndAccuracy (m * 2 ^ s) .exact >>> s = ⟨m, false, false⟩ := by
  induction s generalizing m with
  | zero => rw [Nat.pow_zero, Nat.mul_one]; rfl
  | succ s ih =>
    have hshift : ExtendedMantissa.ofMantissaAndAccuracy (m * 2 ^ (s + 1)) .exact >>> (s + 1) =
        (ExtendedMantissa.ofMantissaAndAccuracy (m * 2 * 2 ^ s) .exact >>> s).shiftRightOne := by
      rw [Nat.pow_succ', ← Nat.mul_assoc]
      rfl
    rw [hshift, ih]
    simp [ExtendedMantissa.shiftRightOne]

/-- A mantissa of 24 bits followed by zeros is rounded to the 24 bits. -/
theorem roundWithAccuracy_exact {m s : Nat} {e : Int} (hlow : 2 ^ 23 ≤ m) (hhigh : m < 2 ^ 24)
    (he : -149 ≤ e) :
    roundWithAccuracy Format.binary32 .positive (m * 2 ^ s) e .exact =
      .finite .positive m (e + s) (by omega) := by
  have hm : m ≠ 0 := by omega
  have hlog : m.log2 = 23 := (Nat.log2_eq_iff hm).mpr ⟨hlow, hhigh⟩
  have hshift : (m * 2 ^ s).log2 - 23 = s := by
    rw [log2_mul_two_pow hm, hlog]
    omega
  have he' : -149 ≤ e + (s : Int) := by omega
  have hnone := shiftRight_exact m 0
  rw [Nat.pow_zero, Nat.mul_one] at hnone
  simp only [roundWithAccuracy, shiftToTargetExponent, shiftToExponent, shiftAmount_eq he, hshift,
    shiftRight_exact]
  have hrounded : (ExtendedMantissa.mk m false false).roundedMantissa = m := rfl
  simp only [hrounded, shiftAmount_eq he', hlog, Nat.sub_self, hnone]
  rw [dif_neg hm]
  simp

/-- A whole number in the form with 24 bits. -/
def unpackedWhole (n : Nat) : UnpackedFloat :=
  if h : n = 0 then .zero .positive
  else .finite .positive (n * 2 ^ (23 - n.log2)) (n.log2 - 23)
    (Nat.mul_pos (Nat.pos_of_ne_zero h) (Nat.two_pow_pos _))

/-- The form has 24 bits. -/
theorem mantissa_bounds {n : Nat} (hn : n ≠ 0) (h : n < 2 ^ 24) :
    2 ^ 23 ≤ n * 2 ^ (23 - n.log2) ∧ n * 2 ^ (23 - n.log2) < 2 ^ 24 := by
  have hlog := (Nat.log2_lt hn).mpr h
  have hm : n * 2 ^ (23 - n.log2) ≠ 0 := Nat.mul_ne_zero hn (Nat.two_pow_pos _).ne'
  apply (Nat.log2_eq_iff hm).mp
  rw [log2_mul_two_pow hn]
  omega

/-- A whole number of at most 24 bits, with zeros behind it, is rounded to itself. -/
theorem round_whole {n j : Nat} (hn : n ≠ 0) (h : n < 2 ^ 24) (hj : j ≤ 149) :
    UnpackedFloat.round Format.binary32 .positive (n * 2 ^ j) (-(j : Int)) = unpackedWhole n := by
  have hlog := (Nat.log2_lt hn).mpr h
  obtain ⟨hlow, hhigh⟩ := mantissa_bounds hn h
  have htarget : Format.binary32.targetExponent (totalExponent (n * 2 ^ j) (-(j : Int))) =
      n.log2 - 23 := by
    have hmax : Format.binary32.targetExponent (totalExponent (n * 2 ^ j) (-(j : Int))) =
        max ((n * 2 ^ j).log2 + 1 + -(j : Int) - 24) (-149) := rfl
    rw [hmax, log2_mul_two_pow hn]
    omega
  have hpad : (-(j : Int) - (n.log2 - 23)).toNat = 23 - n.log2 - j := by omega
  have hsplit : n * 2 ^ j * 2 ^ (23 - n.log2 - j) =
      n * 2 ^ (23 - n.log2) * 2 ^ (j - (23 - n.log2)) := by
    rw [Nat.mul_assoc, Nat.mul_assoc, ← Nat.pow_add, ← Nat.pow_add]
    congr 2
    omega
  simp only [UnpackedFloat.round, decreaseExponent, htarget, hpad, Nat.shiftLeft_eq, hsplit]
  rw [roundWithAccuracy_exact hlow hhigh (by omega), unpackedWhole, dif_neg hn]
  congr 1
  omega

/-- Packing keeps a mantissa of 24 bits with an exponent in range. -/
theorem unpack_pack_normal {m : Nat} {e : Int} (hlow : 2 ^ 23 ≤ m) (hhigh : m < 2 ^ 24)
    (he : -149 ≤ e) (he' : e ≤ 104) :
    UnpackedFloat.unpack Format.binary32 (UnpackedFloat.pack Format.binary32
      (.finite .positive m e (by omega))) = .finite .positive m e (by omega) := by
  have hm : m ≠ 0 := by omega
  have hlog : m.log2 = 23 := (Nat.log2_eq_iff hm).mpr ⟨hlow, hhigh⟩
  have hbias : Format.binary32.exponentBias = 127 := rfl
  have hbits : Format.binary32.mantissaBits = 24 := rfl
  obtain ⟨biased, hbiased⟩ : ∃ biased, (e + (127 : Nat) + (23 : Nat)).toNat = biased := ⟨_, rfl⟩
  have hmost : ¬ 2 ^ 8 ≤ biased + 1 := by omega
  have hexponent : (BitVec.ofNat 8 biased).toNat = biased := by
    rw [BitVec.toNat_ofNat]
    omega
  have hnumber : BitVec.ofNat 8 biased ≠ -1#8 := fun heq => by
    have hmax : (-1#8).toNat = 255 := rfl
    rw [heq, hmax] at hexponent
    omega
  have hnormal : BitVec.ofNat 8 biased ≠ 0#8 := fun heq => by
    have hmin : (0#8).toNat = 0 := rfl
    rw [heq, hmin] at hexponent
    omega
  have hleading : (1#1 ++ BitVec.ofNat 23 m).toNat = m := by
    rw [BitVec.toNat_append, BitVec.toNat_ofNat, BitVec.toNat_ofNat]
    rw [← Nat.shiftLeft_add_eq_or_of_lt (Nat.mod_lt _ (Nat.two_pow_pos 23)), Nat.shiftLeft_eq]
    omega
  simp only [UnpackedFloat.pack, hbias, hbits, hlog, hbiased, hmost, if_true, if_false,
    UnpackedFloat.unpack, unpackMantissa_packComponents, unpackExponent_packComponents,
    unpackSign_packComponents, Sign.ofBitVec_toBitVec, hnumber, hnormal, hexponent, hleading]
  congr 1
  omega

/-- Packing keeps a whole number of at most 24 bits. -/
theorem unpack_pack_whole {n : Nat} (h : n < 2 ^ 24) :
    UnpackedFloat.unpack Format.binary32 (UnpackedFloat.pack Format.binary32 (unpackedWhole n)) =
      unpackedWhole n := by
  by_cases hn : n = 0
  · subst hn
    rfl
  have hlog := (Nat.log2_lt hn).mpr h
  obtain ⟨hlow, hhigh⟩ := mantissa_bounds hn h
  rw [unpackedWhole, dif_neg hn]
  exact unpack_pack_normal hlow hhigh (by omega) (by omega)

/-- One more. -/
theorem add_one_whole {n : Nat} (h : n + 1 < 2 ^ 24) :
    UnpackedFloat.add Format.binary32 (unpackedWhole n) (unpackedWhole 1) =
      unpackedWhole (n + 1) := by
  by_cases hn : n = 0
  · subst hn
    rfl
  have hlog := (Nat.log2_lt hn).mpr (Nat.lt_of_succ_lt h)
  have hone : unpackedWhole 1 = .finite .positive (2 ^ 23) (-23) (by decide) := rfl
  have hmin : min ((n.log2 : Int) - 23) (-23) = -23 := by omega
  have hpad : ((n.log2 : Int) - 23 - -23).toNat = n.log2 := by omega
  have hscaled : n * 2 ^ (23 - n.log2) * 2 ^ n.log2 = n * 2 ^ 23 := by
    rw [Nat.mul_assoc, ← Nat.pow_add]
    congr 2
    omega
  have hsum : ((n * 2 ^ 23 : Nat) : Int) + ((2 ^ 23 : Nat) : Int) =
      (((n + 1) * 2 ^ 23 : Nat) : Int) := by
    omega
  rw [hone, unpackedWhole, dif_neg hn]
  simp only [UnpackedFloat.add, decreaseExponent, hmin, hpad, Nat.shiftLeft_eq, hscaled, Sign.apply,
    Int.sub_self, Int.toNat_zero, Nat.pow_zero, Nat.mul_one, hsum, UnpackedFloat.normalize]
  have hpos : (0 : Int) < (((n + 1) * 2 ^ 23 : Nat) : Int) := by omega
  rw [Int.compare_eq_gt.mpr hpos]
  simp only [Int.toNat_natCast]
  exact round_whole (j := 23) (Nat.succ_ne_zero n) h (by decide)

theorem nonNegative_whole (n : Nat) : NonNegative (unpackedWhole n) := by
  unfold unpackedWhole
  split <;> trivial

theorem order_swap (a b : Nat × Int × Nat) : (order a b).swap = order b a := by
  simp only [order, Ordering.swap_then, Nat.compare_swap, Int.compare_swap]

/-- The smaller of two whole numbers has the lower place. -/
theorem order_whole_of_lt {m n : Nat} (h : m < n) :
    order (place (unpackedWhole m)) (place (unpackedWhole n)) = .lt := by
  have hn0 : n ≠ 0 := by omega
  have hplace : place (unpackedWhole n) = (1, (n.log2 : Int) - 23, n * 2 ^ (23 - n.log2)) := by
    rw [unpackedWhole, dif_neg hn0, place]
  rw [order_eq_lt, hplace]
  by_cases hm : m = 0
  · subst hm
    exact .inl Nat.one_pos
  have hplace' : place (unpackedWhole m) = (1, (m.log2 : Int) - 23, m * 2 ^ (23 - m.log2)) := by
    rw [unpackedWhole, dif_neg hm, place]
  have hlog : m.log2 ≤ n.log2 :=
    (Nat.le_log2 hn0).mpr ((Nat.log2_self_le hm).trans h.le)
  rw [hplace']
  refine .inr ⟨rfl, ?_⟩
  rcases hlog.lt_or_eq with hlt | heq
  · exact .inl (Int.sub_lt_sub_right (Int.ofNat_lt.mpr hlt) 23)
  · rw [heq]
    exact .inr ⟨rfl, Nat.mul_lt_mul_of_pos_right h (Nat.two_pow_pos _)⟩

/-- Whole numbers compare as they are. -/
theorem compare_whole (m n : Nat) :
    (unpackedWhole m).compare (unpackedWhole n) = some (compare m n) := by
  rw [compare_eq (nonNegative_whole m) (nonNegative_whole n), Option.some.injEq]
  rcases Nat.lt_trichotomy m n with hlt | rfl | hgt
  · rw [order_whole_of_lt hlt, Nat.compare_eq_lt.mpr hlt]
  · rw [order_eq_eq.mpr ⟨rfl, rfl, rfl⟩, Nat.compare_eq_eq.mpr rfl]
  · rw [← order_swap, order_whole_of_lt hgt, Nat.compare_eq_gt.mpr hgt]
    rfl

/-- The rational number that a single-precision value stands for. -/
def value (a : Float32) : Option ℚ :=
  match a.toModel.unpack with
  | .zero _ => some 0
  | .finite sign m e _ => some ((sign.apply m : ℚ) * 2 ^ e)
  | _ => none

/-- The single-precision value of a whole number. -/
def whole (n : Nat) : Float32 := .ofModel (.ofNat n)

theorem toModel_whole {n : Nat} (h : n < 2 ^ 24) :
    (whole n).toModel = .pack (unpackedWhole n) := by
  have hround : UnpackedFloat.ofNat Format.binary32 n = unpackedWhole n := by
    by_cases hn : n = 0
    · subst hn
      rfl
    have hpos : (0 : Int) < (n : Int) := by omega
    rw [UnpackedFloat.ofNat, UnpackedFloat.ofInt, UnpackedFloat.normalize,
      Int.compare_eq_gt.mpr hpos]
    have := round_whole (j := 0) hn h (by decide)
    rwa [Nat.pow_zero, Nat.mul_one] at this
  rw [whole, Float32.Model.ofNat, hround]

theorem unpack_whole {n : Nat} (h : n < 2 ^ 24) : (whole n).toModel.unpack = unpackedWhole n := by
  rw [toModel_whole h]
  exact unpack_pack_whole h

/-- Whole numbers of at most 24 bits are held exactly. -/
theorem value_whole {n : Nat} (h : n < 2 ^ 24) : value (whole n) = some (n : ℚ) := by
  rw [value, unpack_whole h]
  by_cases hn : n = 0
  · subst hn
    rfl
  have hlog := (Nat.log2_lt hn).mpr h
  rw [unpackedWhole, dif_neg hn]
  have hexponent : (n.log2 : Int) - 23 = -((23 - n.log2 : Nat) : Int) := by omega
  simp only [Sign.apply, hexponent, zpow_neg, zpow_natCast, Int.cast_natCast, Nat.cast_mul,
    Nat.cast_pow, Nat.cast_ofNat, Int.cast_mul, Int.cast_pow, Int.cast_ofNat]
  rw [mul_assoc, mul_inv_cancel₀ (pow_ne_zero _ two_ne_zero), mul_one]

variable {m n : Nat}

theorem whole_le_iff (hm : m < 2 ^ 24) (hn : n < 2 ^ 24) : whole m ≤ whole n ↔ m ≤ n := by
  have hle : whole m ≤ whole n ↔
      ((whole m).toModel.unpack.compare (whole n).toModel.unpack).any (·.isLE) = true :=
    decide_eq_true_iff
  rw [hle, unpack_whole hm, unpack_whole hn, compare_whole, Option.any_some, Nat.isLE_compare]

theorem whole_beq_zero_iff (hn : n < 2 ^ 24) : (whole n == 0) = true ↔ n = 0 := by
  have hbeq : (whole n == 0) =
      ((whole n).toModel.unpack.compare (unpackedWhole 0) == some .eq) := rfl
  rw [hbeq, unpack_whole hn, compare_whole, beq_iff_eq, Option.some.injEq,
    Nat.compare_eq_eq]

theorem whole_succ (hn : n + 1 < 2 ^ 24) : whole n + 1 = whole (n + 1) := by
  have hsum : whole n + 1 = .ofModel (.pack (UnpackedFloat.add Format.binary32
      (whole n).toModel.unpack (unpackedWhole 1))) := rfl
  rw [hsum, unpack_whole (by omega), add_one_whole hn, ← toModel_whole hn]

/-- Single precision holds the whole numbers of at most 24 bits. -/
instance : Integral Float32 where
  whole := Single.whole
  Exact n := n < 2 ^ 24
  exact_of_le hle hn := Nat.lt_of_le_of_lt hle hn
  whole_zero := rfl
  whole_succ := whole_succ
  whole_le_iff := whole_le_iff
  whole_beq_zero_iff := whole_beq_zero_iff

end Single

end Patchwork.Channel
