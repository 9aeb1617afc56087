import Patchwork.Proofs.Channel.Vanishing
import Patchwork.Proofs.Channel.Whole

/-!
# Rounding in single precision

A product, a quotient or a difference is computed exactly and then rounded once.  Rounding drops the
bits after the first 24 and may add one unit to what is left, so it changes a value by a factor of
at most `slack`.  Errors of this kind multiply, and a chain of operations is off by as many factors
as it has roundings, as long as no value on the way leaves the range of normal numbers.

## Main definitions

* `Single.Near` — equal up to so many roundings.
* `Single.Moderate` — numbers far from both ends of the range.

## Main statements

* `Single.roundWithAccuracy_near` — rounding once.
* `Single.value_mul`, `Single.value_div`, `Single.value_sub` — the operations.
* `Single.le_iff_value`, `Single.lt_iff_value` — the order is that of the numbers.
* `Single.floorByte_eq` — the whole part.
-/

namespace Patchwork.Channel.Single

open Float.Model Float.Model.UnpackedFloat

/-! ## Nearness -/

/-- The greatest factor by which rounding once changes a value. -/
def slack : ℚ := 1 + 1 / 2 ^ 23

theorem one_le_slack : 1 ≤ slack := by norm_num [slack]

theorem slack_pow_pos (k : Nat) : 0 < slack ^ k := pow_pos (by norm_num [slack]) k

/-- Equal up to so many roundings. -/
structure Near (k : Nat) (p q : ℚ) : Prop where
  /-- Not too large. -/
  le : p ≤ q * slack ^ k
  /-- Not too small. -/
  ge : q ≤ p * slack ^ k

namespace Near

variable {j k : Nat} {p q r s : ℚ}

theorem refl (p : ℚ) : Near 0 p p := by constructor <;> rw [pow_zero, mul_one]

theorem symm (h : Near k p q) : Near k q p := ⟨h.ge, h.le⟩

theorem pos (h : Near k p q) (hq : 0 < q) : 0 < p :=
  pos_of_mul_pos_left (hq.trans_le h.ge) (slack_pow_pos k).le

theorem trans (hpq : Near j p q) (hqr : Near k q r) : Near (j + k) p r where
  le := calc
    p ≤ q * slack ^ j := hpq.le
    _ ≤ r * slack ^ k * slack ^ j := mul_le_mul_of_nonneg_right hqr.le (slack_pow_pos j).le
    _ = r * slack ^ (j + k) := by ring
  ge := calc
    r ≤ q * slack ^ k := hqr.ge
    _ ≤ p * slack ^ j * slack ^ k := mul_le_mul_of_nonneg_right hpq.ge (slack_pow_pos k).le
    _ = p * slack ^ (j + k) := by ring

theorem mono (h : Near j p q) (hq : 0 < q) (hjk : j ≤ k) : Near k p q where
  le := h.le.trans (mul_le_mul_of_nonneg_left (pow_le_pow_right₀ one_le_slack hjk) hq.le)
  ge := h.ge.trans (mul_le_mul_of_nonneg_left (pow_le_pow_right₀ one_le_slack hjk) (h.pos hq).le)

theorem scale (h : Near k p q) (hr : 0 ≤ r) : Near k (p * r) (q * r) where
  le := (mul_le_mul_of_nonneg_right h.le hr).trans_eq (mul_right_comm ..)
  ge := (mul_le_mul_of_nonneg_right h.ge hr).trans_eq (mul_right_comm ..)

theorem mul (hpq : Near j p q) (hrs : Near k r s) (hq : 0 < q) (hs : 0 < s) :
    Near (j + k) (p * r) (q * s) := by
  have hright := hrs.scale (hpq.pos hq).le
  rw [mul_comm r p, mul_comm s p] at hright
  rw [Nat.add_comm]
  exact hright.trans (hpq.scale hs.le)

theorem inv (h : Near k p q) (hq : 0 < q) : Near k p⁻¹ q⁻¹ := by
  have hp := h.pos hq
  have hswap := h.symm.scale (inv_nonneg.mpr (mul_pos hp hq).le)
  rwa [mul_inv, ← mul_assoc, mul_right_comm, mul_inv_cancel₀ hq.ne', one_mul, ← mul_assoc,
    mul_inv_cancel₀ hp.ne', one_mul] at hswap

theorem div (hpq : Near j p q) (hrs : Near k r s) (hq : 0 < q) (hs : 0 < s) :
    Near (j + k) (p / r) (q / s) := by
  rw [div_eq_mul_inv, div_eq_mul_inv]
  exact hpq.mul (hrs.inv hs) hq (inv_pos.mpr hs)

end Near

/-! ## Rounding once -/

theorem roundedMantissa_le (em : ExtendedMantissa) : em.roundedMantissa ≤ em.mantissa + 1 := by
  unfold ExtendedMantissa.roundedMantissa Accuracy.roundToNearestEven
  split <;> omega

/-- At least 24 bits are shifted to exactly 24. -/
theorem two_pow_le_div {m : Nat} (hm : 2 ^ 23 ≤ m) : 2 ^ 23 ≤ m / 2 ^ (m.log2 - 23) := by
  have hm0 : m ≠ 0 := by omega
  have hlog := (Nat.le_log2 hm0).mpr hm
  rw [Nat.le_div_iff_mul_le (Nat.two_pow_pos _), ← Nat.pow_add, Nat.add_sub_cancel' hlog]
  exact Nat.log2_self_le hm0

/-- The carry of a rounded mantissa is shifted out without loss. -/
theorem carry_exact {r : Nat} (hlow : 2 ^ 23 ≤ r) (hhigh : r ≤ 2 ^ 24) :
    r / 2 ^ (r.log2 - 23) * 2 ^ (r.log2 - 23) = r := by
  rcases hhigh.lt_or_eq with hlt | rfl
  · have hlog : r.log2 = 23 := (Nat.log2_eq_iff (by omega)).mpr ⟨hlow, hlt⟩
    rw [hlog, Nat.sub_self, Nat.pow_zero, Nat.div_one, Nat.mul_one]
  · rw [Nat.log2_two_pow]
    norm_num

/-- **Rounding once.**  A number known up to one unit of a mantissa of at least 24 bits is rounded
to a normal number near it. -/
theorem roundWithAccuracy_near {m : Nat} (hm : 2 ^ 23 ≤ m) {e : Int} (he : -149 ≤ e)
    (accuracy : Accuracy) {x : ℚ} (hlow : m ≤ x) (hhigh : x < m + 1) :
    ∃ n f, ∃ hn : 2 ^ 23 ≤ n,
      roundWithAccuracy Format.binary32 .positive m e accuracy =
        .finite .positive n f (by omega) ∧
      n < 2 ^ 24 ∧ -149 ≤ f ∧ Near 1 (n * 2 ^ f) (x * 2 ^ e) := by
  obtain ⟨s, hs⟩ : ∃ s, m.log2 - 23 = s := ⟨_, rfl⟩
  obtain ⟨t, ht⟩ : ∃ t, m / 2 ^ s = t := ⟨_, rfl⟩
  obtain ⟨r, hr⟩ : ∃ r,
      (ExtendedMantissa.ofMantissaAndAccuracy m accuracy >>> s).roundedMantissa = r := ⟨_, rfl⟩
  have hmantissa : (ExtendedMantissa.ofMantissaAndAccuracy m accuracy >>> s).mantissa = t := by
    rw [mantissa_shiftRight, mantissa_ofMantissaAndAccuracy, ht]
  have hbits : 2 ^ 23 ≤ t ∧ t < 2 ^ 24 := by
    rw [← ht, ← hs]
    exact ⟨two_pow_le_div hm, div_pow_lt m⟩
  have hrlow : t ≤ r := by rw [← hmantissa, ← hr]; exact mantissa_le_roundedMantissa _
  have hrhigh : r ≤ t + 1 := by rw [← hmantissa, ← hr]; exact roundedMantissa_le _
  have hr24 : 2 ^ 23 ≤ r := by omega
  have he' : -149 ≤ e + (s : Int) := by omega
  have hcarry := carry_exact hr24 (by omega)
  refine ⟨r / 2 ^ (r.log2 - 23), e + s + ((r.log2 - 23 : Nat) : Int), two_pow_le_div hr24, ?_,
    div_pow_lt r, by omega, ?_⟩
  · simp only [roundWithAccuracy, shiftToTargetExponent, shiftToExponent, shiftAmount_eq he, hs, hr,
      shiftAmount_eq he', mantissa_shiftRight, mantissa_ofMantissaAndAccuracy]
    rw [dif_neg (Nat.ne_of_gt (div_pow_pos (by omega)))]
  · -- the unit of the mantissa that is left is at most one part in two to the 23 of it
    have hunit : ((t : ℚ) + 1) ≤ t * slack := by
      have : (2 ^ 23 : ℚ) ≤ t := by exact_mod_cast hbits.1
      rw [slack]
      linarith
    have hshift : (0 : ℚ) < 2 ^ s := by positivity
    have hxlow : (t : ℚ) * 2 ^ s ≤ x := by
      have : t * 2 ^ s ≤ m := ht ▸ Nat.div_mul_le_self m (2 ^ s)
      exact le_trans (by exact_mod_cast this) hlow
    have hxhigh : x ≤ ((t : ℚ) + 1) * 2 ^ s := by
      have : m + 1 ≤ (t + 1) * 2 ^ s :=
        ht ▸ Nat.lt_mul_of_div_lt (Nat.lt_succ_self _) (Nat.two_pow_pos s)
      exact hhigh.le.trans (by exact_mod_cast this)
    have hnear : Near 1 ((r : ℚ) * 2 ^ s) x := by
      have hrlow' : (t : ℚ) ≤ r := by exact_mod_cast hrlow
      have hrhigh' : (r : ℚ) ≤ t + 1 := by exact_mod_cast hrhigh
      constructor
      · calc (r : ℚ) * 2 ^ s ≤ t * slack * 2 ^ s :=
            mul_le_mul_of_nonneg_right (hrhigh'.trans hunit) hshift.le
          _ = t * 2 ^ s * slack ^ 1 := by ring
          _ ≤ x * slack ^ 1 := mul_le_mul_of_nonneg_right hxlow (slack_pow_pos 1).le
      · calc x ≤ t * slack * 2 ^ s :=
            hxhigh.trans (mul_le_mul_of_nonneg_right hunit hshift.le)
          _ = t * (2 ^ s * slack ^ 1) := by ring
          _ ≤ r * (2 ^ s * slack ^ 1) :=
            mul_le_mul_of_nonneg_right hrlow' (mul_pos hshift (slack_pow_pos 1)).le
          _ = r * 2 ^ s * slack ^ 1 := by ring
    have hvalue : ((r / 2 ^ (r.log2 - 23) : Nat) : ℚ) *
        2 ^ (e + s + ((r.log2 - 23 : Nat) : Int)) = (r : ℚ) * 2 ^ s * 2 ^ e := by
      have hwhole : ((r / 2 ^ (r.log2 - 23) : Nat) : ℚ) * 2 ^ (r.log2 - 23) = r := by
        exact_mod_cast hcarry
      rw [zpow_add₀ two_ne_zero, zpow_add₀ two_ne_zero, zpow_natCast, zpow_natCast]
      calc ((r / 2 ^ (r.log2 - 23) : Nat) : ℚ) * (2 ^ e * 2 ^ s * 2 ^ (r.log2 - 23))
          = ((r / 2 ^ (r.log2 - 23) : Nat) : ℚ) * 2 ^ (r.log2 - 23) * 2 ^ s * 2 ^ e := by ring
        _ = r * 2 ^ s * 2 ^ e := by rw [hwhole]
    rw [hvalue]
    exact hnear.scale (by positivity)

/-! ## Values far from the ends of the range -/

theorem value_of_finite {a : Float32} {m : Nat} {e : Int} {hm : 0 < m}
    (h : a.toModel.unpack = .finite .positive m e hm) : value a = some ((m : ℚ) * 2 ^ e) := by
  rw [value, h]
  simp only [Sign.apply, Int.cast_natCast]

/-- A number far from both ends of the range of single precision. -/
structure Moderate (p : ℚ) : Prop where
  /-- Not tiny. -/
  low : 1 / 2 ^ 32 ≤ p
  /-- Not huge. -/
  high : p ≤ 2 ^ 32

theorem Moderate.pos {p : ℚ} (h : Moderate p) : 0 < p := lt_of_lt_of_le (by norm_num) h.low

/-- The exponent of a mantissa of at most 24 bits, from a bound for the number. -/
theorem lt_exponent_of_le {m : Nat} (hm : m < 2 ^ 24) {e k : Int} (h : (2 : ℚ) ^ k ≤ m * 2 ^ e) :
    k < e + 24 := by
  have hpow : (0 : ℚ) < 2 ^ e := by positivity
  have hm' : (m : ℚ) < 2 ^ (24 : Int) := by exact_mod_cast hm
  have hlt : (2 : ℚ) ^ k < 2 ^ (e + 24) := by
    rw [zpow_add₀ two_ne_zero, mul_comm]
    exact h.trans_lt (mul_lt_mul_of_pos_right hm' hpow)
  exact (zpow_lt_zpow_iff_right₀ one_lt_two).mp hlt

/-- The exponent of a mantissa of 24 bits, from a bound for the number. -/
theorem exponent_le_of_le {m : Nat} (hm : 2 ^ 23 ≤ m) {e k : Int} (h : m * 2 ^ e ≤ (2 : ℚ) ^ k) :
    e + 23 ≤ k := by
  have hpow : (0 : ℚ) < 2 ^ e := by positivity
  have hm' : (2 : ℚ) ^ (23 : Int) ≤ m := by exact_mod_cast hm
  have hle : (2 : ℚ) ^ (e + 23) ≤ 2 ^ k := by
    rw [zpow_add₀ two_ne_zero, mul_comm]
    exact (mul_le_mul_of_nonneg_right hm' hpow.le).trans h
  exact (zpow_le_zpow_iff_right₀ one_lt_two).mp hle

/-- Unpacked mantissas have 24 bits, or fewer with the least exponent. -/
theorem mantissa_unpack {bits : BitVec 32} {sign : Sign} {m : Nat} {e : Int} {hm : 0 < m}
    (h : UnpackedFloat.unpack Format.binary32 bits = .finite sign m e hm) :
    m < 2 ^ 24 ∧ (2 ^ 23 ≤ m ∨ e = -149) := by
  have hbias : Format.binary32.exponentBias = 127 := rfl
  have hstored : (@unpackMantissa Format.binary32 bits).toNat < 2 ^ 23 := BitVec.isLt _
  simp only [UnpackedFloat.unpack, hbias] at h
  split at h
  · split at h <;> cases h
  · split at h
    · next hzero =>
      split at h
      · cases h
      · cases h
        have hexponent : (@unpackExponent Format.binary32 bits).toNat = 0 := by rw [hzero]; rfl
        omega
    · cases h
      have hleading : (1#1 ++ @unpackMantissa Format.binary32 bits).toNat =
          2 ^ 23 + (@unpackMantissa Format.binary32 bits).toNat := by
        rw [BitVec.toNat_append, ← Nat.shiftLeft_add_eq_or_of_lt hstored]
        rfl
      omega

/-- A moderate number is held with 24 bits. -/
theorem Moderate.exists_finite {a : Float32} {p : ℚ} (hp : Moderate p) (ha : value a = some p) :
    ∃ m e, ∃ hm : 2 ^ 23 ≤ m, a.toModel.unpack = .finite .positive m e (by omega) ∧
      m < 2 ^ 24 ∧ -55 ≤ e ∧ e ≤ 9 ∧ p = m * 2 ^ e := by
  have hpos := hp.pos
  unfold value at ha
  split at ha
  · cases ha
    exact absurd hpos (lt_irrefl 0)
  · next sign m e hm hunpack =>
    obtain rfl := Option.some.inj ha
    cases sign with
    | negative =>
      refine absurd hpos (not_lt.mpr ?_)
      rw [Sign.apply, Int.cast_neg, neg_mul]
      exact neg_nonpos.mpr (by positivity)
    | positive =>
      rw [Sign.apply, Int.cast_natCast] at hp ⊢
      obtain ⟨hshort, hfull⟩ := mantissa_unpack hunpack
      have hleast : (2 : ℚ) ^ (-32 : Int) ≤ m * 2 ^ e := le_trans (by norm_num) hp.low
      have hlow := lt_exponent_of_le hshort hleast
      have hm23 : 2 ^ 23 ≤ m := by omega
      have hmost : m * 2 ^ e ≤ (2 : ℚ) ^ (32 : Int) := hp.high
      have hhigh := exponent_le_of_le hm23 hmost
      exact ⟨m, e, hm23, hunpack, hshort, by omega, by omega, rfl⟩
  · cases ha

/-- A number of at least 24 bits is rounded to a value near it. -/
theorem value_round {a : Float32} {m : Nat} (hm : 2 ^ 23 ≤ m) {e : Int} (he : -149 ≤ e)
    (accuracy : Accuracy) {x : ℚ} (hlow : m ≤ x) (hhigh : x < m + 1) (hrange : x * 2 ^ e ≤ 2 ^ 64)
    (ha : a.toModel.unpack = UnpackedFloat.unpack Format.binary32 (UnpackedFloat.pack
      Format.binary32 (roundWithAccuracy Format.binary32 .positive m e accuracy))) :
    ∃ v, value a = some v ∧ Near 1 v (x * 2 ^ e) := by
  obtain ⟨n, f, hn, hround, hshort, hf, hnear⟩ := roundWithAccuracy_near hm he accuracy hlow hhigh
  have hslack : slack ^ 1 ≤ 2 := by norm_num [slack]
  have hsmall : n * 2 ^ f ≤ (2 : ℚ) ^ (65 : Int) := calc
    n * 2 ^ f ≤ x * 2 ^ e * slack ^ 1 := hnear.le
    _ ≤ 2 ^ 64 * 2 := mul_le_mul hrange hslack (slack_pow_pos 1).le (by norm_num)
    _ = 2 ^ (65 : Int) := by norm_num
  have htop := exponent_le_of_le hn hsmall
  rw [hround, unpack_pack_normal hn hshort hf (by omega)] at ha
  exact ⟨_, value_of_finite ha, hnear⟩

/-! ## Operations -/

section Operations

variable {a b : Float32} {p q : ℚ}

/-- A product is rounded once. -/
theorem value_mul (ha : value a = some p) (hb : value b = some q) (hp : Moderate p)
    (hq : Moderate q) : ∃ v, value (a * b) = some v ∧ Near 1 v (p * q) := by
  obtain ⟨m, e, hm, hunpack, -, he, -, rfl⟩ := hp.exists_finite ha
  obtain ⟨n, f, hn, hunpack', -, hf, -, rfl⟩ := hq.exists_finite hb
  have hproduct : (m * 2 ^ e * (n * 2 ^ f) : ℚ) = ((m * n : Nat) : ℚ) * 2 ^ (e + f) := by
    rw [zpow_add₀ two_ne_zero, Nat.cast_mul]
    ring
  have hrange : (m * 2 ^ e * (n * 2 ^ f) : ℚ) ≤ 2 ^ 64 := calc
    (m * 2 ^ e * (n * 2 ^ f) : ℚ) ≤ 2 ^ 32 * 2 ^ 32 :=
      mul_le_mul hp.high hq.high hq.pos.le (by norm_num)
    _ = 2 ^ 64 := by norm_num
  have hbits : 2 ^ 23 ≤ m * n := calc
    2 ^ 23 ≤ m := hm
    _ ≤ m * n := Nat.le_mul_of_pos_right m (by omega)
  rw [hproduct] at hrange ⊢
  refine value_round hbits (by omega) .exact le_rfl (lt_add_one _) hrange ?_
  rw [unpack_mul, hunpack, hunpack']
  rfl

/-- A quotient is rounded once. -/
theorem value_div (ha : value a = some p) (hb : value b = some q) (hp : Moderate p)
    (hq : Moderate q) : ∃ v, value (a / b) = some v ∧ Near 1 v (p / q) := by
  obtain ⟨m, e, hm, hunpack, hshort, he, he', rfl⟩ := hp.exists_finite ha
  obtain ⟨n, f, hn, hunpack', hshort', hf, hf', rfl⟩ := hq.exists_finite hb
  have hm0 : m.log2 = 23 := (Nat.log2_eq_iff (by omega)).mpr ⟨hm, hshort⟩
  have hn0 : n.log2 = 23 := (Nat.log2_eq_iff (by omega)).mpr ⟨hn, hshort'⟩
  have hpos : (0 : ℚ) < n := by exact_mod_cast (by omega : 0 < n)
  -- mantissas of equally many bits: the dividend is shifted by 24 to get a quotient of enough bits
  have hcore : divCore Format.binary32 m e n f =
      (m * 2 ^ 24 / n, e - f - 24, accuracyOfFraction (m * 2 ^ 24 % n) n) := by
    have htarget : min (e - f)
        (Format.binary32.targetExponent (totalExponent m e - totalExponent n f)) = e - f - 24 := by
      have hmax : Format.binary32.targetExponent (totalExponent m e - totalExponent n f) =
          max (m.log2 + 1 + e - (n.log2 + 1 + f) - 24) (-149) := rfl
      rw [hmax, hm0, hn0]
      omega
    have hshift : (e - f - (e - f - 24)).toNat = 24 := by omega
    simp only [divCore, htarget, hshift, Nat.shiftLeft_eq]
  have hquotient : (m * 2 ^ e / (n * 2 ^ f) : ℚ) = m * 2 ^ 24 / n * 2 ^ (e - f - 24) := by
    have hback : (2 : ℚ) ^ 24 * 2 ^ (e - f - 24) = 2 ^ e / 2 ^ f := by
      rw [← zpow_natCast, ← zpow_add₀ two_ne_zero, ← zpow_sub₀ two_ne_zero]
      congr 1
      omega
    rw [mul_div_mul_comm, ← hback]
    ring
  have hrange : (m * 2 ^ e / (n * 2 ^ f) : ℚ) ≤ 2 ^ 64 := by
    rw [div_le_iff₀ hq.pos]
    calc (m * 2 ^ e : ℚ) ≤ 2 ^ 64 * (1 / 2 ^ 32) := hp.high.trans (by norm_num)
      _ ≤ 2 ^ 64 * (n * 2 ^ f) := mul_le_mul_of_nonneg_left hq.low (by norm_num)
  have hbits : 2 ^ 23 ≤ m * 2 ^ 24 / n := by
    rw [Nat.le_div_iff_mul_le (by omega)]
    exact Nat.mul_le_mul hm hshort'.le
  have hlow : ((m * 2 ^ 24 / n : Nat) : ℚ) ≤ m * 2 ^ 24 / n := by
    exact_mod_cast Nat.cast_div_le (α := ℚ) (m := m * 2 ^ 24) (n := n)
  have hhigh : (m * 2 ^ 24 / n : ℚ) < ((m * 2 ^ 24 / n : Nat) : ℚ) + 1 := by
    rw [div_lt_iff₀ hpos]
    exact_mod_cast Nat.lt_mul_of_div_lt (Nat.lt_succ_self (m * 2 ^ 24 / n)) (by omega : 0 < n)
  rw [hquotient] at hrange ⊢
  refine value_round hbits (by omega) (accuracyOfFraction (m * 2 ^ 24 % n) n) hlow hhigh hrange ?_
  rw [unpack_div, hunpack, hunpack', UnpackedFloat.div, hcore]
  rfl

theorem unpack_sub (a b : Float32) :
    (a - b).toModel.unpack = UnpackedFloat.unpack Format.binary32 (UnpackedFloat.pack
      Format.binary32 (UnpackedFloat.sub Format.binary32 a.toModel.unpack b.toModel.unpack)) :=
  rfl

/-- A mantissa of any length is rounded to a value near the number. -/
theorem value_normalize {d : Nat} {g : Int} (hg : -100 ≤ g) (hrange : d * 2 ^ g ≤ (2 : ℚ) ^ 64)
    (ha : a.toModel.unpack = UnpackedFloat.unpack Format.binary32 (UnpackedFloat.pack
      Format.binary32 (UnpackedFloat.normalize Format.binary32 d g .positive))) :
    ∃ v, value a = some v ∧ Near 1 v (d * 2 ^ g) := by
  rcases Nat.eq_zero_or_pos d with rfl | hd
  · have hnone : UnpackedFloat.normalize Format.binary32 (0 : Nat) g .positive =
        .zero .positive := by
      rw [UnpackedFloat.normalize, Int.compare_eq_eq.mpr Nat.cast_zero]
    have hzero : a.toModel.unpack = .zero .positive := by
      rw [ha, hnone]
      exact unpack_packedZero _
    refine ⟨0, by rw [value, hzero], ?_⟩
    rw [Nat.cast_zero, zero_mul]
    constructor <;> rw [zero_mul]
  obtain ⟨k, hk⟩ : ∃ k, 23 - d.log2 = k := ⟨_, rfl⟩
  have htarget : Format.binary32.targetExponent (totalExponent d g) =
      max (d.log2 + 1 + g - 24) (-149) := rfl
  have hshift : (g - Format.binary32.targetExponent (totalExponent d g)).toNat = k := by
    rw [htarget]
    omega
  have hbits : 2 ^ 23 ≤ d * 2 ^ k := by
    have hd0 : d * 2 ^ k ≠ 0 := Nat.mul_ne_zero hd.ne' (Nat.two_pow_pos k).ne'
    rw [← Nat.le_log2 hd0, log2_mul_two_pow hd.ne']
    omega
  have hvalue : (d * 2 ^ g : ℚ) = ((d * 2 ^ k : Nat) : ℚ) * 2 ^ (g - k) := by
    rw [zpow_sub₀ two_ne_zero, zpow_natCast, Nat.cast_mul, Nat.cast_pow, Nat.cast_ofNat]
    field_simp
  have hpos : (0 : Int) < d := by omega
  rw [hvalue] at hrange ⊢
  refine value_round hbits (by omega) .exact le_rfl (lt_add_one _) hrange ?_
  rw [ha, UnpackedFloat.normalize, Int.compare_eq_gt.mpr hpos]
  simp only [UnpackedFloat.round, decreaseExponent, hshift, Int.toNat_natCast, Nat.shiftLeft_eq]

/-- A mantissa that is shifted to a lower exponent. -/
theorem mul_two_pow_shift (m : Nat) {e g : Int} (h : g ≤ e) :
    (m * 2 ^ e : ℚ) = ((m * 2 ^ (e - g).toNat : Nat) : ℚ) * 2 ^ g := by
  rw [Nat.cast_mul, Nat.cast_pow, Nat.cast_ofNat, mul_assoc, ← zpow_natCast,
    ← zpow_add₀ two_ne_zero, Int.toNat_of_nonneg (by omega)]
  congr 2
  omega

/-- A difference is rounded once. -/
theorem value_sub (ha : value a = some p) (hb : value b = some q) (hp : Moderate p)
    (hq : Moderate q) (hle : q ≤ p) : ∃ v, value (a - b) = some v ∧ Near 1 v (p - q) := by
  obtain ⟨m, e, hm, hunpack, -, he, -, rfl⟩ := hp.exists_finite ha
  obtain ⟨n, f, hn, hunpack', -, hf, -, rfl⟩ := hq.exists_finite hb
  obtain ⟨g, hg⟩ : ∃ g, min e f = g := ⟨_, rfl⟩
  obtain ⟨i, hi⟩ : ∃ i, m * 2 ^ (e - g).toNat = i := ⟨_, rfl⟩
  obtain ⟨j, hj⟩ : ∃ j, n * 2 ^ (f - g).toNat = j := ⟨_, rfl⟩
  have hleft : (m * 2 ^ e : ℚ) = i * 2 ^ g := by
    rw [mul_two_pow_shift m (show g ≤ e by omega), hi]
  have hright : (n * 2 ^ f : ℚ) = j * 2 ^ g := by
    rw [mul_two_pow_shift n (show g ≤ f by omega), hj]
  have hpow : (0 : ℚ) < 2 ^ g := by positivity
  have hji : j ≤ i := by
    rw [hleft, hright] at hle
    exact_mod_cast le_of_mul_le_mul_right hle hpow
  have hvalue : (m * 2 ^ e - n * 2 ^ f : ℚ) = ((i - j : Nat) : ℚ) * 2 ^ g := by
    rw [hleft, hright, Nat.cast_sub hji, sub_mul]
  have hrange : (m * 2 ^ e - n * 2 ^ f : ℚ) ≤ 2 ^ 64 := by
    have := hp.high
    have := hq.pos
    linarith
  rw [hvalue] at hrange ⊢
  refine value_normalize (by omega) hrange ?_
  rw [unpack_sub, hunpack, hunpack']
  simp only [UnpackedFloat.sub, decreaseExponent, Sign.apply, hg, Nat.shiftLeft_eq, hi, hj,
    Int.ofNat_sub hji]

/-- Taking zero away changes nothing. -/
theorem value_sub_zero (ha : value a = some p) (hp : Moderate p) (hb : b = 0) :
    value (a - b) = some p := by
  obtain ⟨m, e, hm, hunpack, hshort, he, he', rfl⟩ := hp.exists_finite ha
  have hzero : (0 : Float32).toModel.unpack = .zero .positive := rfl
  have hsame : (a - b).toModel.unpack = .finite .positive m e (by omega) := by
    rw [unpack_sub, hb, hunpack, hzero]
    exact unpack_pack_normal hm hshort (by omega) (by omega)
  exact value_of_finite hsame

end Operations

/-! ## Order and whole part -/

section Order

variable {a b : Float32} {p q : ℚ}

theorem value_eq_some (ha : value a = some p) (hp : 0 ≤ p) :
    (∃ sign, a.toModel.unpack = .zero sign ∧ p = 0) ∨
      ∃ m e hm, a.toModel.unpack = .finite .positive m e hm ∧ p = m * 2 ^ e := by
  unfold value at ha
  split at ha
  · next sign hunpack => exact .inl ⟨sign, hunpack, (Option.some.inj ha).symm⟩
  · next sign m e hm hunpack =>
    obtain rfl := Option.some.inj ha
    cases sign with
    | negative =>
      refine absurd hp (not_le.mpr ?_)
      have hpos : (0 : ℚ) < m := by exact_mod_cast hm
      rw [Sign.apply, Int.cast_neg, neg_mul]
      exact neg_neg_of_pos (by positivity)
    | positive => exact .inr ⟨m, e, hm, hunpack, by rw [Sign.apply, Int.cast_natCast]⟩
  · cases ha

theorem isFinite_of_value (ha : value a = some p) : isFinite a = true := by
  have hfinite : isFinite a = a.toModel.unpack.isFinite := rfl
  unfold value at ha
  rw [hfinite]
  split at ha
  · next h => rw [h]; rfl
  · next h => rw [h]; rfl
  · cases ha

/-- Of two unpacked numbers the one with the lower exponent is smaller. -/
theorem lt_of_exponent_lt {m n : Nat} {e f : Int} (hm : m < 2 ^ 24) (hn : 2 ^ 23 ≤ n)
    (h : e < f) : (m * 2 ^ e : ℚ) < n * 2 ^ f := by
  by_contra hle
  have hlow : (2 : ℚ) ^ (f + 23) ≤ m * 2 ^ e := by
    have hn' : (2 : ℚ) ^ (23 : Int) ≤ n := by exact_mod_cast hn
    rw [zpow_add₀ two_ne_zero, mul_comm]
    exact (mul_le_mul_of_nonneg_right hn' (by positivity)).trans (not_lt.mp hle)
  have := lt_exponent_of_le hm hlow
  omega

/-- Values that are not negative compare as the numbers they stand for. -/
theorem compare_eq_compare (ha : value a = some p) (hb : value b = some q) (hp : 0 ≤ p)
    (hq : 0 ≤ q) : a.toModel.unpack.compare b.toModel.unpack = some (compare p q) := by
  rcases value_eq_some ha hp with ⟨s, hu, rfl⟩ | ⟨m, e, hm, hu, rfl⟩ <;>
    rcases value_eq_some hb hq with ⟨t, hv, rfl⟩ | ⟨n, f, hn, hv, rfl⟩ <;>
    rw [hu, hv, compare_eq (by trivial) (by trivial), Option.some.injEq]
  · rw [compare_eq_iff_eq.mpr rfl]
    rfl
  · have hpos : (0 : ℚ) < n := by exact_mod_cast hn
    rw [compare_lt_iff_lt.mpr (by positivity)]
    rfl
  · have hpos : (0 : ℚ) < m := by exact_mod_cast hm
    rw [compare_gt_iff_gt.mpr (by positivity)]
    rfl
  · obtain ⟨hshort, hfull⟩ := mantissa_unpack hu
    obtain ⟨hshort', hfull'⟩ := mantissa_unpack hv
    have hlow := exponent_unpack hu
    have hlow' := exponent_unpack hv
    have hplaces : order (place (.finite .positive m e hm)) (place (.finite .positive n f hn)) =
        (compare e f).then (compare m n) := rfl
    rw [hplaces]
    rcases lt_trichotomy e f with hlt | rfl | hgt
    · rw [Int.compare_eq_lt.mpr hlt,
        compare_lt_iff_lt.mpr (lt_of_exponent_lt hshort (by omega) hlt)]
      rfl
    · have hpow : (0 : ℚ) < 2 ^ e := by positivity
      rw [Int.compare_eq_eq.mpr rfl]
      rcases lt_trichotomy m n with hlt | rfl | hgt
      · rw [Nat.compare_eq_lt.mpr hlt, compare_lt_iff_lt.mpr
          (mul_lt_mul_of_pos_right (Nat.cast_lt.mpr hlt) hpow)]
        rfl
      · rw [Nat.compare_eq_eq.mpr rfl, compare_eq_iff_eq.mpr rfl]
        rfl
      · rw [Nat.compare_eq_gt.mpr hgt, compare_gt_iff_gt.mpr
          (mul_lt_mul_of_pos_right (Nat.cast_lt.mpr hgt) hpow)]
        rfl
    · rw [Int.compare_eq_gt.mpr hgt,
        compare_gt_iff_gt.mpr (lt_of_exponent_lt hshort' (by omega) hgt)]
      rfl

theorem lt_iff_value (ha : value a = some p) (hb : value b = some q) (hp : 0 ≤ p) (hq : 0 ≤ q) :
    a < b ↔ p < q := by
  have hlt : a < b ↔ (a.toModel.unpack.compare b.toModel.unpack == some .lt) = true :=
    decide_eq_true_iff
  rw [hlt, compare_eq_compare ha hb hp hq, beq_iff_eq, Option.some.injEq, compare_lt_iff_lt]

theorem le_iff_value (ha : value a = some p) (hb : value b = some q) (hp : 0 ≤ p) (hq : 0 ≤ q) :
    a ≤ b ↔ p ≤ q := by
  have hle : a ≤ b ↔ (a.toModel.unpack.compare b.toModel.unpack).any (·.isLE) = true :=
    decide_eq_true_iff
  rw [hle, compare_eq_compare ha hb hp hq, Option.any_some, ← compare_le_iff_le,
    Ordering.isLE_iff_ne_gt]

/-- A number is cut to its whole part. -/
theorem roundToInt_eq {m n : Nat} {e : Int} (hlow : (n : ℚ) ≤ m * 2 ^ e)
    (hhigh : (m * 2 ^ e : ℚ) < n + 1) : roundToInt .positive m e = n := by
  obtain ⟨up, hup⟩ : ∃ up, (e - 0).toNat = up := ⟨_, rfl⟩
  obtain ⟨down, hdown⟩ : ∃ down, (0 - (e - up)).toNat = down := ⟨_, rfl⟩
  have hvalue : (m * 2 ^ e : ℚ) = m * 2 ^ up / 2 ^ down := by
    have he : e = (up : Int) - down := by omega
    rw [he, zpow_sub₀ two_ne_zero, zpow_natCast, zpow_natCast, mul_div_assoc]
  have hpow : (0 : ℚ) < 2 ^ down := by positivity
  rw [hvalue, le_div_iff₀ hpow] at hlow
  rw [hvalue, div_lt_iff₀ hpow] at hhigh
  have hquotient : m * 2 ^ up / 2 ^ down = n :=
    Nat.div_eq_of_lt_le (by exact_mod_cast hlow) (by exact_mod_cast hhigh)
  simp only [roundToInt, decreaseExponent, shiftToExponent, hup, hdown, Nat.shiftLeft_eq,
    mantissa_shiftRight, mantissa_ofMantissaAndAccuracy, hquotient, Sign.apply]

/-- The whole part of a value below 256. -/
theorem floorByte_eq (ha : value a = some p) {n : Nat} (hn : n < 256) (hlow : n ≤ p)
    (hhigh : p < n + 1) : floorByte a = UInt8.ofNat n := by
  have hint : a.toModel.unpack.toInt 0 (UInt8.size - 1) = n := by
    rcases value_eq_some ha ((Nat.cast_nonneg n).trans hlow) with
      ⟨s, hu, rfl⟩ | ⟨m, e, hm, hu, rfl⟩
    · have hzero : n ≤ 0 := by exact_mod_cast hlow
      rw [hu, Nat.le_zero.mp hzero]
      rfl
    · rw [hu]
      exact roundToInt_eq hlow hhigh
  have hfloor : floorByte a =
      UInt8.ofNatClamp (a.toModel.unpack.toInt 0 (UInt8.size - 1)).toNat := rfl
  rw [hfloor, hint, Int.toNat_natCast, UInt8.ofNatClamp, dif_pos hn, UInt8.ofNatLT_eq_ofNat]

end Order

end Patchwork.Channel.Single
