import Mathlib
import Patchwork.Proofs.Channel.Counting

/-!
# Counting in single precision

In single precision a count is zero, a positive number or positive infinity.  One step further is
positive again: the sum of a positive number and one has a positive mantissa, and rounding to
nearest neither makes it zero nor gives it an exponent below the least one.

The values are taken apart with the logical model of `Float32`: unpack, compute exactly, round,
pack.

## Main statements

* `Single.round_finite` — what rounding keeps of a positive mantissa.
* `Single.unpack_pack_positive` — packing and unpacking keeps a value positive.
* The instance `Channel.Counting Float32`.
-/

namespace Patchwork.Channel.Single

open Float.Model Float.Model.UnpackedFloat

/-- Zero, a positive number or positive infinity. -/
def NonNegative : UnpackedFloat → Prop
  | .zero _ => True
  | .finite .positive .. => True
  | .infinity .positive => True
  | _ => False

/-- A positive number or positive infinity. -/
def Positive : UnpackedFloat → Prop
  | .finite .positive .. => True
  | .infinity .positive => True
  | _ => False

theorem Positive.nonNegative {u : UnpackedFloat} (h : Positive u) : NonNegative u := by
  unfold Positive at h
  unfold NonNegative
  split at h <;> simp_all

/-! ## Rounding -/

theorem mantissa_shiftRight (em : ExtendedMantissa) (k : Nat) :
    (em >>> k).mantissa = em.mantissa / 2 ^ k := by
  induction k with
  | zero => exact (Nat.div_one _).symm
  | succ k ih =>
    have hstep : (em >>> (k + 1)).mantissa = (em >>> k).mantissa / 2 := rfl
    rw [hstep, ih, Nat.div_div_eq_div_mul, Nat.pow_succ]

theorem mantissa_ofMantissaAndAccuracy (m : Nat) (accuracy : Accuracy) :
    (ExtendedMantissa.ofMantissaAndAccuracy m accuracy).mantissa = m := by
  unfold ExtendedMantissa.ofMantissaAndAccuracy
  split <;> rfl

theorem mantissa_le_roundedMantissa (em : ExtendedMantissa) :
    em.mantissa ≤ em.roundedMantissa := by
  unfold ExtendedMantissa.roundedMantissa Accuracy.roundToNearestEven
  split <;> omega

/-- From the least exponent up, a mantissa is shifted exactly by its excess over 24 bits. -/
theorem shiftAmount_eq {m : Nat} {e : Int} (he : -149 ≤ e) :
    (Format.binary32.targetExponent (totalExponent m e) - e).toNat = m.log2 - 23 := by
  have htarget : Format.binary32.targetExponent (totalExponent m e) =
      max (m.log2 + 1 + e - 24) (-149) := rfl
  rw [htarget]
  omega

theorem div_pow_pos {m : Nat} (hm : 0 < m) : 0 < m / 2 ^ (m.log2 - 23) := by
  refine Nat.div_pos ?_ (Nat.two_pow_pos _)
  calc 2 ^ (m.log2 - 23) ≤ 2 ^ m.log2 := Nat.pow_le_pow_right (by decide) (Nat.sub_le ..)
    _ ≤ m := Nat.log2_self_le (Nat.ne_of_gt hm)

theorem div_pow_lt (m : Nat) : m / 2 ^ (m.log2 - 23) < 2 ^ 24 := by
  rw [Nat.div_lt_iff_lt_mul (Nat.two_pow_pos _), ← Nat.pow_add]
  calc m < 2 ^ (m.log2 + 1) := Nat.lt_log2_self
    _ ≤ 2 ^ (24 + (m.log2 - 23)) := Nat.pow_le_pow_right (by decide) (by omega)

/-- A number that the format can hold. -/
structure Held (u : UnpackedFloat) (sign : Sign) : Prop where
  /-- A positive mantissa of at most 24 bits, and an exponent not below the least one. -/
  exists_finite : ∃ m e, ∃ h : 0 < m, u = .finite sign m e h ∧ m < 2 ^ 24 ∧ -149 ≤ e

theorem held_roundWithAccuracy (sign : Sign) {m : Nat} (hm : 0 < m) {e : Int} (he : -149 ≤ e)
    (accuracy : Accuracy) :
    Held (roundWithAccuracy Format.binary32 sign m e accuracy) sign := by
  have hpos : 0 <
      (ExtendedMantissa.ofMantissaAndAccuracy m accuracy >>> (m.log2 - 23)).roundedMantissa := by
    refine Nat.lt_of_lt_of_le ?_ (mantissa_le_roundedMantissa _)
    rw [mantissa_shiftRight, mantissa_ofMantissaAndAccuracy]
    exact div_pow_pos hm
  -- the second shift starts from an exponent that is no lower
  have he' : -149 ≤ e + ((m.log2 - 23 : Nat) : Int) := by omega
  simp only [roundWithAccuracy, shiftToTargetExponent, shiftToExponent, shiftAmount_eq he,
    shiftAmount_eq he', mantissa_shiftRight, mantissa_ofMantissaAndAccuracy]
  rw [dif_neg (Nat.ne_of_gt (div_pow_pos hpos))]
  exact ⟨_, _, div_pow_pos hpos, rfl, div_pow_lt _, by omega⟩

/-- **Rounding** a positive mantissa gives a number that the format can hold. -/
theorem held_round (sign : Sign) {m : Nat} (hm : 0 < m) {e : Int} (he : -149 ≤ e) :
    Held (round Format.binary32 sign m e) sign := by
  have htarget : -149 ≤ Format.binary32.targetExponent (totalExponent m e) :=
    Int.le_max_right _ _
  refine held_roundWithAccuracy sign ?_ ?_ .exact
  · rw [Nat.shiftLeft_eq]
    exact Nat.mul_pos hm (Nat.two_pow_pos _)
  · omega

/-! ## Packing and unpacking -/

/-- Components with a positive sign that are neither all zero nor beyond infinity. -/
theorem positive_unpack_packComponents {exponent : BitVec 8} {mantissa : BitVec 23}
    (hnumber : exponent = -1#8 → mantissa = 0#23) (hzero : exponent = 0#8 → mantissa ≠ 0#23) :
    Positive (UnpackedFloat.unpack Format.binary32
      (packComponents Format.binary32 .positive exponent mantissa)) := by
  simp only [UnpackedFloat.unpack, unpackMantissa_packComponents, unpackExponent_packComponents,
    unpackSign_packComponents, Sign.ofBitVec_toBitVec]
  by_cases hmax : exponent = -1#8
  · simp only [hmax, hnumber hmax, if_true]
    trivial
  · by_cases hmin : exponent = 0#8
    · simp only [hmin, hzero hmin]
      trivial
    · simp only [hmax, hmin, if_false]
      trivial

/-- **A positive value** stays positive when it is packed and unpacked. -/
theorem positive_unpack_pack {u : UnpackedFloat} (h : Held u .positive ∨ u = .infinity .positive) :
    Positive (UnpackedFloat.unpack Format.binary32 (UnpackedFloat.pack Format.binary32 u)) := by
  rcases h with ⟨m, e, hm, rfl, hlt, he⟩ | rfl
  · have hbias : Format.binary32.exponentBias = 127 := rfl
    have hbits : Format.binary32.mantissaBits = 24 := rfl
    simp only [UnpackedFloat.pack, hbias, hbits]
    split
    · exact positive_unpack_packComponents (fun _ => rfl) fun h => by simp at h
    · next hsmall =>
      simp only [Nat.reducePow, Nat.not_le] at hsmall
      split
      · -- a normal number: its exponent is neither the least nor the greatest
        refine positive_unpack_packComponents ?_ ?_
        · intro hexponent
          have hmax : (-1#8).toNat = 255 := rfl
          have htop := congrArg BitVec.toNat hexponent
          rw [BitVec.toNat_ofNat, hmax] at htop
          omega
        · intro hexponent
          have hbottom := congrArg BitVec.toNat hexponent
          simp only [BitVec.toNat_ofNat] at hbottom
          omega
      · -- a subnormal number: its mantissa has no more than 23 bits
        next hshort =>
        refine positive_unpack_packComponents ?_ ?_
        · intro hexponent
          simp at hexponent
        · intro _ hmantissa
          have hvanish := congrArg BitVec.toNat hmantissa
          simp only [BitVec.toNat_ofNat] at hvanish
          have hbits : m.log2 < 24 := (Nat.log2_lt (Nat.ne_of_gt hm)).mpr hlt
          have hlow : m < 2 ^ 23 := (Nat.log2_lt (Nat.ne_of_gt hm)).mp (by omega)
          omega
  · exact positive_unpack_packComponents (fun _ => rfl) fun h => by simp at h

/-! ## One step further -/

/-- No number that is unpacked has an exponent below the least one. -/
theorem exponent_unpack {bits : BitVec 32} {sign : Sign} {m : Nat} {e : Int} {hm : 0 < m}
    (h : UnpackedFloat.unpack Format.binary32 bits = .finite sign m e hm) : -149 ≤ e := by
  have hbias : Format.binary32.exponentBias = 127 := rfl
  simp only [UnpackedFloat.unpack, hbias] at h
  split at h
  · split at h <;> cases h
  · split at h
    · split at h
      · cases h
      · cases h
        omega
    · next hnormal =>
      have hpos : 0 < (@unpackExponent Format.binary32 bits).toNat :=
        Nat.pos_of_ne_zero fun h0 => hnormal (BitVec.eq_of_toNat_eq h0)
      cases h
      omega

/-- A value that is not negative, plus one. -/
theorem positive_add_one {u : UnpackedFloat} (hu : NonNegative u)
    (he : ∀ sign m e hm, u = .finite sign m e hm → -149 ≤ e) :
    Positive (UnpackedFloat.unpack Format.binary32 (UnpackedFloat.pack Format.binary32
      (UnpackedFloat.add Format.binary32 u (.finite .positive (2 ^ 23) (-23) (by decide))))) := by
  refine positive_unpack_pack ?_
  cases u with
  | notANumber => exact hu.elim
  | infinity sign =>
    cases sign with
    | negative => exact hu.elim
    | positive => exact .inr rfl
  | zero sign => exact .inl ⟨_, _, by decide, rfl, by decide, by decide⟩
  | finite sign m e hm =>
    cases sign with
    | negative => exact hu.elim
    | positive =>
      have hexponent := he _ _ _ _ rfl
      left
      simp only [UnpackedFloat.add, decreaseExponent, Sign.apply, UnpackedFloat.normalize]
      have hone : 0 < 2 ^ 23 <<< (-23 - min e (-23)).toNat := by
        rw [Nat.shiftLeft_eq]
        exact Nat.mul_pos (by decide) (Nat.two_pow_pos _)
      have hsum : (0 : Int) < ((m <<< (e - min e (-23)).toNat : Nat) : Int) +
          ((2 ^ 23 <<< (-23 - min e (-23)).toNat : Nat) : Int) :=
        Int.add_pos_of_nonneg_of_pos (Int.natCast_nonneg _) (Int.natCast_pos.mpr hone)
      rw [Int.compare_eq_gt.mpr hsum]
      exact held_round .positive (by omega) (by omega)

/-! ## Order -/

/-- Where a value stands: zero, a number or infinity, and then by exponent and mantissa. -/
def place : UnpackedFloat → Nat × Int × Nat
  | .zero _ => (0, 0, 0)
  | .finite _ m e _ => (1, e, m)
  | .infinity _ => (2, 0, 0)
  | .notANumber => (3, 0, 0)

theorem Positive.place_pos {u : UnpackedFloat} (h : Positive u) : 0 < (place u).1 := by
  cases u with
  | notANumber | zero => exact h.elim
  | infinity | finite => simp [place]

/-- The first place is that of zero alone. -/
theorem place_eq_zero {u : UnpackedFloat} (h : NonNegative u) :
    (place u).1 = 0 → (place u).2.1 = 0 ∧ (place u).2.2 = 0 := by
  cases u with
  | notANumber => exact h.elim
  | zero | infinity | finite => simp [place]

/-- The order of places. -/
def order (a b : Nat × Int × Nat) : Ordering :=
  (compare a.1 b.1).then ((compare a.2.1 b.2.1).then (compare a.2.2 b.2.2))

theorem order_eq_lt {a b : Nat × Int × Nat} :
    order a b = .lt ↔ a.1 < b.1 ∨ a.1 = b.1 ∧ (a.2.1 < b.2.1 ∨ a.2.1 = b.2.1 ∧ a.2.2 < b.2.2) := by
  simp only [order, Ordering.then_eq_lt, Nat.compare_eq_lt, Nat.compare_eq_eq, Int.compare_eq_lt,
    Int.compare_eq_eq]

theorem order_eq_eq {a b : Nat × Int × Nat} :
    order a b = .eq ↔ a.1 = b.1 ∧ a.2.1 = b.2.1 ∧ a.2.2 = b.2.2 := by
  simp only [order, Ordering.then_eq_eq, Nat.compare_eq_eq, Int.compare_eq_eq]

theorem NonNegative.eq {u : UnpackedFloat} (h : NonNegative u) :
    (∃ sign, u = .zero sign) ∨ (∃ m e hm, u = .finite .positive m e hm) ∨
      u = .infinity .positive := by
  unfold NonNegative at h
  split at h
  · exact .inl ⟨_, rfl⟩
  · exact .inr (.inl ⟨_, _, _, rfl⟩)
  · exact .inr (.inr rfl)
  · exact h.elim

/-- Values that are not negative compare as their places do. -/
theorem compare_eq {u v : UnpackedFloat} (hu : NonNegative u) (hv : NonNegative v) :
    u.compare v = some (order (place u) (place v)) := by
  rcases hu.eq with ⟨s, rfl⟩ | ⟨m, e, hm, rfl⟩ | rfl <;>
    rcases hv.eq with ⟨s', rfl⟩ | ⟨m', e', hm', rfl⟩ | rfl <;> rfl

/-! ## Counting -/

/-- Where a single-precision value stands. -/
def rank (a : Float32) : Nat × Int × Nat := place a.toModel.unpack

variable {a b : Float32}

theorem lt_iff (ha : NonNegative a.toModel.unpack) (hb : NonNegative b.toModel.unpack) :
    a < b ↔ order (rank a) (rank b) = .lt := by
  have hlt : a < b ↔ (a.toModel.unpack.compare b.toModel.unpack == some .lt) = true :=
    decide_eq_true_iff
  rw [hlt, compare_eq ha hb, beq_iff_eq, Option.some.injEq]
  rfl

theorem beq_iff (ha : NonNegative a.toModel.unpack) (hb : NonNegative b.toModel.unpack) :
    (a == b) = true ↔ order (rank a) (rank b) = .eq := by
  have hbeq : (a == b) = (a.toModel.unpack.compare b.toModel.unpack == some .eq) := rfl
  rw [hbeq, compare_eq ha hb, beq_iff_eq, Option.some.injEq]
  rfl

theorem positive_succ (ha : NonNegative a.toModel.unpack) :
    Positive (a + 1).toModel.unpack :=
  positive_add_one ha fun _ _ _ _ h => exponent_unpack h

/-- Zero, positive numbers and infinity. -/
instance : Counting Float32 where
  Count a := NonNegative a.toModel.unpack
  zero := trivial
  succ ha := (positive_succ ha).nonNegative
  succ_pos {a} ha := by
    have hpos := (positive_succ ha).place_pos
    have hzero : order (0, 0, 0) (rank (a + 1)) = .lt := order_eq_lt.mpr (.inl hpos)
    exact (lt_iff (a := 0.0) trivial (positive_succ ha).nonNegative).mpr hzero
  not_lt_zero {a} ha h := by
    have hbelow : order (rank a) (0, 0, 0) = .lt := (lt_iff (b := 0.0) ha trivial).mp h
    have hplace := place_eq_zero ha
    rw [order_eq_lt] at hbelow
    simp only [rank] at hbelow
    omega
  lt_irrefl {a} ha h := by
    rw [lt_iff ha ha, order_eq_lt] at h
    omega
  lt_trans {a b c} ha hb hc hab hbc := by
    rw [lt_iff ha hb, order_eq_lt] at hab
    rw [lt_iff hb hc, order_eq_lt] at hbc
    rw [lt_iff ha hc, order_eq_lt]
    omega
  lt_or_lt {a b c} ha hb hc h := by
    rw [lt_iff ha hc, order_eq_lt] at h
    rw [lt_iff ha hb, lt_iff hb hc, order_eq_lt, order_eq_lt]
    omega
  beq_iff {a b} ha hb := by
    rw [Single.beq_iff ha hb, lt_iff ha hb, lt_iff hb ha, order_eq_lt, order_eq_lt, order_eq_eq]
    omega

end Patchwork.Channel.Single
