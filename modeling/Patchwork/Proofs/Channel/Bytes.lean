import Patchwork.Proofs.Channel.Rounding

/-!
# Bytes in single precision

A byte becomes a value between zero and one, is multiplied by its coverage, freed of it again and
becomes a byte.  In single precision each step rounds, seven times in all, and the sum of the errors
stays far below half of the distance between two bytes, however small the coverage is.

## Main statements

* `Single.toByte_of_near` — a value that has been rounded six times still gives its byte.
* `Single.toByte_freed` — a colour that is multiplied by its coverage and freed of it.
-/

namespace Patchwork.Channel.Single

variable {a b : Float32} {p : ℚ} {n : Nat}

/-! ## Constants and bytes -/

theorem value_one : value 1 = some 1 := by
  have h := value_whole (n := 1) (by decide)
  rwa [Nat.cast_one] at h

theorem value_full : value 255.0 = some 255 := by
  have h := value_whole (n := 255) (by decide)
  rwa [Nat.cast_ofNat] at h

theorem value_half : value 0.5 = some (1 / 2) := by
  have hunpack : (0.5 : Float32).toModel.unpack =
      .finite .positive (2 ^ 23) (-24) (Nat.two_pow_pos 23) := rfl
  rw [value_of_finite hunpack]
  norm_num

theorem moderate_byte (h : n ≠ 0) (hn : n < 256) : Moderate (n : ℚ) := by
  have hlow : (1 : ℚ) ≤ n := by exact_mod_cast Nat.one_le_iff_ne_zero.mpr h
  have hhigh : (n : ℚ) < 256 := by exact_mod_cast hn
  constructor <;> linarith

theorem value_ofNatByte (c : UInt8) : value (ofNatByte c) = some (c.toNat : ℚ) :=
  value_whole (c.toNat_lt.trans (by decide))

/-- What is a few roundings away from a number of usual size is moderate. -/
theorem Near.moderate {k : Nat} {q : ℚ} (h : Near k p q) (hk : k ≤ 7) (hlow : 1 / 2 ^ 20 ≤ q)
    (hhigh : q ≤ 2 ^ 20) : Moderate p := by
  have hq : 0 < q := lt_of_lt_of_le (by norm_num) hlow
  have hslack : slack ^ 7 ≤ 2 := by norm_num [slack]
  have hnear := h.mono hq hk
  constructor
  · have hdouble := hnear.ge.trans (mul_le_mul_of_nonneg_left hslack (h.pos hq).le)
    linarith
  · have hdouble := hnear.le.trans (mul_le_mul_of_nonneg_left hslack hq.le)
    linarith

/-- A byte other than zero as a value between zero and one. -/
theorem value_ofByte {c : UInt8} (hc : c ≠ 0) :
    ∃ v, value (ofByte c) = some v ∧ Near 1 v (c.toNat / 255) ∧ Moderate v ∧
      (1 / 255 : ℚ) ≤ c.toNat / 255 ∧ (c.toNat / 255 : ℚ) ≤ 1 := by
  have hc0 : c.toNat ≠ 0 := fun h => hc (UInt8.toNat_inj.mp h)
  have hlow : (1 : ℚ) ≤ c.toNat := by exact_mod_cast Nat.one_le_iff_ne_zero.mpr hc0
  have hhigh : (c.toNat : ℚ) ≤ 255 := by exact_mod_cast Nat.le_of_lt_succ c.toNat_lt
  have hfull : Moderate 255 := by constructor <;> norm_num
  obtain ⟨v, hv, hnear⟩ :=
    value_div (value_ofNatByte c) value_full (moderate_byte hc0 c.toNat_lt) hfull
  refine ⟨v, hv, hnear, hnear.moderate (by decide) ?_ ?_, ?_, ?_⟩ <;> linarith

/-! ## To bytes -/

theorem value_clampUnit (ha : value a = some p) (hp : 0 ≤ p) :
    value (clampUnit a) = some (min p 1) := by
  have hzero : ¬ a < 0 := fun h =>
    not_lt.mpr hp ((lt_iff_value ha (b := 0) rfl hp le_rfl).mp h)
  have hcut : clampUnit a = if (1 : Float32) < a then 1 else a := if_neg hzero
  have hone := lt_iff_value value_one ha zero_le_one hp
  rw [hcut]
  split
  · next h => rw [min_eq_right (hone.mp h).le, value_one]
  · next h => rw [min_eq_left (not_lt.mp fun hlt => h (hone.mpr hlt)), ha]

/-- Taking a byte away is rounded at most once. -/
theorem value_sub_byte (hn : n < 256) (ha : value a = some p) (hp : Moderate p) (hle : n ≤ p) :
    ∃ d, value (a - ofNatByte (UInt8.ofNat n)) = some d ∧ Near 1 d (p - n) := by
  by_cases h : n = 0
  · subst h
    refine ⟨p, value_sub_zero ha hp rfl, ?_⟩
    rw [Nat.cast_zero, sub_zero]
    exact ⟨le_mul_of_one_le_right hp.pos.le (by norm_num [slack]),
      le_mul_of_one_le_right hp.pos.le (by norm_num [slack])⟩
  · have hb := value_ofNatByte (UInt8.ofNat n)
    rw [UInt8.toNat_ofNat_of_lt' hn] at hb
    exact value_sub ha hb hp (moderate_byte h hn) hle

/-- **A value near a byte** gives the byte. -/
theorem toByte_of_near (ha : value a = some p) (hn : n ≠ 0) (hn' : n < 256)
    (hnear : Near 6 p (n / 255)) : toByte a = UInt8.ofNat n := by
  have hlow : (1 : ℚ) ≤ n := by exact_mod_cast Nat.one_le_iff_ne_zero.mpr hn
  have hhigh : (n : ℚ) ≤ 255 := by exact_mod_cast Nat.le_of_lt_succ hn'
  have hpos := hnear.pos (by linarith)
  have hslack : (1 : ℚ) ≤ slack ^ 6 := one_le_pow₀ one_le_slack
  -- cutting moves the value towards its byte
  have hcut : Near 6 (min p 1) (n / 255) := by
    refine ⟨(min_le_left _ _).trans hnear.le, ?_⟩
    rw [min_mul_of_nonneg _ _ (slack_pow_pos 6).le, one_mul]
    exact le_min hnear.ge (by linarith)
  have hfull : Moderate 255 := by constructor <;> norm_num
  obtain ⟨v, hv, hscaled⟩ := value_mul (value_clampUnit ha hpos.le) value_full
    (hcut.moderate (by decide) (by linarith) (by linarith)) hfull
  have hv7 : Near 7 v n := by
    have h := hscaled.trans (hcut.scale (r := 255) (by norm_num))
    rwa [div_mul_cancel₀ _ (by norm_num : (255 : ℚ) ≠ 0)] at h
  -- seven roundings move a number up to 255 by less than a quarter
  have hseven : slack ^ 7 ≤ 1 + 1 / 1024 := by norm_num [slack]
  have hvpos := hv7.pos (by linarith)
  have hvhigh : v ≤ n + 1 / 4 := by
    have := hv7.le.trans (mul_le_mul_of_nonneg_left hseven (by linarith : (0 : ℚ) ≤ n))
    linarith
  have hvlow : n - 1 / 4 ≤ v := by
    have := hv7.ge.trans (mul_le_mul_of_nonneg_left hseven hvpos.le)
    linarith
  have hmoderate : Moderate v := by constructor <;> linarith
  have hround : slack ^ 1 ≤ 3 / 2 := by norm_num [slack]
  have hbyte : toByte a =
      if (0.5 : Float32) ≤ clampUnit a * 255.0 - ofNatByte (floorByte (clampUnit a * 255.0)) then
        floorByte (clampUnit a * 255.0) + 1 else floorByte (clampUnit a * 255.0) :=
    if_pos (isFinite_of_value ha)
  rw [hbyte]
  rcases lt_or_ge v n with hbelow | habove
  · -- the whole part is the byte before, and what is left is above a half
    obtain ⟨m, rfl⟩ := Nat.exists_eq_succ_of_ne_zero hn
    rw [Nat.cast_succ] at hvlow hbelow
    have hm : (m : ℚ) ≤ v := by linarith
    obtain ⟨d, hd, hleft⟩ := value_sub_byte (by omega) hv hmoderate hm
    have hdlow : (1 : ℚ) / 2 ≤ d := by
      have hdpos := hleft.pos (by linarith)
      have := hleft.ge.trans (mul_le_mul_of_nonneg_left hround hdpos.le)
      linarith
    rw [floorByte_eq hv (by omega) hm hbelow, if_pos
      ((le_iff_value value_half hd (by norm_num) (by linarith)).mpr hdlow), Nat.succ_eq_add_one,
      UInt8.ofNat_add]
    rfl
  · obtain ⟨d, hd, hleft⟩ := value_sub_byte hn' hv hmoderate habove
    have hgap : (0 : ℚ) ≤ v - n := by linarith
    have hd0 : 0 ≤ d := nonneg_of_mul_nonneg_left (hgap.trans hleft.ge) (slack_pow_pos 1)
    have hdhigh : d < 1 / 2 := by
      have := hleft.le.trans (mul_le_mul_of_nonneg_left hround hgap)
      linarith
    rw [floorByte_eq hv hn' habove (by linarith), if_neg fun h =>
      not_le.mpr hdhigh ((le_iff_value value_half hd (by norm_num) hd0).mp h)]

/-! ## There and back -/

/-- A byte comes back. -/
theorem toByte_ofByte (c : UInt8) : toByte (ofByte c : Float32) = c := by
  by_cases hc : c = 0
  · subst hc
    rfl
  · obtain ⟨v, hv, hnear, -, hlow, -⟩ := value_ofByte hc
    have hc0 : c.toNat ≠ 0 := fun h => hc (UInt8.toNat_inj.mp h)
    have hsix := hnear.mono (lt_of_lt_of_le (by norm_num) hlow) (by decide : 1 ≤ 6)
    rw [toByte_of_near hv hc0 c.toNat_lt hsix, UInt8.ofNat_toNat]

theorem zero_mul_of_pos (ha : value a = some p) (hp : 0 < p) : (0 : Float32) * a = 0 := by
  rcases value_eq_some ha hp.le with ⟨s, -, rfl⟩ | ⟨m, e, hm, hunpack, -⟩
  · exact absurd hp (lt_irrefl 0)
  · have hproduct : (0 : Float32) * a = .ofModel (.pack (.mul .binary32
        (0 : Float32).toModel.unpack a.toModel.unpack)) := rfl
    rw [hproduct, hunpack]
    rfl

theorem mul_zero_of_pos (ha : value a = some p) (hp : 0 < p) : a * (0 : Float32) = 0 := by
  rcases value_eq_some ha hp.le with ⟨s, -, rfl⟩ | ⟨m, e, hm, hunpack, -⟩
  · exact absurd hp (lt_irrefl 0)
  · have hproduct : a * (0 : Float32) = .ofModel (.pack (.mul .binary32
        a.toModel.unpack (0 : Float32).toModel.unpack)) := rfl
    rw [hproduct, hunpack]
    rfl

/-- Without coverage nothing is left of a colour. -/
theorem ofByte_mul_zero (c : UInt8) : (ofByte c : Float32) * 0 = 0 := by
  by_cases hc : c = 0
  · subst hc
    rfl
  · obtain ⟨v, hv, -, hmoderate, -, -⟩ := value_ofByte hc
    exact mul_zero_of_pos hv hmoderate.pos

/-- Coverage other than zero is positive. -/
theorem ofByte_pos {c : UInt8} (hc : c ≠ 0) :
    (0 : Float32) < ofByte c ∧ isFinite (ofByte c : Float32) = true := by
  obtain ⟨v, hv, -, hmoderate, -, -⟩ := value_ofByte hc
  exact ⟨(lt_iff_value (a := 0) rfl hv le_rfl hmoderate.pos.le).mpr hmoderate.pos,
    isFinite_of_value hv⟩

/-- **A colour comes back** when it is multiplied by its coverage and freed of it again. -/
theorem toByte_freed (c : UInt8) {alpha : UInt8} (h : alpha ≠ 0) :
    toByte (ofByte c * ofByte alpha * (1 / ofByte alpha) : Float32) = c := by
  obtain ⟨v, hv, hnear, hmoderate, hlow, hhigh⟩ := value_ofByte h
  have hpos : (0 : ℚ) < alpha.toNat / 255 := lt_of_lt_of_le (by norm_num) hlow
  have hone : Moderate 1 := by constructor <;> norm_num
  obtain ⟨i, hi, hquotient⟩ := value_div value_one hv hone hmoderate
  have hinverse : Near 2 i (1 / (alpha.toNat / 255)) :=
    hquotient.trans ((Near.refl 1).div hnear one_pos hpos)
  have hiz : Moderate i := hinverse.moderate (by decide)
    (by rw [le_div_iff₀ hpos]; linarith) (by rw [div_le_iff₀ hpos]; linarith)
  by_cases hc : c = 0
  · subst hc
    have hblack : (ofByte 0 : Float32) = 0 := rfl
    rw [hblack, zero_mul_of_pos hv hmoderate.pos, zero_mul_of_pos hi hiz.pos]
    rfl
  obtain ⟨w, hw, hnear', hmoderate', hlow', hhigh'⟩ := value_ofByte hc
  have hpos' : (0 : ℚ) < c.toNat / 255 := lt_of_lt_of_le (by norm_num) hlow'
  -- one rounding for each of the two values and one for their product
  obtain ⟨t, ht, hproduct⟩ := value_mul hw hv hmoderate' hmoderate
  have hcovered : Near 3 t (c.toNat / 255 * (alpha.toNat / 255)) :=
    hproduct.trans (hnear'.mul hnear hpos' hpos)
  have htz : Moderate t := by
    refine hcovered.moderate (by decide) ?_ ?_
    · calc (1 / 2 ^ 20 : ℚ) ≤ 1 / 255 * (1 / 255) := by norm_num
        _ ≤ _ := mul_le_mul hlow' hlow (by norm_num) hpos'.le
    · calc (c.toNat / 255 * (alpha.toNat / 255) : ℚ) ≤ 1 * 1 :=
          mul_le_mul hhigh' hhigh hpos.le zero_le_one
        _ ≤ 2 ^ 20 := by norm_num
  -- the quotient has two more, and putting both together one
  obtain ⟨u, hu, hfreed⟩ := value_mul ht hi htz hiz
  have hback : Near 6 u (c.toNat / 255) := by
    have hsix := hfreed.trans (hcovered.mul hinverse (mul_pos hpos' hpos) (by positivity))
    rwa [mul_one_div, mul_div_cancel_right₀ _ hpos.ne'] at hsix
  have hc0 : c.toNat ≠ 0 := fun h0 => hc (UInt8.toNat_inj.mp h0)
  rw [toByte_of_near hu hc0 c.toNat_lt hback, UInt8.ofNat_toNat]

end Patchwork.Channel.Single
