import Mathlib.Data.List.Basic
import Patchwork.Json.Parser

/-!
# Strings in documents

A string is written character by character, and each character is read back from what is written
for it: as one escape, or as its octets one after the other, none of which is a quote, a backslash
or a control character.

## Main definitions

* `Json.octetsOfChar` — the octets of one character.

## Main statements

* `Json.decoded_octets` — the octets of a string spell it.
* `Json.scanText_quote` — a string between quotes is read back.
-/

namespace Patchwork.Json

/-! ## Octets -/

/-- The octets of one character. -/
def octetsOfChar (c : Char) : Octets := octetsOf (String.utf8EncodeChar c)

@[simp] theorem octetsOf_append (a b : List UInt8) :
    octetsOf (a ++ b) = octetsOf a ++ octetsOf b := List.map_append

@[simp] theorem octets_append (s t : String) : octets (s ++ t) = octets s ++ octets t := by
  simp [octets, String.toByteArray_append]

theorem octets_ofList (cs : List Char) : octets (String.ofList cs) = cs.flatMap octetsOfChar := by
  simp only [octets, String.toUTF8_eq_toByteArray, String.toByteArray_ofList, List.utf8Encode,
    List.toList_data_toByteArray, octetsOf, List.map_flatMap]
  rfl

theorem octets_eq (s : String) : octets s = s.toList.flatMap octetsOfChar := by
  rw [← octets_ofList, String.ofList_toList]

theorem octets_singleton (c : Char) : octets (String.singleton c) = octetsOfChar c := by
  simp [octets_eq]

/-- Every octet is the number of a character. -/
theorem toNat_ofNat_octet (b : UInt8) : (Char.ofNat b.toNat).toNat = b.toNat := by
  have hvalid : b.toNat.isValidChar := .inl (Nat.lt_trans b.toNat_lt (by decide))
  rw [Char.ofNat, dif_pos hvalid]
  rfl

/-- A character of seven bits is its own octet. -/
theorem octetsOfChar_of_lt {c : Char} (hc : c.toNat < 128) : octetsOfChar c = [c] := by
  have hle : c.val.toNat ≤ 0x7f := Nat.le_of_lt_succ hc
  have hbyte : (UInt8.ofNat c.toNat).toNat = c.toNat := by
    rw [UInt8.toNat_ofNat']
    omega
  have hencode : String.utf8EncodeChar c = [UInt8.ofNat c.toNat] := if_pos hle
  rw [octetsOfChar, hencode, octetsOf, List.map_singleton, hbyte, Char.ofNat_toNat]

/-- Characters of seven bits are their own octets. -/
theorem flatMap_octetsOfChar {cs : List Char} (hcs : ∀ c ∈ cs, c.toNat < 128) :
    cs.flatMap octetsOfChar = cs := by
  induction cs with
  | nil => rfl
  | cons c cs ih =>
    obtain ⟨hc, hcs⟩ := List.forall_mem_cons.mp hcs
    rw [List.flatMap_cons, octetsOfChar_of_lt hc, ih hcs, List.singleton_append]

/-- The octets of any other character have eight bits. -/
theorem le_of_mem_octetsOfChar {c o : Char} (hc : 128 ≤ c.toNat) (ho : o ∈ octetsOfChar c) :
    128 ≤ o.toNat := by
  obtain ⟨b, hb, rfl⟩ := List.mem_map.mp ho
  have hbyte : 128 ≤ b.toNat := by
    unfold String.utf8EncodeChar at hb
    have hlt : ¬ c.val.toNat ≤ 0x7f := fun hle =>
      absurd hc (Nat.not_le_of_lt (Nat.lt_succ_of_le hle))
    rw [if_neg hlt] at hb
    split at hb <;> [skip; split at hb] <;>
      simp only [List.mem_cons, List.not_mem_nil, or_false] at hb <;>
      rcases hb with rfl | rfl | rfl | rfl <;> simp <;> omega
  rwa [toNat_ofNat_octet]

/-- The octets of a string spell it. -/
theorem decoded_octets (s : String) : decoded (octets s) = some s := by
  have hbytes : ((octets s).map fun c => c.toNat.toUInt8).toArray = s.toByteArray.data := by
    simp [octets, octetsOf, toNat_ofNat_octet, Function.comp_def]
  rw [decoded, hbytes]
  exact dif_pos s.isValidUTF8

/-! ## Reading characters -/

/-- These octets have been read, and nothing is left open. -/
def Scan.holding (os : Octets) : Scan := ⟨os.reverse, none, true⟩

@[simp] theorem Scan.add_holding (os more : Octets) :
    (Scan.holding os).add more = Scan.holding (os ++ more) := by
  simp [holding, add]

@[simp] theorem Scan.content_holding (s : String) :
    (Scan.holding (octets s)).content = some s := by
  simp [holding, content, decoded_octets]

variable {o : Char} {rest done : Octets} {s : Scan}

/-- The octet stands for itself inside a string. -/
def IsPlain (o : Char) : Prop := o ≠ '"' ∧ o ≠ '\\' ∧ 32 ≤ o.toNat

theorem isPlain_of_le (ho : 128 ≤ o.toNat) : IsPlain o := by
  refine ⟨?_, ?_, by omega⟩ <;> rintro rfl <;> revert ho <;> decide

theorem scanText_plain (ho : IsPlain o) : scanText (o :: rest) s = scanText rest (s.add [o]) := by
  obtain ⟨hquote, hslash, hprinted⟩ := ho
  simp [scanText, hslash, Nat.not_lt.mpr hprinted]

theorem scanText_plains {os : Octets} (hos : ∀ o ∈ os, IsPlain o) :
    scanText (os ++ rest) (.holding done) = scanText rest (.holding (done ++ os)) := by
  induction os generalizing done with
  | nil => simp
  | cons o os ih =>
    obtain ⟨ho, hos⟩ := List.forall_mem_cons.mp hos
    rw [List.cons_append, scanText_plain ho, Scan.add_holding, ih hos, List.append_assoc,
      List.singleton_append]

/-! ## Escapes -/

/-- How a character is written inside a string. -/
inductive Escaping (c : Char) : List Char → Prop
  /-- Behind a backslash, with a letter of its own. -/
  | letter (e : Char) (he : unescaped e = some c) (hnarrow : e.toNat < 128) (hc : c.toNat < 128) :
    Escaping c ['\\', e]
  /-- By its number. -/
  | number (hc : c.toNat < 32) : Escaping c (['\\', 'u', '0', '0'] ++ twoDigits c.toNat)
  /-- As it is. -/
  | plain (hc : IsPlain c) : Escaping c [c]

theorem escaping (c : Char) : Escaping c (escaped c) := by
  unfold escaped
  split_ifs with hquote hslash hback hfeed hline hreturn htab hcontrol
  · subst hquote
    exact .letter '"' rfl (by decide) (by decide)
  · subst hslash
    exact .letter '\\' rfl (by decide) (by decide)
  · subst hback
    exact .letter 'b' rfl (by decide) (by decide)
  · subst hfeed
    exact .letter 'f' rfl (by decide) (by decide)
  · subst hline
    exact .letter 'n' rfl (by decide) (by decide)
  · subst hreturn
    exact .letter 'r' rfl (by decide) (by decide)
  · subst htab
    exact .letter 't' rfl (by decide) (by decide)
  · exact .number hcontrol
  · exact .plain ⟨hquote, hslash, Nat.not_lt.mp hcontrol⟩

theorem scanText_letter {e : Char} (he : unescaped e = some o) :
    scanText ('\\' :: e :: rest) s = scanText rest (s.add [o]) := by
  have hu : e ≠ 'u' := by
    rintro rfl
    cases he
  simp [scanText, hu, he]

/-- The digits of a control character's number are read back. -/
theorem hexUnit_twoDigits {n : Nat} (hn : n < 32) :
    hexUnit '0' '0' (n / 16).digitChar (n % 16).digitChar = some n := by
  revert n
  decide

theorem narrow_twoDigits {n : Nat} (hn : n < 32) : ∀ c ∈ twoDigits n, c.toNat < 128 := by
  have hall : ∀ n < 32, (twoDigits n).all fun c => decide (c.toNat < 128) := by decide
  simpa using hall n hn

theorem scanText_number {c : Char} (hc : c.toNat < 32) :
    scanText (['\\', 'u', '0', '0'] ++ twoDigits c.toNat ++ rest) s =
      scanText rest (s.add (octetsOfChar c)) := by
  have hunit : s.addUnit c.toNat = s.add (octetsOfChar c) := by
    rw [Scan.addUnit, if_neg (by omega), if_neg (by omega), Char.ofNat_toNat, octets_singleton]
  simp only [twoDigits, List.cons_append, List.nil_append, scanText, hexUnit_twoDigits hc, hunit]

/-- What is written for a character is read as that character. -/
theorem scanText_escaped (c : Char) :
    scanText ((escaped c).flatMap octetsOfChar ++ rest) (.holding done) =
      scanText rest (.holding (done ++ octetsOfChar c)) := by
  have hescaping := escaping c
  generalize escaped c = written at *
  cases hescaping with
  | letter e he hnarrow hc =>
    have hwritten : ['\\', e].flatMap octetsOfChar = ['\\', e] :=
      flatMap_octetsOfChar (by simpa using hnarrow)
    rw [hwritten, octetsOfChar_of_lt hc, ← Scan.add_holding]
    exact scanText_letter he
  | number hc =>
    have hnarrow : ∀ o ∈ ['\\', 'u', '0', '0'] ++ twoDigits c.toNat, o.toNat < 128 :=
      List.forall_mem_append.mpr ⟨by simp, narrow_twoDigits hc⟩
    have hwritten := flatMap_octetsOfChar hnarrow
    rw [hwritten, scanText_number hc, Scan.add_holding]
  | plain hc =>
    rw [List.flatMap_singleton]
    apply scanText_plains
    intro o ho
    by_cases hwide : 128 ≤ c.toNat
    · exact isPlain_of_le (le_of_mem_octetsOfChar hwide ho)
    · rw [octetsOfChar_of_lt (Nat.not_le.mp hwide), List.mem_singleton] at ho
      exact ho ▸ hc

/-- What is written for characters is read as these characters. -/
theorem scanText_flatMap (cs : List Char) :
    scanText ((cs.flatMap escaped).flatMap octetsOfChar ++ rest) (.holding done) =
      scanText rest (.holding (done ++ cs.flatMap octetsOfChar)) := by
  induction cs generalizing done with
  | nil => simp
  | cons c cs ih =>
    rw [List.flatMap_cons, List.flatMap_append, List.append_assoc, scanText_escaped, ih,
      List.flatMap_cons, List.append_assoc]

theorem octets_quote (s : String) :
    octets (quote s) = '"' :: (s.toList.flatMap escaped).flatMap octetsOfChar ++ ['"'] := by
  have hquote : octetsOfChar '"' = ['"'] := octetsOfChar_of_lt (by decide)
  rw [quote, octets_ofList, List.flatMap_append, List.flatMap_cons, List.flatMap_singleton, hquote,
    List.singleton_append]

/-- **A string between quotes is read back.** -/
theorem scanText_quote (s : String) (rest : Octets) :
    ∃ body, octets (quote s) ++ rest = '"' :: body ∧
      scanText body .start = some (some s, rest) := by
  refine ⟨(s.toList.flatMap escaped).flatMap octetsOfChar ++ '"' :: rest,
    by simp [octets_quote], ?_⟩
  have hread := @scanText_flatMap ('"' :: rest) [] s.toList
  rw [List.nil_append, ← octets_eq] at hread
  have hend : scanText ('"' :: rest) (.holding (octets s)) =
      some ((Scan.holding (octets s)).content, rest) := by
    simp only [scanText]
  rw [Scan.content_holding] at hend
  exact hread.trans hend

end Patchwork.Json
