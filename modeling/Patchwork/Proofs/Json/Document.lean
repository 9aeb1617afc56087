import Patchwork.Proofs.Json.Text

/-!
# Printed documents are read back

The reader is a recursive descent over the octets with a bound on the nested calls.  It follows the
printer: by induction over the document, what is printed for it is read as that document, whatever
comes next in the text around it.  A printed document has at least as many octets as the reader
nests calls for it, so the bound that the reader sets itself is never met.

A number that is not an integer keeps the way it is written, and a string without content has lost
its octets, so neither can be printed and read back; all other documents can.

## Main definitions

* `Json.Printable` — the documents without such parts.

## Main statements

* `Json.parse_print` — a printed document is read as that document.
-/

namespace Patchwork.Json

/-! ## Digits -/

section Digits

variable {n : Nat} {ds rest : Octets}

theorem narrow_of_isDigit {c : Char} (hc : c.isDigit) : c.toNat < 128 := by
  simp only [Char.isDigit, Bool.and_eq_true, decide_eq_true_eq] at hc
  have hle : c.toNat ≤ 57 := hc.2
  omega

theorem octets_repr (n : Nat) : octets n.repr = Nat.toDigits 10 n := by
  rw [octets_eq, Nat.toList_repr]
  exact flatMap_octetsOfChar fun c hc =>
    narrow_of_isDigit (Nat.isDigit_of_mem_toDigits (by decide) (by decide) hc)

/-- Only zero is written with a zero in front. -/
theorem eq_zero_of_head_toDigits (h : (Nat.toDigits 10 n).head? = some '0') : n = 0 := by
  induction n using Nat.strongRecOn with
  | ind n ih =>
    by_cases hn : n < 10
    · have hdigit : ∀ n < 10, n.digitChar = '0' → n = 0 := by decide
      rw [Nat.toDigits_of_lt_base hn] at h
      exact hdigit n hn (Option.some.inj h)
    · rw [Nat.toDigits_of_base_le (by decide) (Nat.not_lt.mp hn), List.head?_append] at h
      have htail := ih (n / 10) (by omega) (by
        cases hhead : (Nat.toDigits 10 (n / 10)).head? with
        | none => simp at hhead
        | some c => simpa [hhead] using h)
      omega

/-- What follows a printed document inside another one, or its end. -/
def Closed (rest : Octets) : Prop := ∀ c ∈ rest.head?, c = ',' ∨ c = ']' ∨ c = '}'

theorem Closed.not_isContinued (h : Closed rest) : isContinued rest = false := by
  cases rest with
  | nil => rfl
  | cons c rest =>
    obtain rfl | rfl | rfl := h c rfl <;> rfl

theorem Closed.span (h : Closed rest) (hds : ∀ c ∈ ds, c.isDigit) :
    (ds ++ rest).takeWhile Char.isDigit = ds ∧ (ds ++ rest).dropWhile Char.isDigit = rest := by
  have hrest : rest.takeWhile Char.isDigit = [] ∧ rest.dropWhile Char.isDigit = rest := by
    cases rest with
    | nil => exact ⟨rfl, rfl⟩
    | cons c rest => obtain rfl | rfl | rfl := h c rfl <;> exact ⟨rfl, rfl⟩
  rw [List.takeWhile_append_of_pos hds, List.dropWhile_append_of_pos hds, hrest.1, hrest.2,
    List.append_nil]
  exact ⟨rfl, rfl⟩

theorem decimal_toDigits (n : Nat) : decimal (Nat.toDigits 10 n) = n :=
  Nat.ofDigitChars_ten_toDigits

theorem isDigit_of_mem_toDigits {c : Char} (hc : c ∈ Nat.toDigits 10 n) : c.isDigit :=
  Nat.isDigit_of_mem_toDigits (by decide) (by decide) hc

/-- The digits of a number are taken for no other token. -/
theorem exists_cons_toDigits (n : Nat) :
    ∃ d ds, Nat.toDigits 10 n = d :: ds ∧ d.isDigit ∧ (d = '0' → ds = []) := by
  cases hds : Nat.toDigits 10 n with
  | nil => exact absurd hds Nat.toDigits_ne_nil
  | cons d ds =>
    refine ⟨d, ds, rfl, isDigit_of_mem_toDigits (hds ▸ List.mem_cons_self ..), ?_⟩
    rintro rfl
    obtain rfl := eq_zero_of_head_toDigits (congrArg List.head? hds)
    exact (List.cons.inj (hds.symm.trans (Nat.toDigits_zero 10))).2

/-- The digits of a number are no reason to refuse it. -/
theorem scanNumber_eq {os : Octets} (hrest : Closed rest)
    (hunsigned : (if os.head? = some '-' then os.tail else os) = Nat.toDigits 10 n ++ rest)
    (hsign : os.head? = some '-' → n ≠ 0) :
    scanNumber os = some (integer (if os.head? = some '-' then -(n : Int) else n), rest) := by
  obtain ⟨d, ds, hds, -, hzero⟩ := exists_cons_toDigits n
  obtain ⟨htake, hdrop⟩ := hrest.span fun c hc => isDigit_of_mem_toDigits (n := n) hc
  have hwhole : ¬ (isContinued rest = true ∨ os.head? = some '-' ∧ n = 0) := by
    rintro (hcontinued | ⟨hhead, hn⟩)
    · exact absurd hcontinued (by simp [hrest.not_isContinued])
    · exact hsign hhead hn
  simp only [scanNumber, hunsigned, htake, hdrop, decimal_toDigits, hwhole, if_false]
  split
  · next hnil => exact absurd hnil Nat.toDigits_ne_nil
  · next second others hcons =>
    obtain ⟨rfl, rfl⟩ := List.cons.inj (hds.symm.trans hcons)
    cases hzero rfl
  · rfl

theorem scanNumber_ofNat (hrest : Closed rest) :
    scanNumber (Nat.toDigits 10 n ++ rest) = some (integer n, rest) := by
  obtain ⟨d, ds, hds, hdigit, -⟩ := exists_cons_toDigits n
  have hhead : (Nat.toDigits 10 n ++ rest).head? ≠ some '-' := by
    rw [hds]
    rintro ⟨⟩
    cases hdigit
  rw [scanNumber_eq hrest (if_neg hhead) fun h => absurd h hhead, if_neg hhead]

theorem scanNumber_neg (hn : n ≠ 0) (hrest : Closed rest) :
    scanNumber ('-' :: (Nat.toDigits 10 n ++ rest)) = some (integer (-n), rest) :=
  scanNumber_eq hrest rfl fun _ => hn

theorem octets_toString (v : Int) :
    octets (toString v) =
      if 0 ≤ v then Nat.toDigits 10 v.toNat else '-' :: Nat.toDigits 10 (-v).toNat := by
  have hsign : octets "-" = ['-'] := by decide
  rw [Int.toString_eq_repr, Int.repr_eq_if]
  split
  · exact octets_repr _
  · rw [octets_append, octets_repr, hsign, List.singleton_append]

/-- **An integer is read back.** -/
theorem scanNumber_toString (v : Int) (hrest : Closed rest) :
    scanNumber (octets (toString v) ++ rest) = some (integer v, rest) := by
  rw [octets_toString]
  split
  · next hv => rw [scanNumber_ofNat hrest, Int.toNat_of_nonneg hv]
  · next hv =>
    rw [List.cons_append, scanNumber_neg (by omega) hrest, Int.toNat_of_nonneg (by omega),
      Int.neg_neg]

end Digits

/-! ## First octets -/

/-- A document may begin with this octet: it is no blank and closes nothing. -/
def Opens (c : Char) : Prop := isBlank c = false ∧ c ≠ ']' ∧ c ≠ '}'

instance (c : Char) : Decidable (Opens c) := inferInstanceAs (Decidable (_ ∧ _))

theorem opens_of_isDigit {c : Char} (hc : c.isDigit) : Opens c := by
  refine ⟨?_, ?_, ?_⟩
  · by_contra hblank
    simp only [isBlank, Bool.not_eq_false, Bool.or_eq_true, decide_eq_true_eq] at hblank
    obtain ((rfl | rfl) | rfl) | rfl := hblank <;> cases hc
  · rintro rfl
    cases hc
  · rintro rfl
    cases hc

/-- The octets begin with one that may begin a document. -/
def Begun (os : Octets) : Prop := ∃ c rest, os = c :: rest ∧ Opens c

theorem Begun.append {os : Octets} (h : Begun os) (rest : Octets) : Begun (os ++ rest) := by
  obtain ⟨c, more, rfl, hc⟩ := h
  exact ⟨c, more ++ rest, rfl, hc⟩

theorem Begun.skipBlanks {os : Octets} (h : Begun os) : skipBlanks os = os := by
  obtain ⟨c, rest, rfl, hc⟩ := h
  exact List.dropWhile_cons_of_neg (by simp [hc.1])

theorem begun_quote (s : String) : Begun (octets (quote s)) :=
  ⟨'"', _, octets_quote s, by decide⟩

theorem begun_toString (v : Int) : Begun (octets (toString v)) := by
  rw [octets_toString]
  split
  · obtain ⟨d, ds, hds, hdigit, -⟩ := exists_cons_toDigits v.toNat
    exact ⟨d, ds, hds, opens_of_isDigit hdigit⟩
  · exact ⟨'-', _, rfl, by decide⟩

/-! ## Documents -/

mutual

/-- The document can be printed and read back. -/
def Printable : Json → Prop
  | real _ => False
  | text content => content.isSome
  | array items => PrintableItems items
  | object members => PrintableMembers members
  | null | bool _ | integer _ => True

/-- All these documents can be printed and read back. -/
def PrintableItems : List Json → Prop
  | [] => True
  | item :: items => Printable item ∧ PrintableItems items

/-- All these named documents can be printed and read back. -/
def PrintableMembers : List (Option String × Json) → Prop
  | [] => True
  | (name, value) :: members => name.isSome ∧ Printable value ∧ PrintableMembers members

end

theorem octets_punctuation : octets "[" = ['['] ∧ octets "]" = [']'] ∧ octets "\x7b" = ['{'] ∧
    octets "\x7d" = ['}'] ∧ octets "," = [','] ∧ octets ":" = [':'] := by
  decide

theorem begun_print {j : Json} (hj : Printable j) : Begun (octets j.print) := by
  have harray : Begun (octets "[") := ⟨'[', [], by decide, by decide⟩
  have hobject : Begun (octets "\x7b") := ⟨'{', [], by decide, by decide⟩
  cases j with
  | null => exact ⟨'n', ['u', 'l', 'l'], by decide, by decide⟩
  | bool value =>
    cases value with
    | false => exact ⟨'f', ['a', 'l', 's', 'e'], by decide, by decide⟩
    | true => exact ⟨'t', ['r', 'u', 'e'], by decide, by decide⟩
  | integer v => exact begun_toString v
  | real literal => exact hj.elim
  | text content => exact begun_quote _
  | array items =>
    rw [print, octets_append, octets_append]
    exact (harray.append _).append _
  | object members =>
    rw [print, octets_append, octets_append]
    exact (hobject.append _).append _

theorem printItems_cons (item next : Json) (items : List Json) :
    printItems (item :: next :: items) = print item ++ "," ++ printItems (next :: items) := rfl

theorem printMembers_cons (name : Option String) (value : Json) (next : Option String × Json)
    (members : List (Option String × Json)) :
    printMembers ((name, value) :: next :: members) =
      quote (name.getD "") ++ ":" ++ print value ++ "," ++ printMembers (next :: members) := rfl

theorem begun_printItems {item : Json} (hitem : Printable item) (items : List Json) :
    Begun (octets (printItems (item :: items))) := by
  cases items with
  | nil => exact begun_print hitem
  | cons next items =>
    rw [printItems_cons, octets_append, octets_append]
    exact ((begun_print hitem).append _).append _

theorem begun_printMembers (name : Option String) (value : Json)
    (members : List (Option String × Json)) :
    Begun (octets (printMembers ((name, value) :: members))) := by
  have hname := begun_quote (name.getD "")
  cases members with
  | nil =>
    rw [printMembers, octets_append, octets_append]
    exact (hname.append _).append _
  | cons next members =>
    rw [printMembers_cons, octets_append, octets_append, octets_append, octets_append]
    exact (((hname.append _).append _).append _).append _

/-- A number is taken for no other token. -/
theorem scanValue_toString (v : Int) {depth : Nat} {rest : Octets} (hrest : Closed rest) :
    scanValue (depth + 1) (octets (toString v) ++ rest) = some (integer v, rest) := by
  have hskip := ((begun_toString v).append rest).skipBlanks
  have hnumber := scanNumber_toString v hrest
  obtain ⟨c, more, hos, hc⟩ : ∃ c more, octets (toString v) ++ rest = c :: more ∧
      (c = '-' ∨ c.isDigit) := by
    rw [octets_toString]
    split
    · obtain ⟨d, ds, hds, hdigit, -⟩ := exists_cons_toDigits v.toNat
      exact ⟨d, ds ++ rest, by rw [hds]; rfl, .inr hdigit⟩
    · exact ⟨'-', _, rfl, .inl rfl⟩
  have hother : ∀ token ∈ ['"', '[', '{', 't', 'f', 'n'], c ≠ token := by
    rintro token htoken rfl
    rcases hc with rfl | hdigit
    · revert htoken
      decide
    · simp only [List.mem_cons, List.not_mem_nil, or_false] at htoken
      obtain rfl | rfl | rfl | rfl | rfl | rfl := htoken <;> cases hdigit
  simp only [List.mem_cons, List.not_mem_nil, or_false, forall_eq_or_imp, forall_eq] at hother
  rw [scanValue, hskip, ← hnumber, hos]
  split <;> simp_all

section Tokens

variable {depth : Nat} {body rest : Octets}

theorem scanValue_bracket (hbody : Begun body) :
    scanValue (depth + 1) ('[' :: body) =
      (scanItems depth body).map fun (items, rest) => (array items, rest) := by
  have hskip := hbody.skipBlanks
  have hopen : skipBlanks ('[' :: body) = '[' :: body := rfl
  obtain ⟨c, more, rfl, hc⟩ := hbody
  rw [scanValue, hopen]
  simp only [hskip]
  split
  · next hclose => exact absurd (List.cons.inj hclose).1 hc.2.1
  · rfl

theorem scanValue_brace (hbody : Begun body) :
    scanValue (depth + 1) ('{' :: body) =
      (scanMembers depth body).map fun (members, rest) => (object members, rest) := by
  have hskip := hbody.skipBlanks
  have hopen : skipBlanks ('{' :: body) = '{' :: body := rfl
  obtain ⟨c, more, rfl, hc⟩ := hbody
  rw [scanValue, hopen]
  simp only [hskip]
  split
  · next hclose => exact absurd (List.cons.inj hclose).1 hc.2.2
  · rfl

theorem scanItems_comma {item : Json} (hitem : scanValue depth body = some (item, ',' :: rest)) :
    scanItems (depth + 1) body =
      (scanItems depth rest).map fun (items, rest) => (item :: items, rest) := by
  rw [scanItems, hitem]
  rfl

theorem scanItems_last {item : Json} (hitem : scanValue depth body = some (item, ']' :: rest)) :
    scanItems (depth + 1) body = some ([item], rest) := by
  rw [scanItems, hitem]
  rfl

theorem scanMembers_comma {name : String} {value : Json}
    (hvalue : scanValue depth body = some (value, ',' :: rest)) :
    scanMembers (depth + 1) (octets (quote name) ++ ':' :: body) =
      (scanMembers depth rest).map fun (members, rest) =>
        ((some name, value) :: members, rest) := by
  obtain ⟨text, htext, hread⟩ := scanText_quote name (':' :: body)
  have hopen : skipBlanks ('"' :: text) = '"' :: text := rfl
  have hcolon : skipBlanks (':' :: body) = ':' :: body := rfl
  rw [htext, scanMembers, hopen]
  simp only [hread, hcolon, hvalue]
  rfl

theorem scanMembers_last {name : String} {value : Json}
    (hvalue : scanValue depth body = some (value, '}' :: rest)) :
    scanMembers (depth + 1) (octets (quote name) ++ ':' :: body) =
      some ([(some name, value)], rest) := by
  obtain ⟨text, htext, hread⟩ := scanText_quote name (':' :: body)
  have hopen : skipBlanks ('"' :: text) = '"' :: text := rfl
  have hcolon : skipBlanks (':' :: body) = ':' :: body := rfl
  rw [htext, scanMembers, hopen]
  simp only [hread, hcolon, hvalue]
  rfl

end Tokens

theorem exists_depth {os : Octets} (hos : Begun os) {depth : Nat} (hdepth : os.length ≤ depth) :
    ∃ nested, depth = nested + 1 := by
  obtain ⟨c, more, rfl, -⟩ := hos
  exact Nat.exists_eq_add_of_lt (Nat.lt_of_lt_of_le (Nat.succ_pos _) hdepth) |>.imp fun n hn => by
    rwa [Nat.zero_add] at hn

theorem closed_comma (rest : Octets) : Closed (',' :: rest) := by
  rintro c ⟨⟩
  exact .inl rfl

theorem closed_bracket (rest : Octets) : Closed (']' :: rest) := by
  rintro c ⟨⟩
  exact .inr (.inl rfl)

theorem closed_brace (rest : Octets) : Closed ('}' :: rest) := by
  rintro c ⟨⟩
  exact .inr (.inr rfl)

/-- What is printed for a document is read as that document, in any text around it. -/
def IsRead (j : Json) : Prop :=
  ∀ depth rest, (octets j.print).length ≤ depth → Closed rest →
    scanValue depth (octets j.print ++ rest) = some (j, rest)

/-- What is printed for the items of an array is read as these items. -/
def ItemsRead (items : List Json) : Prop :=
  ∀ depth rest, (octets (printItems items)).length < depth →
    scanItems depth (octets (printItems items) ++ ']' :: rest) = some (items, rest)

/-- What is printed for the members of an object is read as these members. -/
def MembersRead (members : List (Option String × Json)) : Prop :=
  ∀ depth rest, (octets (printMembers members)).length < depth →
    scanMembers depth (octets (printMembers members) ++ '}' :: rest) = some (members, rest)

/-- A document of one word. -/
theorem isRead_word {j : Json} (hj : Printable j)
    (hword : ∀ depth rest, scanValue (depth + 1) (octets j.print ++ rest) = some (j, rest)) :
    IsRead j := by
  intro depth rest hdepth _
  obtain ⟨depth, rfl⟩ := exists_depth (begun_print hj) hdepth
  exact hword depth rest

theorem isRead_integer (v : Int) : IsRead (integer v) := by
  intro depth rest hdepth hrest
  obtain ⟨depth, rfl⟩ := exists_depth (begun_toString v) hdepth
  exact scanValue_toString v hrest

theorem isRead_text (content : String) : IsRead (text (some content)) := by
  refine isRead_word rfl fun depth rest => ?_
  obtain ⟨body, hbody, hread⟩ := scanText_quote content rest
  have hopen : skipBlanks ('"' :: body) = '"' :: body := rfl
  rw [print, Option.getD_some, hbody, scanValue, hopen]
  simp only [hread, Option.map_some]

theorem isRead_array {item : Json} {items : List Json} (hj : PrintableItems (item :: items))
    (hitems : ItemsRead (item :: items)) : IsRead (array (item :: items)) := by
  intro depth rest hdepth _
  obtain ⟨depth, rfl⟩ := exists_depth (begun_print (j := array (item :: items)) hj) hdepth
  obtain ⟨hopen, hclose, -⟩ := octets_punctuation
  rw [print, octets_append, octets_append, hopen, hclose] at hdepth ⊢
  simp only [List.length_append, List.length_singleton] at hdepth
  rw [List.append_assoc, List.append_assoc, List.singleton_append, List.singleton_append,
    scanValue_bracket ((begun_printItems hj.1 items).append _), hitems depth rest (by omega),
    Option.map_some]

theorem isRead_object {member : Option String × Json} {members : List (Option String × Json)}
    (hj : PrintableMembers (member :: members)) (hmembers : MembersRead (member :: members)) :
    IsRead (object (member :: members)) := by
  intro depth rest hdepth _
  obtain ⟨depth, rfl⟩ := exists_depth (begun_print (j := object (member :: members)) hj) hdepth
  obtain ⟨-, -, hopen, hclose, -⟩ := octets_punctuation
  rw [print, octets_append, octets_append, hopen, hclose] at hdepth ⊢
  simp only [List.length_append, List.length_singleton] at hdepth
  rw [List.append_assoc, List.append_assoc, List.singleton_append, List.singleton_append,
    scanValue_brace ((begun_printMembers member.1 member.2 members).append _),
    hmembers depth rest (by omega), Option.map_some]

theorem itemsRead_last {item : Json} (hj : Printable item) (hitem : IsRead item) :
    ItemsRead [item] := by
  intro depth rest hdepth
  obtain ⟨depth, rfl⟩ := exists_depth (begun_print hj) (Nat.le_of_lt hdepth)
  exact scanItems_last (hitem depth _ (Nat.le_of_lt_succ hdepth) (closed_bracket rest))

theorem itemsRead_cons {item next : Json} {items : List Json} (hj : Printable item)
    (hitem : IsRead item) (hitems : ItemsRead (next :: items)) :
    ItemsRead (item :: next :: items) := by
  intro depth rest hdepth
  obtain ⟨depth, rfl⟩ := exists_depth (begun_printItems hj _) (Nat.le_of_lt hdepth)
  obtain ⟨-, -, -, -, hcomma, -⟩ := octets_punctuation
  rw [printItems_cons, octets_append, octets_append, hcomma] at hdepth ⊢
  simp only [List.length_append, List.length_singleton] at hdepth
  rw [List.append_assoc, List.append_assoc, List.singleton_append,
    scanItems_comma (hitem depth _ (by omega) (closed_comma _)), hitems depth rest (by omega),
    Option.map_some]

theorem membersRead_last {name : String} {value : Json} (hvalue : IsRead value) :
    MembersRead [(some name, value)] := by
  intro depth rest hdepth
  obtain ⟨depth, rfl⟩ := exists_depth (begun_printMembers _ _ _) (Nat.le_of_lt hdepth)
  obtain ⟨-, -, -, -, -, hcolon⟩ := octets_punctuation
  rw [printMembers, octets_append, octets_append, hcolon, Option.getD_some] at hdepth ⊢
  simp only [List.length_append, List.length_singleton] at hdepth
  rw [List.append_assoc, List.append_assoc, List.singleton_append]
  exact scanMembers_last (hvalue depth _ (by omega) (closed_brace rest))

theorem membersRead_cons {name : String} {value : Json} {next : Option String × Json}
    {members : List (Option String × Json)} (hvalue : IsRead value)
    (hmembers : MembersRead (next :: members)) :
    MembersRead ((some name, value) :: next :: members) := by
  intro depth rest hdepth
  obtain ⟨depth, rfl⟩ := exists_depth (begun_printMembers _ _ _) (Nat.le_of_lt hdepth)
  obtain ⟨-, -, -, -, hcomma, hcolon⟩ := octets_punctuation
  rw [printMembers_cons, octets_append, octets_append, octets_append, octets_append, hcolon,
    hcomma, Option.getD_some] at hdepth ⊢
  simp only [List.length_append, List.length_singleton] at hdepth
  simp only [List.append_assoc, List.cons_append, List.nil_append]
  rw [scanMembers_comma (hvalue depth _ (by omega) (closed_comma _)),
    hmembers depth rest (by omega), Option.map_some]

mutual

theorem isRead : ∀ j : Json, Printable j → IsRead j
  | null, hj => isRead_word hj fun _ _ => by
    have hword : octets (print null) = ['n', 'u', 'l', 'l'] := by decide
    rw [hword]
    rfl
  | bool true, hj => isRead_word hj fun _ _ => by
    have hword : octets (print (bool true)) = ['t', 'r', 'u', 'e'] := by decide
    rw [hword]
    rfl
  | bool false, hj => isRead_word hj fun _ _ => by
    have hword : octets (print (bool false)) = ['f', 'a', 'l', 's', 'e'] := by decide
    rw [hword]
    rfl
  | integer v, _ => isRead_integer v
  | real _, hj => hj.elim
  | text none, hj => nomatch hj
  | text (some content), _ => isRead_text content
  | array [], hj => isRead_word hj fun _ _ => by
    have hword : octets (array []).print = ['[', ']'] := by decide
    rw [hword]
    rfl
  | array (item :: items), hj =>
    isRead_array hj (itemsRead (item :: items) (List.cons_ne_nil _ _) hj)
  | object [], hj => isRead_word hj fun _ _ => by
    have hword : octets (object []).print = ['{', '}'] := by decide
    rw [hword]
    rfl
  | object (member :: members), hj =>
    isRead_object hj (membersRead (member :: members) (List.cons_ne_nil _ _) hj)

theorem itemsRead : ∀ items : List Json, items ≠ [] → PrintableItems items → ItemsRead items
  | [], hne, _ => absurd rfl hne
  | [item], _, hitems => itemsRead_last hitems.1 (isRead item hitems.1)
  | item :: next :: items, _, hitems =>
    itemsRead_cons hitems.1 (isRead item hitems.1)
      (itemsRead (next :: items) (List.cons_ne_nil _ _) hitems.2)

theorem membersRead : ∀ members : List (Option String × Json), members ≠ [] →
    PrintableMembers members → MembersRead members
  | [], hne, _ => absurd rfl hne
  | [(some _, value)], _, hmembers => membersRead_last (isRead value hmembers.2.1)
  | (some _, value) :: next :: members, _, hmembers =>
    membersRead_cons (isRead value hmembers.2.1)
      (membersRead (next :: members) (List.cons_ne_nil _ _) hmembers.2.2)
  | (none, _) :: _, _, hmembers => nomatch hmembers.1

end

/-- **A printed document is read as that document.** -/
theorem parse_print {j : Json} (hj : Printable j) : parse (octets j.print) = some j := by
  have hclosed : Closed [] := by
    rintro c ⟨⟩
  have hread := isRead j hj (2 * (octets j.print).length + 2) [] (by omega) hclosed
  rw [List.append_nil] at hread
  rw [parse, hread]
  rfl

end Patchwork.Json
