import Patchwork.Json.Basic

/-!
# Reading documents

A document is read from octets, each shown as the character of that number, so that a file need not
be text as a whole: only the strings that somebody looks at have to be.

The grammar is the standard one.  Between tokens stand spaces, tabs and line ends; numbers have no
leading zeros; control characters inside strings are refused; nothing but blanks may follow the
document.  Escapes of surrogates must come in pairs for a string to have content.

## Main definitions

* `Json.octets` — the octets of a string.
* `Json.Scan` — the content of a string read so far.
* `Json.parse` — the document of some octets.
-/

namespace Patchwork.Json

/-- Octets, each as the character of that number. -/
abbrev Octets := List Char

/-- The octets of a block of bytes. -/
def octetsOf (bytes : List UInt8) : Octets := bytes.map fun b => Char.ofNat b.toNat

/-- The octets of a string. -/
def octets (s : String) : Octets := octetsOf s.toUTF8.data.toList

/-- The string with these octets. -/
def decoded (os : Octets) : Option String :=
  String.fromUTF8? ⟨(os.map fun c => c.toNat.toUInt8).toArray⟩

/-- Blanks between tokens. -/
def isBlank (c : Char) : Bool := c = ' ' || c = '\n' || c = '\r' || c = '\t'

/-- The octets after leading blanks. -/
def skipBlanks (os : Octets) : Octets := os.dropWhile isBlank

/-- The value of a hexadecimal digit. -/
def hexValue (c : Char) : Option Nat :=
  if '0' ≤ c ∧ c ≤ '9' then some (c.toNat - 48)
  else if 'a' ≤ c ∧ c ≤ 'f' then some (c.toNat - 87)
  else if 'A' ≤ c ∧ c ≤ 'F' then some (c.toNat - 55)
  else none

/-- The value of four hexadecimal digits. -/
def hexUnit (a b c d : Char) : Option Nat := do
  return (((← hexValue a) * 16 + (← hexValue b)) * 16 + (← hexValue c)) * 16 + (← hexValue d)

/-- The octet that a backslash with this letter stands for. -/
def unescaped (c : Char) : Option Char :=
  if c = '"' ∨ c = '\\' ∨ c = '/' then some c
  else if c = 'b' then some '\x08'
  else if c = 'f' then some '\x0c'
  else if c = 'n' then some '\n'
  else if c = 'r' then some '\r'
  else if c = 't' then some '\t'
  else none

/-- The content of a string read so far. -/
structure Scan where
  /-- The octets, last first. -/
  reversed : Octets
  /-- A first surrogate that waits for its second. -/
  waiting : Option Nat
  /-- No surrogate was left alone. -/
  sound : Bool

namespace Scan

/-- Nothing read yet. -/
def start : Scan := ⟨[], none, true⟩

/-- Add octets; a surrogate that still waits stays alone. -/
def add (s : Scan) (os : Octets) : Scan :=
  ⟨os.reverse ++ s.reversed, none, s.sound && s.waiting.isNone⟩

/-- Add a sixteen-bit unit. -/
def addUnit (s : Scan) (n : Nat) : Scan :=
  if 0xD800 ≤ n ∧ n < 0xDC00 then ⟨s.reversed, some n, s.sound && s.waiting.isNone⟩
  else if 0xDC00 ≤ n ∧ n < 0xE000 then
    match s.waiting with
    | some high =>
      let c := Char.ofNat (0x10000 + (high - 0xD800) * 0x400 + (n - 0xDC00))
      ⟨(octets (String.singleton c)).reverse ++ s.reversed, none, s.sound⟩
    | none => ⟨s.reversed, none, false⟩
  else s.add (octets (String.singleton (Char.ofNat n)))

/-- The string, if its octets are text. -/
def content (s : Scan) : Option String :=
  if s.sound && s.waiting.isNone then decoded s.reversed.reverse else none

end Scan

/-- The string after its opening quote, and what follows. -/
def scanText : Octets → Scan → Option (Option String × Octets)
  | [], _ => none
  | '"' :: rest, s => some (s.content, rest)
  | '\\' :: 'u' :: a :: b :: c :: d :: rest, s =>
    match hexUnit a b c d with
    | some n => scanText rest (s.addUnit n)
    | none => none
  | '\\' :: e :: rest, s =>
    match unescaped e with
    | some o => scanText rest (s.add [o])
    | none => none
  | o :: rest, s => if o.toNat < 32 then none else scanText rest (s.add [o])

/-- The value of decimal digits. -/
def decimal (digits : Octets) : Nat := digits.foldl (fun n c => 10 * n + (c.toNat - 48)) 0

/-- What follows a non-empty run of digits. -/
def afterDigits (os : Octets) : Option Octets :=
  match os with
  | c :: rest => if c.isDigit then some (rest.dropWhile Char.isDigit) else none
  | [] => none

/-- What follows an optional fraction. -/
def afterFraction : Octets → Option Octets
  | '.' :: rest => afterDigits rest
  | os => some os

/-- What follows an optional exponent. -/
def afterExponent : Octets → Option Octets
  | e :: rest =>
    if e = 'e' ∨ e = 'E' then
      match rest with
      | '+' :: rest | '-' :: rest => afterDigits rest
      | rest => afterDigits rest
    else some (e :: rest)
  | [] => some []

/-- A fraction or an exponent begins here. -/
def isContinued (os : Octets) : Bool := os.head?.any fun c => c = '.' || c = 'e' || c = 'E'

/-- A character that numbers are written with. -/
def isNumeral (c : Char) : Bool :=
  c.isDigit || c = '+' || c = '-' || c = '.' || c = 'e' || c = 'E'

/-- A number, and what follows.  The negative zero is no integer. -/
def scanNumber (os : Octets) : Option (Json × Octets) := do
  let negative := os.head? = some '-'
  let unsigned := if negative then os.tail else os
  let digits := unsigned.takeWhile Char.isDigit
  let afterWhole := unsigned.dropWhile Char.isDigit
  match digits with
  | [] | '0' :: _ :: _ => none
  | _ =>
    if isContinued afterWhole ∨ (negative ∧ decimal digits = 0) then
      let rest ← afterExponent (← afterFraction afterWhole)
      return (real (String.ofList (os.takeWhile isNumeral)), rest)
    else
      return (integer (if negative then -(decimal digits : Int) else decimal digits), afterWhole)

mutual

/-- A document, and what follows.  The first argument bounds the number of nested calls. -/
def scanValue : Nat → Octets → Option (Json × Octets)
  | 0, _ => none
  | depth + 1, os =>
    match skipBlanks os with
    | '"' :: rest => (scanText rest .start).map fun (content, rest) => (text content, rest)
    | '[' :: rest =>
      match skipBlanks rest with
      | ']' :: rest => some (array [], rest)
      | rest => (scanItems depth rest).map fun (items, rest) => (array items, rest)
    | '{' :: rest =>
      match skipBlanks rest with
      | '}' :: rest => some (object [], rest)
      | rest => (scanMembers depth rest).map fun (members, rest) => (object members, rest)
    | 't' :: 'r' :: 'u' :: 'e' :: rest => some (bool true, rest)
    | 'f' :: 'a' :: 'l' :: 's' :: 'e' :: rest => some (bool false, rest)
    | 'n' :: 'u' :: 'l' :: 'l' :: rest => some (null, rest)
    | rest => scanNumber rest

/-- The items of an array up to its end, and what follows. -/
def scanItems : Nat → Octets → Option (List Json × Octets)
  | 0, _ => none
  | depth + 1, os =>
    match scanValue depth os with
    | none => none
    | some (item, rest) =>
      match skipBlanks rest with
      | ',' :: rest => (scanItems depth rest).map fun (items, rest) => (item :: items, rest)
      | ']' :: rest => some ([item], rest)
      | _ => none

/-- The members of an object up to its end, and what follows. -/
def scanMembers : Nat → Octets → Option (List (Option String × Json) × Octets)
  | 0, _ => none
  | depth + 1, os =>
    match skipBlanks os with
    | '"' :: rest =>
      match scanText rest .start with
      | none => none
      | some (name, rest) =>
        match skipBlanks rest with
        | ':' :: rest =>
          match scanValue depth rest with
          | none => none
          | some (value, rest) =>
            match skipBlanks rest with
            | ',' :: rest =>
              (scanMembers depth rest).map fun (members, rest) => ((name, value) :: members, rest)
            | '}' :: rest => some ([(name, value)], rest)
            | _ => none
        | _ => none
    | _ => none

end

/-- The document that the octets spell. -/
def parse (os : Octets) : Option Json :=
  match scanValue (2 * os.length + 2) os with
  | some (value, rest) => if (skipBlanks rest).isEmpty then some value else none
  | none => none

end Patchwork.Json
