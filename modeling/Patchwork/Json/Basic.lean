/-!
# Documents

A `Json` document as it stands in its text: members keep their order and may repeat.  A string whose
octets are no text is kept without content, since readers may pass over it.

## Main definitions

* `Json` — the documents.
* `Json.quote` — a string between quotes.
* `Json.print` — the shortest text of a document, members in order.
-/

namespace Patchwork

/-- A document. -/
inductive Json where
  /-- The literal `null`. -/
  | null
  /-- A truth value. -/
  | bool (value : Bool)
  /-- A number written without fraction and exponent. -/
  | integer (value : Int)
  /-- Any other number, as it is written. -/
  | real (literal : String)
  /-- A string; no content when its octets are no text. -/
  | text (content : Option String)
  /-- Documents in order. -/
  | array (items : List Json)
  /-- Named documents in order. -/
  | object (members : List (Option String × Json))

namespace Json

/-- The two hexadecimal digits of a small number. -/
def twoDigits (n : Nat) : List Char := [(n / 16).digitChar, (n % 16).digitChar]

/-- A character inside a string: quotes, backslashes and control characters are escaped. -/
def escaped (c : Char) : List Char :=
  if c = '"' then ['\\', '"']
  else if c = '\\' then ['\\', '\\']
  else if c = '\x08' then ['\\', 'b']
  else if c = '\x0c' then ['\\', 'f']
  else if c = '\n' then ['\\', 'n']
  else if c = '\r' then ['\\', 'r']
  else if c = '\t' then ['\\', 't']
  else if c.toNat < 32 then ['\\', 'u', '0', '0'] ++ twoDigits c.toNat
  else [c]

/-- A string between quotes. -/
def quote (s : String) : String :=
  String.ofList ('"' :: s.toList.flatMap escaped ++ ['"'])

mutual

/-- The shortest text of a document. -/
def print : Json → String
  | null => "null"
  | bool value => if value then "true" else "false"
  | integer value => toString value
  | real literal => literal
  | text content => quote (content.getD "")
  | array items => "[" ++ printItems items ++ "]"
  | object members => "\x7b" ++ printMembers members ++ "\x7d"

/-- Documents separated by commas. -/
def printItems : List Json → String
  | [] => ""
  | [item] => print item
  | item :: items => print item ++ "," ++ printItems items

/-- Named documents separated by commas. -/
def printMembers : List (Option String × Json) → String
  | [] => ""
  | [(name, value)] => quote (name.getD "") ++ ":" ++ print value
  | (name, value) :: members =>
    quote (name.getD "") ++ ":" ++ print value ++ "," ++ printMembers members

end

/-- An object whose members have these names. -/
def record (members : List (String × Json)) : Json :=
  object (members.map fun (name, value) => (some name, value))

end Json

end Patchwork
