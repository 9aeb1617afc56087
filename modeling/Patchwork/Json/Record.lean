import Patchwork.Json.Parser
import Patchwork.Outcome

/-!
# Reading records

A record is written as an object of its fields or as an array of them in their order.  In an object
unknown members are passed over and a field may stand only once; in an array the last fields may be
missing but nothing may follow.  Whether a missing field is an error or takes a default is up to the
field.

## Main definitions

* `Json.fields` — the fields of a record in order, each present or not.
* `Json.required`, `Json.optional` — a field without and with a default.
* `Json.coordinate?`, `Json.count?`, `Json.bool?`, `Json.text?`, `Json.nullable` — field types.
-/

namespace Patchwork.Json

variable {α : Type}

/-- The fields of a record in the order of their names, `none` where one is missing. -/
def fields (names : List String) : Json → Option (List (Option Json))
  | object members =>
    if members.all (fun m => m.1.isSome) &&
        names.all (fun name => (members.filter (·.1 = some name)).length ≤ 1) then
      some (names.map fun name => (members.find? (·.1 = some name)).map (·.2))
    else none
  | array items =>
    if items.length ≤ names.length then
      some (items.map some ++ List.replicate (names.length - items.length) none)
    else none
  | _ => none

/-- A field that must be there. -/
def required (read : Json → Option α) : Option Json → Option α
  | some value => read value
  | none => none

/-- A field with a default. -/
def optional (default : α) (read : Json → Option α) : Option Json → Option α
  | some value => read value
  | none => some default

/-- A value that may be `null`. -/
def nullable (read : Json → Option α) : Json → Option (Option α)
  | null => some none
  | value => (read value).map some

/-- An integer that is a coordinate. -/
def coordinate? : Json → Option Int
  | integer v => if Coordinate.Fits v then some v else none
  | _ => none

/-- An integer that is a machine word. -/
def count? : Json → Option Nat
  | integer v => if 0 ≤ v ∧ v ≤ wordMax then some v.toNat else none
  | _ => none

/-- A truth value. -/
def bool? : Json → Option Bool
  | bool value => some value
  | _ => none

/-- A string with content. -/
def text? : Json → Option String
  | text content => content
  | _ => none

/-- Documents in order. -/
def list? (read : Json → Option α) : Json → Option (List α)
  | array items => items.mapM read
  | _ => none

end Patchwork.Json

namespace Patchwork.Rect

/-- A rectangle as a record of its four numbers. -/
def toJson (r : Rect) : Json :=
  .record [("x", .integer r.x), ("y", .integer r.y), ("width", .integer r.width),
    ("height", .integer r.height)]

/-- The rectangle of a record. -/
def ofJson? (j : Json) : Option Rect := do
  match ← j.fields ["x", "y", "width", "height"] with
  | [x, y, width, height] =>
    return ⟨← Json.required Json.coordinate? x, ← Json.required Json.coordinate? y,
      ← Json.required Json.coordinate? width, ← Json.required Json.coordinate? height⟩
  | _ => none

end Patchwork.Rect
