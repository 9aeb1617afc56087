import Patchwork.Problem

/-!
# Clean relative paths

Source paths of a layout may use either separator and may hold empty and `.` parts.  They are
brought to one form: names joined by single slashes.  A path that starts at the root or climbs to a
parent directory is refused, so a clean path never leaves the directory it is joined to.

## Main definitions

* `RelPath.parts` — the parts between separators.
* `RelPath.IsName` — a part that names something.
* `RelPath.clean` — the one form of a path, or why it is refused.
-/

namespace Patchwork.RelPath

/-- The parts of a path between slashes, empty ones included. -/
def parts : List Char → List (List Char)
  | [] => [[]]
  | c :: rest =>
    if c = '/' then [] :: parts rest
    else match parts rest with
      | [] => [[c]]
      | part :: others => (c :: part) :: others

/-- The part names something: it is neither empty nor the directory itself. -/
def IsName (part : List Char) : Prop := part ≠ [] ∧ part ≠ ['.']

instance (part : List Char) : Decidable (IsName part) := inferInstanceAs (Decidable (_ ∧ _))

/-- Every backslash read as a slash. -/
def slashed (source : List Char) : List Char :=
  source.map fun c => if c = '\\' then '/' else c

/-- The names of a path, or why it is refused. -/
def names (source : List Char) : Except BadPath (List (List Char)) :=
  match slashed source with
  | [] => .error .empty
  | '/' :: _ => .error .absolute
  | path =>
    if ['.', '.'] ∈ parts path then .error .climbing
    else match (parts path).filter fun part => IsName part with
      | [] => .error .nameless
      | found => .ok found

/-- The names of a path joined by single slashes, or why it is refused. -/
def clean (source : String) : Except BadPath String :=
  (names source.toList).map fun found => String.ofList (['/'].intercalate found)

end Patchwork.RelPath
