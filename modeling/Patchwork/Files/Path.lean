/-!
# Paths of files

Paths are kept as they were given, since messages repeat them; these functions say how they join,
what their parent is and which parts a file system follows.

## Main definitions

* `Files.join` — a path below a directory.
* `Files.parent` — the path of the directory that holds an entry.
* `Files.names`, `Files.steps` — the names on the way to an entry.
* `Files.extension` — the ending of the last name.
* `Files.canFollow` — paths that can be looked up at all.
-/

namespace Patchwork.Files

/-- A path below a directory. -/
def join (directory path : String) : String :=
  if directory.isEmpty || directory.endsWith "/" then directory ++ path
  else directory ++ "/" ++ path

/-- A reversed path without slashes and `.` parts at its end; the root stays. -/
def withoutTail : List Char → List Char
  | ['/'] => ['/']
  | '/' :: rest => withoutTail rest
  | ['.', '/'] => ['/']
  | '.' :: '/' :: rest => withoutTail rest
  | path => path

/-- The directory that holds the entry: none for the root and the empty path, and the empty path for
a single name. -/
def parent (path : String) : Option String :=
  match withoutTail path.toList.reverse with
  | [] | ['/'] => none
  | reversed =>
    some (String.ofList (withoutTail (reversed.dropWhile (· ≠ '/'))).reverse)

/-- The names between the slashes of a path. -/
def names (path : String) : List String :=
  ((path.toList.splitBy fun a b => a ≠ '/' && b ≠ '/').filter (· ≠ ['/'])).map String.ofList

/-- The names on the way to an entry.  A slash at the end asks for a directory, as a point does. -/
def steps (path : String) : List String :=
  if path.endsWith "/" then names path ++ ["."] else names path

/-- The ending of the last name after its last dot, in small letters. -/
def extension (path : String) : Option String :=
  match ((names path).filter (· ≠ ".")).getLast? with
  | none | some ".." => none
  | some name =>
    let reversed := name.toList.reverse
    let ending := reversed.takeWhile (· ≠ '.')
    if ending.length + 1 < reversed.length then
      some (String.ofList (ending.reverse.map Char.toLower))
    else none

/-- The bytes that a name may have. -/
def nameLimit : Nat := 255

/-- The bytes that a path may have. -/
def pathLimit : Nat := 4095

/-- The path can be looked up: it is not empty, holds no NUL and is not too long. -/
def canFollow (path : String) : Bool :=
  !path.isEmpty && path.toList.all (·.toNat ≠ 0) && decide (path.utf8ByteSize ≤ pathLimit)

end Patchwork.Files
