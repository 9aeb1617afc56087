import Patchwork.Files.Path
import Patchwork.Picture

/-!
# A tree of files

`Files` are the directories and files that a run reads and writes.  Image files hold pictures; how
these are encoded is no business of the library, except that a file may be damaged so that only its
size can be read.  A place in the tree is the list of names that lead to it from the root.

## Main definitions

* `Files.Content` — what a file holds.
* `Files.Node`, `Files` — files in directories.
* `Files.locate` — the place that a path leads to.
* `Files.read?`, `Files.write`, `Files.makeDirectory`, `Files.remove` — the operations.
-/

namespace Patchwork

/-- What a file holds. -/
inductive Files.Content where
  /-- Bytes that are no image. -/
  | bytes (data : List UInt8)
  /-- An image. -/
  | picture (image : Picture)
  /-- An image of which only the size can be read. -/
  | damaged (width height : Nat)

/-- An entry of a directory. -/
inductive Files.Node where
  /-- A file. -/
  | file (content : Files.Content)
  /-- A directory with its entries, each name once. -/
  | directory (entries : List (String × Node))

/-- A tree of files. -/
structure Files where
  /-- The entries of the root, each name once. -/
  entries : List (String × Files.Node)

namespace Files

/-- The tree of an empty root. -/
def empty : Files := ⟨[]⟩

/-- The entry at a place below some entries. -/
def entryAt? (entries : List (String × Node)) : List String → Option Node
  | [] => some (.directory entries)
  | name :: way =>
    match entries.lookup name with
    | none => none
    | some (.directory inner) => entryAt? inner way
    | some (.file content) => if way.isEmpty then some (.file content) else none

/-- Give a place below some entries a new entry, or none; without a directory for it nothing
changes. -/
def withEntry (node : Option Node) (entries : List (String × Node)) :
    List String → List (String × Node)
  | [] => entries
  | [name] => (node.map (name, ·)).toList ++ entries.filter (·.1 ≠ name)
  | name :: way =>
    match entries.lookup name with
    | some (.directory inner) =>
      (name, .directory (withEntry node inner way)) :: entries.filter (·.1 ≠ name)
    | _ => entries

mutual

/-- The ways to the files in an entry. -/
def Node.ways : Node → List (List String)
  | .file _ => [[]]
  | .directory entries => waysOf entries

/-- The ways to the files in some entries. -/
def waysOf : List (String × Node) → List (List String)
  | [] => []
  | (name, node) :: entries => node.ways.map (name :: ·) ++ waysOf entries

end

/-- The entry at a place. -/
def node? (files : Files) (place : List String) : Option Node := entryAt? files.entries place

/-- A directory lies there. -/
def isDirectoryAt (files : Files) (place : List String) : Bool :=
  match files.node? place with
  | some (.directory _) => true
  | _ => false

/-- Put an entry at a place. -/
def put (files : Files) (place : List String) (node : Node) : Files :=
  ⟨withEntry (some node) files.entries place⟩

/-- The place one name further on from a place.  Only a directory leads on: a point stays in it, two
points climb out of it, and any other name must not be too long. -/
def step (files : Files) (place : List String) (name : String) : Option (List String) :=
  if files.isDirectoryAt place then
    if name = "." then some place
    else if name = ".." then some place.dropLast
    else if name.utf8ByteSize ≤ nameLimit then some (place ++ [name])
    else none
  else none

/-- The place that a path leads to.  Nothing needs to lie there, but in a directory it must be. -/
def locate (files : Files) (path : String) : Option (List String) :=
  if canFollow path then (steps path).foldlM files.step [] else none

/-- The content of a file. -/
def read? (files : Files) (path : String) : Option Content :=
  match (files.locate path).bind files.node? with
  | some (.file content) => some content
  | _ => none

/-- A file lies at the path. -/
def isFile (files : Files) (path : String) : Bool := (files.read? path).isSome

/-- A directory lies at the path. -/
def isDirectory (files : Files) (path : String) : Bool :=
  (files.locate path).any files.isDirectoryAt

/-- Have a directory at a place, made if nothing is there; refused when a file is. -/
def settle (files : Files) (place : List String) : Option Files :=
  match files.node? place with
  | none => some (files.put place (.directory []))
  | some (.directory _) => some files
  | some (.file _) => none

/-- Make the directories on a way from a place, and tell whether none was refused.  The first that
is refused ends the way; those before it stay. -/
def makeWay (files : Files) (place : List String) : List String → Bool × Files
  | [] => (true, files)
  | name :: way =>
    match files.step place name with
    | none => (false, files)
    | some place =>
      match files.settle place with
      | none => (false, files)
      | some files => files.makeWay place way

/-- Make a directory after those above it, and tell whether none was refused.  Points at the end of
the path are no names: they do not make the directory that they stand for. -/
def makeDirectory (files : Files) (path : String) : Bool × Files :=
  match parent path with
  | none => (true, files)
  | some above =>
    if canFollow path then
      match files.makeWay [] (names above) with
      | (false, files) => (false, files)
      | (true, files) =>
        match ((names path).foldlM files.step []).bind files.settle with
        | none => (false, files)
        | some files => (true, files)
    else (false, files)

/-- Write a file into a directory that is there, in place of any other. -/
def write (files : Files) (path : String) (content : Content) : Option Files := do
  let place ← files.locate path
  if files.isDirectoryAt place then none else some (files.put place (.file content))

/-- Remove a file. -/
def remove (files : Files) (path : String) : Option Files := do
  if files.isFile path then
    let place ← files.locate path
    return ⟨withEntry none files.entries place⟩
  else none

/-- The places of all files. -/
def paths (files : Files) : List (List String) := waysOf files.entries

end Files

end Patchwork
