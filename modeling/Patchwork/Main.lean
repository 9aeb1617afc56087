import Patchwork.Command.Reach
import Patchwork.Files.Portable

/-!
# The program

Brings the files that a command reads into a tree, runs the command on it with a single thread, and
writes what has changed back to the disk.
-/

namespace Patchwork.Program

/-- How to call the program. -/
def usage : String :=
  "usage: patchwork render --layout FILE --out FILE [--draft] [--fill-holes] [--reuse-masks]\n" ++
  "                        [--mask-dir DIR] [--cache-mb N] [--tile-size N] [--threads N]\n" ++
  "       patchwork masks --layout FILE --mask-dir DIR [--cache-mb N]"

/-- Bring a file into the tree; a file that cannot be read stays absent. -/
def fetch (files : Files) (path : String) : IO Files := do
  try
    let bytes ← IO.FS.readBinFile path
    return (files.deliver path (.decode bytes.toList)).2
  catch _ => return files

/-- Write a file of the tree to the disk if it is not what it was before. -/
def store (before after : Files) (path : String) : IO Unit := do
  let some content := after.read? path | return
  let bytes := content.encode
  if (before.read? path).map Files.Content.encode = some bytes then return
  if let some directory := Files.parent path then
    if !directory.isEmpty then IO.FS.createDirAll directory
  IO.FS.writeBinFile path ⟨bytes.toArray⟩

end Patchwork.Program

open Patchwork in
/-- Run a command line on the files of the disk. -/
def main (arguments : List String) : IO UInt32 := do
  let request := Command.read arguments
  let layout ← (Command.inputs .empty request).foldlM Program.fetch .empty
  let before ← (Command.inputs layout request).foldlM Program.fetch layout
  let (ending, after) := Command.run Float32 .inOrder .inOrder arguments before
  (Command.outputs before request).forM (Program.store before after)
  match request, ending with
  | .shown, _ => IO.println Program.usage
  | _, .failed message => IO.eprintln s!"Error: {message}"
  | _, .misused => IO.eprintln Program.usage
  | _, .broken => IO.eprintln "Error: the computation is undefined for these files"
  | _, .success => return 0
  return ending.code.toUInt32
