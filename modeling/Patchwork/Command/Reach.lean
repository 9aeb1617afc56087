import Patchwork.Command.Run

/-!
# The files a command reaches

A command works on a tree of files.  These functions tell which files of a disk that tree has to
hold before the command runs, and which of them the command may have written afterwards.  The
sources and masks of a layout are known only once the layout itself is in the tree.

## Main definitions

* `Command.inputs` — the files a command reads.
* `Command.outputs` — the files a command writes.
-/

namespace Patchwork.Command

/-- The sources of a layout file in the tree, none if there is no such layout. -/
def sourcesOf (files : Files) (layout : String) : List Layout.Source :=
  match Layout.load files layout with
  | .ok layout => layout.sources
  | .error _ => []

/-- The image files of a layout. -/
def imagesOf (files : Files) (layout : String) : List String :=
  (sourcesOf files layout).filterMap fun source =>
    match RelPath.clean source.path with
    | .ok path => some (Files.join (rootOf layout) path)
    | .error _ => none

/-- The mask files of a layout in a directory. -/
def maskFilesOf (files : Files) (layout directory : String) : List String :=
  (List.range (sourcesOf files layout).length).map (MaskStore.path directory)

/-- The files that a command reads, as far as `files` tells. -/
def inputs (files : Files) : Reading → List String
  | .render r =>
    r.layout :: imagesOf files r.layout
      ++ r.maskDirectory.toList.flatMap (maskFilesOf files r.layout)
  | .masks r => r.layout :: imagesOf files r.layout
  | _ => []

/-- The files that a command writes. -/
def outputs (files : Files) : Reading → List String
  | .render r => r.maskDirectory.toList.flatMap (maskFilesOf files r.layout) ++ [r.out]
  | .masks r => maskFilesOf files r.layout r.maskDirectory
  | _ => []

end Patchwork.Command
