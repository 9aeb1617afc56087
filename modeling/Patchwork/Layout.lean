import Patchwork.Options
import Patchwork.RelPath

/-!
# Layout documents

A `Layout` lists the source images of a mosaic with their positions, and may fix the frame and the
options.  It is stored as a document; reading one checks that it names a source, that every path is
clean and that a given frame holds pixels.

## Main definitions

* `Layout`, `Layout.Source` — the content of a layout document.
* `Layout.toJson`, `Layout.text` — writing one.
* `Layout.parse`, `Layout.validate` — reading and checking one.
-/

namespace Patchwork

/-- One source image of a layout. -/
structure Layout.Source where
  /-- The image file, relative to the layout's directory. -/
  path : String
  /-- Column of its first pixel. -/
  x : Int
  /-- Row of its first pixel. -/
  y : Int
  deriving DecidableEq

/-- The sources of a mosaic, and optionally its frame and options. -/
structure Layout where
  /-- The sources in order; earlier ones own pixels that lie equally deep in several. -/
  sources : List Layout.Source
  /-- The frame; the union of the sources when absent. -/
  frame : Option Rect
  /-- The options. -/
  options : Option Options
  deriving DecidableEq

namespace Layout

/-- A source as a record. -/
def Source.toJson (s : Source) : Json :=
  .record [("path", .text (some s.path)), ("x", .integer s.x), ("y", .integer s.y)]

/-- The source of a record. -/
def Source.ofJson? (j : Json) : Option Source := do
  match ← j.fields ["path", "x", "y"] with
  | [path, x, y] =>
    return ⟨← Json.required Json.text? path, ← Json.required Json.coordinate? x,
      ← Json.required Json.coordinate? y⟩
  | _ => none

/-- The layout as a document; an absent frame and absent options are left out. -/
def toJson (l : Layout) : Json :=
  .record ([("sources", .array (l.sources.map Source.toJson))]
    ++ (l.frame.map fun frame => ("bbox", frame.toJson)).toList
    ++ (l.options.map fun options => ("opts", options.toJson)).toList)

/-- The text of a layout document. -/
def text (l : Layout) : String := l.toJson.print

/-- The layout of a document. -/
def ofJson? (j : Json) : Option Layout := do
  match ← j.fields ["sources", "bbox", "opts"] with
  | [sources, frame, options] =>
    return ⟨← Json.required (Json.list? Source.ofJson?) sources,
      ← Json.optional none (Json.nullable Rect.ofJson?) frame,
      ← Json.optional none (Json.nullable Options.ofJson?) options⟩
  | _ => none

/-- The layout names a source, its paths are clean, and its frame holds pixels. -/
def validate (l : Layout) : Outcome Unit := do
  if l.sources.isEmpty then
    Outcome.invalid .emptyLayout
  l.sources.zipIdx.forM fun (source, index) =>
    match RelPath.clean source.path with
    | .ok _ => return ()
    | .error cause => Outcome.invalid (.layoutPath index source.path cause)
  match l.frame with
  | some frame => if frame.IsEmpty then Outcome.invalid (.layoutFrame frame)
  | none => return ()

/-- The checked layout that some octets spell. -/
def parse (os : Json.Octets) : Outcome Layout := do
  match (Json.parse os).bind ofJson? with
  | none => Outcome.refuse (.serialization "the document is no layout")
  | some layout =>
    layout.validate
    return layout

end Layout

end Patchwork
