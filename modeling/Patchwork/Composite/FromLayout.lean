import Patchwork.Composite.Basic
import Patchwork.Layout

/-!
# Mosaics from layouts

The mosaic of a layout opens every source image below a root directory, inserts it at its position
and prepares the result.  Only the sizes of the images are read until pixels are needed.  When any
step is refused the sources inserted so far are given up again.
-/

namespace Patchwork.Layout

variable {σ κ : Type} [Channel κ] {format : Format}

/-- The layout that a file holds. -/
def load (files : Files) (path : String) : Outcome Layout :=
  match files.read? path with
  | some (.bytes data) => parse (Json.octetsOf data)
  | some _ => Outcome.refuse (.serialization "an image is no layout")
  | none =>
    if files.isDirectory path then
      Outcome.refuse (.serialization "a directory is no layout")
    else Outcome.blocked (.openLayout path)

/-- Open and insert one source. -/
def addSource (root : String) (c : Composite) (studio : Studio σ format κ) (source : Source) :
    Outcome (Composite × Studio σ format κ) × Studio σ format κ :=
  match RelPath.clean source.path with
  | .error cause => (Outcome.invalid (.path cause), studio)
  | .ok path =>
    match studio.perform (Making.openImage (Files.join root path)) with
    | (.error cause, studio) => (.error cause, studio)
    | (.ok view, studio) =>
      ((c.insert studio view source.x source.y).map fun (_, c, studio) => (c, studio), studio)

/-- Open and insert sources in order, and prepare the result, its masks made as `schedule` says.  A
refusal gives up what was inserted. -/
def assemble (schedule : Cache.Schedule) (root : String) (frame : Option Rect) (c : Composite)
    (studio : Studio σ format κ) : List Source → Outcome Composite × Studio σ format κ
  | [] =>
    match studio.perform (c.prepare schedule frame) with
    | (.ok c, studio) => (.ok c, studio)
    | (.error cause, studio) => (.error cause, c.discard studio)
  | source :: sources =>
    match addSource root c studio source with
    | (.ok (c, studio), _) => assemble schedule root frame c studio sources
    | (.error cause, studio) => (.error cause, c.discard studio)

/-- The prepared mosaic of a layout, its images read below `root`. -/
def build (l : Layout) (schedule : Cache.Schedule) (root : String) (cache maskStore : Nat)
    (studio : Studio σ format κ) : Outcome Composite × Studio σ format κ :=
  let (c, studio) := Composite.create studio cache maskStore (l.options.getD .standard)
  match l.validate with
  | .error cause => (.error cause, studio)
  | .ok () => assemble schedule root l.frame c studio l.sources

end Patchwork.Layout
