import Patchwork.Command.Arguments
import Patchwork.Composite.FromLayout
import Patchwork.Tiling

/-!
# The commands

Each command reads a layout, prepares its mosaic in a studio of its own and writes files.  It ends
with a code: zero for success, one with a message for a failure, two for arguments that were not
understood.

## Main definitions

* `Command.Ending` — how a command ends.
* `Command.render`, `Command.masks` — the two commands.
* `Command.run` — a command line.
-/

namespace Patchwork.Command

/-- How a command ends. -/
inductive Ending where
  /-- All is done. -/
  | success
  /-- It failed for this reason. -/
  | failed (message : String)
  /-- The arguments were not understood. -/
  | misused
  /-- The computation is undefined for the given files. -/
  | broken
  deriving DecidableEq

/-- The code that a shell sees. -/
def Ending.code : Ending → Nat
  | success => 0
  | failed _ => 1
  | misused => 2
  | broken => 101

/-- The ending of a refused step. -/
def Ending.ofFailure : Failure → Ending
  | .fault _ => .broken
  | .problem cause => .failed cause.message

/-- The ending of a refused step that is reported as what was being done. -/
def Ending.during (doing : String) : Failure → Ending
  | .fault _ => .broken
  | .problem _ => .failed doing

/-- The directory of a layout file, below which its images lie. -/
def rootOf (layout : String) : String := (Files.parent layout).getD "."

/-- The layout of a file. -/
def readLayout (files : Files) (path : String) : Except Ending Layout :=
  match Layout.load files path with
  | .ok layout => .ok layout
  | .error cause => .error (.during s!"load layout '{path}'" cause)

/-- A number of mebibytes in bytes. -/
def mebibytes (n : Nat) : Nat := saturated (n * 1048576)

variable (κ : Type) [Channel κ]

/-- A studio with one cache, one mask store and one token. -/
def studioWith (files : Files) (masks : MaskStore Unit κ) (cacheMebibytes : Nat) :
    Studio Unit .rgba κ :=
  let workspace : Workspace Unit κ :=
    { (Workspace.ofFiles files () : Workspace Unit κ) with
      maskStores := #[masks]
      tokens := #[false] }
  (Cache.Store.newCache (.empty workspace) (mebibytes cacheMebibytes)).2

/-- Where the masks of a render come from; without a directory they stay in memory, so none can be
reused. -/
def masksOf (files : Files) (directory : Option String) (options : Options) :
    Except Ending (MaskStore Unit κ) × Files :=
  match directory with
  | some directory =>
    let (masks, files) := MaskStore.openDirectory files directory
    (masks.mapError Ending.ofFailure, files)
  | none =>
    if options.reuseMasks && !options.draft then
      (.error (.failed "--reuse-masks needs --mask-dir"), files)
    else (.ok .empty, files)

/-- Compose a layout into one image.  One pool of threads makes the masks, another renders the
tiles. -/
def render (preparing tiling : Cache.Schedule) (r : RenderRequest) (files : Files) :
    Ending × Files :=
  match readLayout files r.layout with
  | .error ending => (ending, files)
  | .ok layout =>
    let given := layout.options.getD .standard
    let options : Options :=
      ⟨given.draft || r.draft, given.fillHoles || r.fillHoles, given.reuseMasks || r.reuseMasks⟩
    let layout := { layout with options := some options }
    match masksOf κ files r.maskDirectory options with
    | (.error ending, files) => (ending, files)
    | (.ok masks, files) =>
      let studio := studioWith κ files masks r.cacheMebibytes
      match layout.build preparing (rootOf r.layout) 0 0 studio with
      | (.error cause, studio) => (.ofFailure cause, studio.world.files)
      | (.ok c, studio) =>
        match studio.perform (c.renderTiled tiling (.ofSize c.columns c.rows) r.tiles 0) with
        | (.error cause, studio) => (.ofFailure cause, studio.world.files)
        | (.ok image, studio) =>
          match studio.world.files.saveImage r.out image with
          | (.error cause, files) => (.during s!"write png '{r.out}'" cause, files)
          | (.ok (), files) => (.success, files)

/-- Compute and store the masks of a layout. -/
def masks (preparing : Cache.Schedule) (r : MasksRequest) (files : Files) : Ending × Files :=
  match readLayout files r.layout with
  | .error ending => (ending, files)
  | .ok layout =>
    let given := layout.options.getD .standard
    let layout := { layout with options := some ⟨false, given.fillHoles, false⟩ }
    match (MaskStore.openDirectory files r.maskDirectory : Outcome (MaskStore Unit κ) × Files) with
    | (.error cause, files) => (.ofFailure cause, files)
    | (.ok store, files) =>
      let studio := studioWith κ files store r.cacheMebibytes
      match layout.build preparing (rootOf r.layout) 0 0 studio with
      | (.error cause, studio) => (.ofFailure cause, studio.world.files)
      | (.ok _, studio) => (.success, studio.world.files)

/-- Run a command line on a tree of files, with pools of threads whose turns are given. -/
def run (preparing tiling : Cache.Schedule) (arguments : List String) (files : Files) :
    Ending × Files :=
  match read arguments with
  | .rejected => (.misused, files)
  | .shown => (.success, files)
  | .render request => render κ preparing tiling request files
  | .masks request => masks κ preparing request files

end Patchwork.Command
