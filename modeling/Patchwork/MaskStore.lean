import Patchwork.Files.Images

/-!
# Stored masks

The masks of a mosaic's sources are kept by the number of the source, in memory, as image files of a
directory, or by a store of the caller's own.

## Main definitions

* `MaskStore` — where masks are kept.
* `MaskStore.openDirectory` — masks in a directory, which is made if needed.
* `MaskStore.load`, `MaskStore.save` — one mask.
-/

namespace Patchwork

/-- Where the masks of a mosaic are kept.  `σ` is what the caller's own code keeps. -/
inductive MaskStore (σ κ : Type) where
  /-- In memory, each number once. -/
  | memory (masks : List (Nat × Raster κ))
  /-- As files of a directory. -/
  | directory (path : String)
  /-- By code of the caller's own, which may keep something and use files. -/
  | custom (load : σ → Files → Nat → Except Problem (Raster κ))
      (save : σ → Files → Nat → Raster κ → Except Problem Unit × σ × Files)

namespace MaskStore

variable {σ κ : Type} [Channel κ]

/-- No masks in memory. -/
def empty : MaskStore σ κ := .memory []

/-- The file of a mask. -/
def path (directory : String) (index : Nat) : String :=
  Files.join directory s!"mask.{index}.png"

/-- Masks in a directory, which is made if needed. -/
def openDirectory (files : Files) (directory : String) : Outcome (MaskStore σ κ) × Files :=
  match files.makeDirectory directory with
  | (true, files) => (.ok (.directory directory), files)
  | (false, files) => (Outcome.blocked (.maskDirectory directory), files)

/-- Number of masks in memory. -/
def size? : MaskStore σ κ → Option Nat
  | .memory masks => some masks.length
  | _ => none

/-- The answer of the caller's own code. -/
def reported {α : Type} : Except Problem α → Outcome α := Except.mapError .problem

/-- The mask of a source. -/
def load (store : MaskStore σ κ) (own : σ) (files : Files) (index : Nat) : Outcome (Raster κ) :=
  match store with
  | .memory masks =>
    match masks.lookup index with
    | some mask => .ok mask
    | none => Outcome.undelivered (.noMask index)
  | .directory folder =>
    let file := path folder index
    if files.isFile file then files.loadMask file
    else Outcome.undelivered (.noMaskFile index file)
  | .custom load _ => reported (load own files index)

/-- Keep the mask of a source in place of any other. -/
def save (store : MaskStore σ κ) (own : σ) (files : Files) (index : Nat) (mask : Raster κ) :
    Outcome Unit × MaskStore σ κ × σ × Files :=
  match store with
  | .memory masks => (.ok (), .memory ((index, mask) :: masks.filter (·.1 ≠ index)), own, files)
  | .directory folder =>
    let (saved, files) := files.saveMask (path folder index) mask
    (saved, store, own, files)
  | .custom _ save =>
    let (saved, own, files) := save own files index mask
    (reported saved, store, own, files)

end MaskStore

end Patchwork
