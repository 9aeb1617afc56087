import Patchwork.Raster.Basic

/-!
# Ownership of pixels

Where sources overlap, a pixel belongs to the source in which it lies deepest, by the distance plane
of `Patchwork.Grassfire`; of equally deep sources the earlier one owns it.  The mask of a source is
one on the pixels it owns and zero elsewhere.

The planes are asked for one at a time, so a caller can make them on demand.
-/

namespace Patchwork.Ownership

variable {m : Type → Type} [Monad m] [MonadLiftT Outcome m]
variable {κ : Type} [Channel κ]

/-- The plane fills the placement of its source. -/
def checkPlane (index : Nat) (placement : Rect) (plane : Raster κ) : Outcome Unit :=
  if plane.Fills placement then .ok ()
  else Outcome.undelivered (.planeSize index plane.width plane.height placement)

/-- Source `other` takes a pixel from source `index` at these depths. -/
def Takes (other index : Nat) (theirs mine : κ) : Prop :=
  mine < theirs ∨ ((theirs == mine) = true ∧ other < index)

instance (other index : Nat) (theirs mine : κ) : Decidable (Takes other index theirs mine) :=
  inferInstanceAs (Decidable (_ ∨ _))

/-- Clear the pixels of `mask` that source `other` takes.  Both planes lie at their placements, and
`overlap` is the common part of these. -/
def yield (mask mine theirs : Raster κ) (index other : Nat) (placement its overlap : Rect) :
    Raster κ :=
  mask.update ⟨overlap.x - placement.x, overlap.y - placement.y, overlap.width, overlap.height⟩
    fun x y cell =>
      let depth := theirs.peek (x + placement.x - its.x) (y + placement.y - its.y)
      if Takes other index depth (mine.peek x y) then 0 else cell

/-- Deal with one rival: ask for its plane if the placements overlap, and clear what it takes. -/
def contest (plane : Nat → m (Raster κ)) (index : Nat) (placement : Rect) (mine : Raster κ)
    (mask : Raster κ) (rival : Rect × Nat) : m (Raster κ) := do
  let (its, other) := rival
  if other = index then
    return mask
  if !(← (placement.intersects its : Outcome Bool)) then
    return mask
  let theirs ← plane other
  (checkPlane other its theirs : Outcome Unit)
  let overlap ← (placement.intersect its : Outcome Rect)
  return yield mask mine theirs index other placement its overlap

/-- The mask of source `index`: one on the valid pixels that no other source takes. -/
def mask (index : Nat) (placements : List Rect) (plane : Nat → m (Raster κ)) : m (Raster κ) := do
  match placements[index]? with
  | none => (Outcome.invalid (.noSource index) : Outcome (Raster κ))
  | some placement =>
    let mine ← plane index
    (checkPlane index placement mine : Outcome Unit)
    let kept ← placements.zipIdx.foldlM (contest plane index placement mine) mine
    return kept.map fun v => if 0 < v then 1 else 0

/-- Make and store the masks of all sources.  Each source is a task of its own, and `pool` runs the
tasks side by side, in whatever order. -/
def generate (pool : List (m Unit) → m (List Unit)) (placements : List Rect)
    (plane : Nat → m (Raster κ)) (save : Nat → Raster κ → m Unit) : m Unit := do
  let _ ← pool ((List.range placements.length).map fun index => do
    save index (← mask index placements plane))

end Patchwork.Ownership
