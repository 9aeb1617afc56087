import Patchwork.Raster.Basic

/-!
# Distance to the nearest gap

A pixel is valid unless its alpha is zero or less.  `grassfire` gives every valid pixel its distance
to the nearest invalid pixel, counted in horizontal and vertical steps; everything outside the image
is invalid.  A fire lit at all invalid pixels at once reaches a pixel after that many steps.

Two sweeps suffice: from the top left, where each valid pixel is one step further than the nearer of
its left and upper neighbours, and back from the bottom right with the other two neighbours.
-/

namespace Patchwork.Grassfire

variable {κ : Type} [Channel κ]

/-- The positions of a `width × height` grid, row after row. -/
def positions (width height : Nat) : List Point :=
  (List.range (width * height)).map fun (k : Nat) => ⟨(k % width : Nat), (k / width : Nat)⟩

/-- One step of the sweep from the top left. -/
def kindle (alpha distance : Raster κ) (p : Point) : Raster κ :=
  if alpha.peek p.x p.y ≤ 0 then distance
  else
    let nearest := Channel.smaller (distance.peek (p.x - 1) p.y) (distance.peek p.x (p.y - 1))
    distance.modify p.x p.y fun _ => nearest + 1

/-- One step of the sweep from the bottom right. -/
def spread (distance : Raster κ) (p : Point) : Raster κ :=
  let here := distance.peek p.x p.y
  if here == 0 then distance
  else
    let right := distance.peek (p.x + 1) p.y + 1
    let below := distance.peek p.x (p.y + 1) + 1
    distance.modify p.x p.y fun _ => Channel.smaller (Channel.smaller here right) below

/-- The distance of every pixel to the nearest invalid one. -/
def distances (alpha : Raster κ) : Raster κ :=
  let cells := positions alpha.width alpha.height
  let swept := cells.foldl (kindle alpha) (Raster.zeros alpha.width alpha.height)
  cells.reverse.foldl spread swept

end Patchwork.Grassfire

namespace Patchwork

/-- The distance of every pixel to the nearest invalid one, when memory can hold a second plane. -/
def grassfire {κ : Type} [Channel κ] (alpha : Raster κ) : Outcome (Raster κ) := do
  Raster.allocate κ alpha.width alpha.height
  return Grassfire.distances alpha

end Patchwork
