import Patchwork.Proofs.Logic
import Patchwork.Proofs.Rect.Exact
import Patchwork.Tiling

/-!
# Tiles of a rectangle

A range is cut into pieces that follow one another, and a rectangle into the products of the pieces
of its two sides.  The far ends of the pieces are cut to the greatest coordinate; when the far end
of the range is a coordinate this changes nothing but the last piece, which ends there anyway.

## Main definitions

* `Tiling.tiles` — the tiles of a rectangle in closed form.
* `Tiling.Covers` — tiles that together are a rectangle.

## Main statements

* `Tiling.ends_grid` — the grid gives these tiles.
* `Tiling.covers_tiles` — they cover the rectangle and nothing else.
-/

namespace Patchwork

open Outcome Coordinate

namespace Tiling

/-! ## Pieces of a range -/

variable {step start stop v : Int} {count : Nat} {piece : Int × Int}

/-- Every piece lies in the range and is not longer than a step. -/
theorem bounds_of_mem_spans (hstep : 0 < step) (hstop : stop ≤ highest)
    (h : piece ∈ spans step stop count start) :
    start ≤ piece.1 ∧ piece.1 < piece.2 ∧ piece.2 ≤ stop ∧ piece.2 ≤ piece.1 + step := by
  induction count generalizing start with
  | zero => exact absurd h List.not_mem_nil
  | succ count ih =>
    rw [spans] at h
    split at h
    · next hlt =>
      rcases List.mem_cons.mp h with rfl | h
      · simp only
        omega
      · have hrest := ih h
        omega
    · exact absurd h List.not_mem_nil

/-- Every place of the range lies in a piece. -/
theorem exists_span (hstep : 0 < step) (hstop : stop ≤ highest) (hcount : stop - start ≤ count)
    (hstart : start ≤ v) (hv : v < stop) :
    ∃ piece ∈ spans step stop count start, piece.1 ≤ v ∧ v < piece.2 := by
  induction count generalizing start with
  | zero => omega
  | succ count ih =>
    rw [spans, if_pos (by omega : start < stop)]
    by_cases hfirst : v < min (min (start + step) highest) stop
    · exact ⟨_, List.mem_cons_self, hstart, hfirst⟩
    · obtain ⟨piece, hmem, hpiece⟩ : ∃ piece ∈ spans step stop count (min (start + step) highest),
          piece.1 ≤ v ∧ v < piece.2 := ih (by omega) (by omega)
      exact ⟨piece, List.mem_cons_of_mem _ hmem, hpiece⟩

theorem bounds_of_mem_cuts (hstep : 0 < step) (hstop : stop ≤ highest)
    (h : piece ∈ cuts start stop step) :
    start ≤ piece.1 ∧ piece.1 < piece.2 ∧ piece.2 ≤ stop ∧ piece.2 ≤ piece.1 + step :=
  bounds_of_mem_spans hstep hstop h

theorem exists_cut (hstep : 0 < step) (hstop : stop ≤ highest) (hstart : start ≤ v)
    (hv : v < stop) : ∃ piece ∈ cuts start stop step, piece.1 ≤ v ∧ v < piece.2 :=
  exists_span hstep hstop (by omega) hstart hv

theorem cuts_of_le (h : stop ≤ start) : cuts start stop step = [] := by
  rw [cuts, Int.toNat_of_nonpos (by omega), spans]

/-! ## Tiles -/

/-- The tiles of a rectangle, row after row. -/
def tiles (region : Rect) (step : Int) : List Rect :=
  (cuts region.y (region.y + region.height) step).flatMap fun rows =>
    (cuts region.x (region.x + region.width) step).map fun columns =>
      Rect.spanning columns.1 rows.1 columns.2 rows.2

variable {region tile : Rect} {p : Point}

theorem mem_tiles_iff :
    tile ∈ tiles region step ↔ ∃ rows ∈ cuts region.y (region.y + region.height) step,
      ∃ columns ∈ cuts region.x (region.x + region.width) step,
        Rect.spanning columns.1 rows.1 columns.2 rows.2 = tile := by
  simp [tiles]

/-- The far corner of the rectangle is a coordinate. -/
structure Ending (region : Rect) : Prop where
  /-- Right. -/
  right : region.x + region.width ≤ highest
  /-- Bottom. -/
  bottom : region.y + region.height ≤ highest

/-- A tile has pixels. -/
theorem not_isEmpty_of_mem_tiles (hstep : 0 < step) (hend : Ending region)
    (h : tile ∈ tiles region step) : ¬ tile.IsEmpty := by
  obtain ⟨rows, hrows, columns, hcolumns, rfl⟩ := mem_tiles_iff.mp h
  obtain ⟨_, _, _, _⟩ := bounds_of_mem_cuts hstep hend.bottom hrows
  obtain ⟨_, _, _, _⟩ := bounds_of_mem_cuts hstep hend.right hcolumns
  simp only [Rect.IsEmpty, Rect.spanning, Rect.clamped]
  omega

/-- They are pixels of the rectangle. -/
theorem subset_of_mem_tiles (hstep : 0 < step) (hend : Ending region)
    (h : tile ∈ tiles region step) : tile ⊆ region := by
  obtain ⟨rows, hrows, columns, hcolumns, rfl⟩ := mem_tiles_iff.mp h
  obtain ⟨_, _, _, _⟩ := bounds_of_mem_cuts hstep hend.bottom hrows
  obtain ⟨_, _, _, _⟩ := bounds_of_mem_cuts hstep hend.right hcolumns
  intro p hp
  rw [Rect.mem_spanning] at hp
  rw [Rect.mem_iff]
  omega

/-- Every pixel of the rectangle lies in a tile. -/
theorem exists_tile (hstep : 0 < step) (hend : Ending region) (hp : p ∈ region) :
    ∃ tile ∈ tiles region step, p ∈ tile := by
  rw [Rect.mem_iff] at hp
  obtain ⟨rows, hrows, hy⟩ := exists_cut (v := p.y) hstep hend.bottom hp.2.2.1 hp.2.2.2
  obtain ⟨columns, hcolumns, hx⟩ := exists_cut (v := p.x) hstep hend.right hp.1 hp.2.1
  exact ⟨_, mem_tiles_iff.mpr ⟨rows, hrows, columns, hcolumns, rfl⟩,
    Rect.mem_spanning.mpr ⟨hx.1, hx.2, hy.1, hy.2⟩⟩

/-- A rectangle without pixels has no tiles. -/
theorem tiles_of_isEmpty (h : region.IsEmpty) : tiles region step = [] := by
  rw [tiles]
  rcases h with h | h
  · simp [cuts_of_le (show region.x + region.width ≤ region.x by omega)]
  · simp [cuts_of_le (show region.y + region.height ≤ region.y by omega)]

/-- Tiles with pixels that together are a rectangle. -/
structure Covers (region : Rect) (tiles : List Rect) : Prop where
  /-- Each has pixels. -/
  not_isEmpty : ∀ tile ∈ tiles, ¬ tile.IsEmpty
  /-- They are pixels of the rectangle. -/
  subset : ∀ tile ∈ tiles, tile ⊆ region
  /-- Every pixel of the rectangle lies in a tile. -/
  exists_tile : ∀ p, p ∈ region → ∃ tile ∈ tiles, p ∈ tile

/-- The tiles of a rectangle whose far corner is a coordinate, if it has one. -/
theorem covers_tiles (hstep : 0 < step) (hend : ¬ region.IsEmpty → Ending region) :
    Covers region (tiles region step) := by
  by_cases hempty : region.IsEmpty
  · rw [tiles_of_isEmpty hempty]
    exact ⟨List.forall_mem_nil _, List.forall_mem_nil _,
      fun _ hp => absurd hempty (Rect.not_isEmpty_of_mem hp)⟩
  · exact ⟨fun _ => not_isEmpty_of_mem_tiles hstep (hend hempty),
      fun _ => subset_of_mem_tiles hstep (hend hempty), fun _ => exists_tile hstep (hend hempty)⟩

/-- **The grid of a rectangle** is the list of its tiles, unless the tiles have no size or a far
corner of the rectangle is not a coordinate. -/
theorem ends_grid (region : Rect) (tileSize : Nat) :
    Ends (fun cause => tileSize = 0 ∨ IsOverflow cause)
      (fun found => found = tiles region (ofSide tileSize) ∧ 0 < tileSize ∧
        (¬ region.IsEmpty → Ending region))
      (grid region tileSize) := by
  unfold grid
  by_cases hsize : tileSize = 0
  · rw [if_pos hsize]
    exact .inl hsize
  rw [if_neg hsize]
  have hpos : 0 < tileSize := Nat.pos_of_ne_zero hsize
  apply ((ends_checked (region.y + region.height)).weaken fun _ => Or.inr).bind
  rintro _ ⟨rfl, hbottom⟩
  by_cases hflat : region.y + region.height ≤ region.y
  · have hempty : region.IsEmpty := .inr (by omega)
    rw [if_pos hflat]
    exact ⟨(tiles_of_isEmpty hempty).symm, hpos, absurd hempty⟩
  rw [if_neg hflat]
  apply ((ends_checked (region.x + region.width)).weaken fun _ => Or.inr).bind
  rintro _ ⟨rfl, hright⟩
  by_cases hthin : region.x + region.width ≤ region.x
  · have hempty : region.IsEmpty := .inl (by omega)
    rw [if_pos hthin]
    exact ⟨(tiles_of_isEmpty hempty).symm, hpos, absurd hempty⟩
  rw [if_neg hthin]
  let L := Logic.plain fun cause => tileSize = 0 ∨ IsOverflow cause
  have hrows := L.mapM_eq (l := cuts region.y (region.y + region.height) (ofSide tileSize))
    (f := fun rows => (cuts region.x (region.x + region.width) (ofSide tileSize)).mapM
      fun columns => Rect.ofCorners columns.1 rows.1 columns.2 rows.2)
    (g := fun rows => (cuts region.x (region.x + region.width) (ofSide tileSize)).map
      fun columns => Rect.spanning columns.1 rows.1 columns.2 rows.2) fun rows _ =>
      L.mapM_eq fun columns _ => (Rect.ends_ofCorners _ _ _ _).weaken fun _ => Or.inr
  apply Ends.bind_eq hrows
  exact ⟨List.flatMap_def.symm, hpos, fun _ => ⟨hright.2, hbottom.2⟩⟩

theorem ends_grid_covers (region : Rect) (tileSize : Nat) :
    Ends (fun cause => tileSize = 0 ∨ IsOverflow cause) (Covers region) (grid region tileSize) := by
  apply (ends_grid region tileSize).imp
  rintro found ⟨rfl, hpos, hend⟩
  have hstep : 0 < ofSide tileSize := by
    simp only [ofSide, highest]
    omega
  exact covers_tiles hstep hend

end Tiling

end Patchwork
