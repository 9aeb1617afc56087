import Patchwork.Proofs.Rect.Bounded
import Patchwork.Proofs.Tiling

/-!
# The tiles are a partition

The loops over rows and columns advance by a sum that is cut to the greatest coordinate, and the end
of the rectangle may be that very coordinate.  So may be the size of a tile: it is cut to the
coordinate range before the loops start.  Wherever the rectangle lies, as long as its far corner is
a coordinate, the pieces of either side stand in a row without gaps, no computed coordinate is out
of range, and the products of the pieces hold every pixel once.

## Main definitions

* `Tiling.Precedes` — the order of the tiles.
* `Tiling.Partition` — tiles that hold every pixel of a rectangle once.

## Main statements

* `Tiling.pairwise_cuts` — each piece of a range ends before the next one begins.
* `Tiling.grid_partitions` — the grid answers, with a partition.
-/

namespace Patchwork

open Outcome Coordinate

namespace Tiling

variable {step start stop : Int} {count : Nat} {region a b : Rect} {p : Point}

/-- The pieces of a range stand in a row. -/
theorem pairwise_spans (hstep : 0 < step) (hstop : stop ≤ highest) :
    (spans step stop count start).Pairwise fun first second => first.2 ≤ second.1 := by
  induction count generalizing start with
  | zero => exact .nil
  | succ count ih =>
    rw [spans]
    split
    · refine List.pairwise_cons.mpr ⟨fun second hsecond => ?_, ih⟩
      obtain ⟨hpast, _⟩ := bounds_of_mem_spans hstep hstop hsecond
      exact (Int.min_le_left ..).trans hpast
    · exact .nil

theorem pairwise_cuts (hstep : 0 < step) (hstop : stop ≤ highest) :
    (cuts start stop step).Pairwise fun first second => first.2 ≤ second.1 :=
  pairwise_spans hstep hstop

/-! ## Order -/

/-- The order of the tiles, row after row and from left to right: the second tile stands further
right in the same row of tiles, or the row of the first one ends before it begins. -/
def Precedes (a b : Rect) : Prop :=
  (a.y = b.y ∧ a.height = b.height ∧ a.x + a.width ≤ b.x) ∨ a.y + a.height ≤ b.y

instance (a b : Rect) : Decidable (Precedes a b) := inferInstanceAs (Decidable (_ ∨ _))

theorem Precedes.not_meets (h : Precedes a b) : ¬ Rect.Meets a b := by
  rintro ⟨p, ha, hb⟩
  rw [Rect.mem_iff] at ha hb
  rcases h with ⟨hy, hheight, hx⟩ | hy <;> omega

/-- The tiles are listed in their order. -/
theorem pairwise_tiles (hstep : 0 < step) (hend : Ending region) :
    (tiles region step).Pairwise Precedes := by
  refine List.pairwise_flatMap.mpr ⟨fun rows _ => ?_, ?_⟩
  · -- in a row of tiles
    refine List.pairwise_map.mpr
      ((pairwise_cuts hstep hend.right).imp_of_mem fun {first second} hfirst _ hle => ?_)
    obtain ⟨_, _, _, _⟩ := bounds_of_mem_cuts hstep hend.right hfirst
    refine .inl ⟨rfl, rfl, ?_⟩
    simp only [Rect.spanning, Rect.clamped]
    omega
  · -- between two rows of tiles
    refine (pairwise_cuts hstep hend.bottom).imp_of_mem fun {first second} hfirst _ hle => ?_
    obtain ⟨_, _, _, _⟩ := bounds_of_mem_cuts hstep hend.bottom hfirst
    intro a ha b hb
    obtain ⟨_, _, rfl⟩ := List.mem_map.mp ha
    obtain ⟨_, _, rfl⟩ := List.mem_map.mp hb
    right
    simp only [Rect.spanning, Rect.clamped]
    omega

/-! ## Sizes -/

theorem sizes_of_mem_tiles (hstep : 0 < step) (hend : Ending region) (h : a ∈ tiles region step) :
    a.width ≤ step ∧ a.height ≤ step := by
  obtain ⟨rows, hrows, columns, hcolumns, rfl⟩ := mem_tiles_iff.mp h
  obtain ⟨_, _, _, _⟩ := bounds_of_mem_cuts hstep hend.bottom hrows
  obtain ⟨_, _, _, _⟩ := bounds_of_mem_cuts hstep hend.right hcolumns
  simp only [Rect.spanning, Rect.clamped]
  omega

/-! ## Partitions -/

/-- Tiles of at most some size that hold every pixel of a rectangle once. -/
structure Partition (region : Rect) (side : Nat) (tiles : List Rect) : Prop where
  /-- Each has pixels. -/
  not_isEmpty : ∀ tile ∈ tiles, ¬ tile.IsEmpty
  /-- None is too wide or too high. -/
  size_le : ∀ tile ∈ tiles, tile.width ≤ side ∧ tile.height ≤ side
  /-- None leaves the rectangle. -/
  subset : ∀ tile ∈ tiles, tile ⊆ region
  /-- No two of them have a pixel in common. -/
  disjoint : tiles.Pairwise fun a b => ¬ Rect.Meets a b
  /-- They stand row after row, and from left to right in a row. -/
  ordered : tiles.Pairwise Precedes
  /-- Every pixel of the rectangle lies in one of them. -/
  count_eq_one : ∀ p ∈ region, tiles.countP (p ∈ ·) = 1
  /-- There are none only when there are no pixels. -/
  eq_nil_iff : tiles = [] ↔ region.IsEmpty

/-- A pixel lies in one tile when the tiles are apart and one of them holds it. -/
theorem count_eq_one_of_disjoint {tiles : List Rect}
    (hapart : tiles.Pairwise fun a b => ¬ Rect.Meets a b) (h : ∃ tile ∈ tiles, p ∈ tile) :
    tiles.countP (p ∈ ·) = 1 := by
  induction tiles with
  | nil => simp at h
  | cons first rest ih =>
    obtain ⟨hfirst, hrest⟩ := List.pairwise_cons.mp hapart
    by_cases hp : p ∈ first
    · have hnone : rest.countP (p ∈ ·) = 0 :=
        List.countP_eq_zero.mpr fun tile htile => by
          simpa using fun hq => hfirst tile htile ⟨p, hp, hq⟩
      rw [List.countP_cons_of_pos (by simpa using hp), hnone]
    · rw [List.countP_cons_of_neg (by simpa using hp)]
      refine ih hrest ?_
      simpa [hp] using h

theorem ofSide_le (side : Nat) : ofSide side ≤ side := by
  simp only [ofSide]
  omega

theorem ofSide_pos {side : Nat} (h : 0 < side) : 0 < ofSide side := by
  simp only [ofSide, highest]
  omega

theorem partition_tiles {side : Nat} (hside : 0 < side) (hend : Ending region) :
    Partition region side (tiles region (ofSide side)) := by
  have hstep := ofSide_pos hside
  obtain ⟨hpixels, hsubset, hcovers⟩ := covers_tiles hstep fun _ => hend
  have hordered := pairwise_tiles hstep hend
  have hapart := hordered.imp Precedes.not_meets
  refine ⟨hpixels, fun tile htile => ?_, hsubset, hapart, hordered,
    fun p hp => count_eq_one_of_disjoint hapart (hcovers p hp), fun hnil => ?_, tiles_of_isEmpty⟩
  · obtain ⟨hwidth, hheight⟩ := sizes_of_mem_tiles hstep hend htile
    exact ⟨hwidth.trans (ofSide_le side), hheight.trans (ofSide_le side)⟩
  · rw [Rect.isEmpty_iff]
    intro p hp
    obtain ⟨tile, htile, _⟩ := hcovers p hp
    simp [hnil] at htile

/-- No step of the grid leaves the coordinate range: a tile is no larger than the cut size. -/
theorem answers_grid {side : Nat} (hside : 0 < side) (hright : Fits (region.x + region.width))
    (hbottom : Fits (region.y + region.height)) :
    Ends (fun _ => False) (· = tiles region (ofSide side)) (grid region side) := by
  have hstep := ofSide_pos hside
  have hsmall : ofSide side ≤ highest := Int.min_le_right ..
  unfold grid
  rw [if_neg (by omega)]
  refine (answers_checked hbottom).bind_eq ?_
  by_cases hflat : region.y + region.height ≤ region.y
  · rw [if_pos hflat]
    exact (tiles_of_isEmpty (.inr (by omega))).symm
  rw [if_neg hflat]
  refine (answers_checked hright).bind_eq ?_
  by_cases hthin : region.x + region.width ≤ region.x
  · rw [if_pos hthin]
    exact (tiles_of_isEmpty (.inl (by omega))).symm
  rw [if_neg hthin]
  let L := Logic.plain fun _ => False
  have hrows := L.mapM_eq (l := cuts region.y (region.y + region.height) (ofSide side))
    (f := fun rows => (cuts region.x (region.x + region.width) (ofSide side)).mapM
      fun columns => Rect.ofCorners columns.1 rows.1 columns.2 rows.2)
    (g := fun rows => (cuts region.x (region.x + region.width) (ofSide side)).map
      fun columns => Rect.spanning columns.1 rows.1 columns.2 rows.2) fun rows hrow =>
      L.mapM_eq fun columns hcolumn => by
        obtain ⟨_, _, _, _⟩ := bounds_of_mem_cuts hstep hbottom.2 hrow
        obtain ⟨_, _, _, _⟩ := bounds_of_mem_cuts hstep hright.2 hcolumn
        apply Rect.answers_ofCorners <;> simp only [Fits, lowest, highest] at * <;> omega
  refine Ends.bind_eq hrows ?_
  exact List.flatMap_def.symm

/-- **The grid partitions every rectangle** whose far corner is a coordinate, whatever the size of
the tiles: it answers, and every pixel lies in one tile. -/
theorem grid_partitions (region : Rect) {side : Nat} (hside : 0 < side)
    (hright : Fits (region.x + region.width)) (hbottom : Fits (region.y + region.height)) :
    ∃ tiles, grid region side = .ok tiles ∧ Partition region side tiles :=
  ⟨_, (answers_grid hside hright hbottom).eq_ok,
    partition_tiles hside ⟨hright.2, hbottom.2⟩⟩

/-- A rectangle that ends at the last coordinate, in tiles of which the last ones are smaller. -/
theorem grid_partitions_corner :
    ∃ tiles, grid ⟨2147483642, -2147483648, 5, 3⟩ 2 = .ok tiles ∧
      Partition ⟨2147483642, -2147483648, 5, 3⟩ 2 tiles :=
  grid_partitions ⟨2147483642, -2147483648, 5, 3⟩ (by decide) (by decide) (by decide)

end Tiling

end Patchwork
