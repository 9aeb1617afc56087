import Patchwork.Proofs.Patch.Blend
import Patchwork.Proofs.Pyramid
import Patchwork.Proofs.Raster.Region

/-!
# Patches in tiles

The blended patch of a part of a rectangle is that part of the blended patch of the rectangle, equal
in every bit: a pixel's value is `Patch.blendAt` in both.  So a rectangle may be cut into tiles in
any way, and pasting the tiles together gives the patch of the whole.

## Main definitions

* `Raster.Pasted` — tiles of an image, pasted onto a canvas.
* `Patch.stitched` — the tiles of a rectangle, blended one by one and pasted together.

## Main statements

* `Patch.blend_tiles` — tiles are parts of the whole, and together they make it.
-/

namespace Patchwork

open Outcome Coordinate
open Rect (half)

variable {κ α : Type} {format : Format}

/-! ## Cutting out and pasting inside a rectangle -/

namespace Rect

/-- A part of a rectangle, seen from its corner. -/
theorem cornered_seenFrom {tile whole : Rect} (hne : ¬ tile.IsEmpty) (hsub : tile ⊆ whole)
    (hsize : whole.Sized) : (tile.seenFrom whole).Cornered := by
  obtain ⟨_, _, _, _⟩ := within_of_subset hne hsub
  obtain ⟨_, _⟩ := hsize
  simp only [IsEmpty, not_or, Int.not_le, highest] at *
  constructor <;> simp only [seenFrom, Fits, lowest, highest] <;> omega

end Rect

namespace Raster

theorem Fills.sided {r : Raster α} {frame : Rect} (h : r.Fills frame) (hsize : frame.Sized) :
    r.Sided := by
  obtain ⟨hwidth, hheight⟩ := hsize
  obtain ⟨hcolumns, hrows⟩ := h
  simp only [Rect.columns, Rect.rows, highest] at *
  constructor <;> simp only [highest] <;> omega

theorem Room.of_subset [Cell κ α] {a b : Rect} (h : Room α b.columns b.rows) (ha : ¬ a.IsEmpty)
    (hab : a ⊆ b) : Room α a.columns a.rows :=
  h.mono (Rect.columns_le_of_subset ha hab) (Rect.rows_le_of_subset ha hab)

variable {tile whole : Rect}

/-- A part of a raster can be cut out of it. -/
theorem region_seenFrom [Cell κ α] (r : Raster α) (hne : ¬ tile.IsEmpty) (hsub : tile ⊆ whole)
    (hsize : whole.Sized) (hroom : Room α whole.columns whole.rows) :
    r.region (tile.seenFrom whole) = .ok (r.cut (tile.seenFrom whole)) := by
  have htile : Room α tile.columns tile.rows := hroom.of_subset hne hsub
  have hallocate : allocate α (tile.seenFrom whole).columns (tile.seenFrom whole).rows = .ok () :=
    require_eq_ok_iff.mpr htile
  rw [region_of_cornered r (Rect.cornered_seenFrom hne hsub hsize), hallocate]
  rfl

/-- Pasting a raster over a part of another changes that part. -/
theorem exists_paste [Zero α] {r part : Raster α} (hr : r.Fills whole) (hpart : part.Fills tile)
    (hne : ¬ tile.IsEmpty) (hsub : tile ⊆ whole) (hsize : whole.Sized) :
    ∃ r', r.paste part (tile.x - whole.x) (tile.y - whole.y) = .ok r' ∧ r'.Fills whole ∧
      ∀ p, p ∈ whole → r'.cell whole p =
        if p ∈ tile then part.cell tile p else r.cell whole p := by
  have hcorner := Rect.cornered_seenFrom hne hsub hsize
  have htile : tile.Sized := by
    obtain ⟨_, _⟩ := hsize
    obtain ⟨_, _, _, _⟩ := Rect.within_of_subset hne hsub
    constructor <;> omega
  have hwidth : (part.width : Int) = tile.width := by
    rw [← hpart.1]
    simp only [Rect.columns, Rect.IsEmpty] at *
    omega
  have hheight : (part.height : Int) = tile.height := by
    rw [← hpart.2]
    simp only [Rect.rows, Rect.IsEmpty] at *
    omega
  have hpaste := r.paste_of_sided (hpart.sided htile) hcorner.left hcorner.top
    (hwidth ▸ hcorner.right) (hheight ▸ hcorner.bottom)
  refine ⟨_, hpaste, fills_update hr _ _, fun p hp => ?_⟩
  have hx : p.x - whole.x - (tile.x - whole.x) = p.x - tile.x := by omega
  have hy : p.y - whole.y - (tile.y - whole.y) = p.y - tile.y := by omega
  have hcell := peek_overwrite_meet (hr.sided hsize) part (tile.x - whole.x) (tile.y - whole.y)
    (hr.has_iff_mem.mpr hp)
  simp only [hx, hy, hpart.has_iff_mem] at hcell
  exact hcell

/-- Where some tile has been pasted, the canvas shows the image; elsewhere it is zero. -/
structure Pasted [Zero α] (whole : Rect) (image : Raster α) (done : List Rect)
    (canvas : Raster α) : Prop where
  /-- The canvas fills the whole rectangle. -/
  fills : canvas.Fills whole
  /-- Its cells. -/
  cell : ∀ p, p ∈ whole → canvas.cell whole p =
    if ∃ tile ∈ done, p ∈ tile then image.cell whole p else 0

namespace Pasted

variable [Zero α] {image canvas part : Raster α} {done : List Rect}

theorem blank (image : Raster α) : Pasted whole image [] (zeros whole.columns whole.rows) :=
  ⟨fills_zeros whole, fun p _ => by simp⟩

/-- One more tile of the image. -/
theorem ends_paste {E : Failure → Prop} (h : Pasted whole image done canvas)
    (hsize : whole.Sized) (hne : ¬ tile.IsEmpty) (hsub : tile ⊆ whole) (hpart : part.Fills tile)
    (himage : ∀ p, p ∈ tile → part.cell tile p = image.cell whole p) :
    Ends E (Pasted whole image (done ++ [tile]))
      (do canvas.paste part (← checked (tile.x - whole.x)) (← checked (tile.y - whole.y))) := by
  have hcorner := Rect.cornered_seenFrom hne hsub hsize
  have hx : Fits (tile.x - whole.x) := hcorner.left
  have hy : Fits (tile.y - whole.y) := hcorner.top
  obtain ⟨canvas', hpaste, hfills, hcells⟩ := exists_paste h.fills hpart hne hsub hsize
  refine (answers_checked hx).bind_eq ?_
  refine (answers_checked hy).bind_eq ?_
  rw [hpaste]
  refine ⟨hfills, fun p hp => ?_⟩
  have hlast : (∃ t ∈ done ++ [tile], p ∈ t) ↔ (∃ t ∈ done, p ∈ t) ∨ p ∈ tile := by
    simp only [List.mem_append, List.mem_singleton, or_and_right, exists_or, exists_eq_left]
  rw [hcells p hp, h.cell p hp]
  by_cases hin : p ∈ tile
  · rw [if_pos hin, if_pos (hlast.mpr (.inr hin)), himage p hin]
  · simp only [hlast, hin, or_false, if_false]

/-- Tiles that cover the rectangle give the image. -/
theorem eq_of_covers (h : Pasted whole image done canvas) (himage : image.Fills whole)
    (hcovers : ∀ p, p ∈ whole → ∃ tile ∈ done, p ∈ tile) : canvas = image :=
  ext_cell h.fills himage fun p hp => by rw [h.cell p hp, if_pos (hcovers p hp)]

end Pasted

end Raster

/-! ## Tiles of a patch -/

variable [Channel κ]

namespace Patch

variable {params : PatchParams} {sources : List (PatchSource Outcome format κ)} {whole : Rect}
  {out : Raster (Pixel format κ)}

/-- A tile of a patch that could be made: a part with pixels, and no coordinate overflows. -/
structure Tile (params : PatchParams) (sources : List (PatchSource Outcome format κ))
    (whole tile : Rect) : Prop where
  /-- The tile has pixels. -/
  not_isEmpty : ¬ tile.IsEmpty
  /-- They are pixels of the patch. -/
  subset : tile ⊆ whole
  /-- No coordinate overflows while it is blended. -/
  fits : blend tile params sources ≠ .error (.fault .overflow)

/-- Whatever a tile needs, the whole patch needed, too. -/
theorem Made.exists_tile (hmade : Made whole params sources out)
    (placed : ∀ s ∈ sources, s.BandsPlaced) (hsize : whole.Sized) {tile : Rect}
    (htile : Tile params sources whole tile) :
    ∃ part, blend tile params sources = .ok part ∧ Made tile params sources part := by
  obtain ⟨hne, hsub, hfits⟩ := htile
  have htilesize : tile.Sized := by
    obtain ⟨_, _⟩ := hsize
    obtain ⟨_, _, _, _⟩ := Rect.within_of_subset hne hsub
    constructor <;> omega
  apply (ends_blend params placed htilesize).exists_ok
  rintro cause (hc | ⟨-, hroom⟩ | ⟨s, hs, ⟨hselected, hc⟩ | ⟨hfill, ⟨p, hp, hptile⟩, hc⟩⟩) heq
  · exact hfits (hc ▸ heq)
  · exact hroom (hmade.room.mono hne hsub)
  · obtain ⟨p, hp, hpcatch⟩ := hselected
    have hcatch := Footprint.catchment_subset_catchment hne hsub (max params.levels 1) p hpcatch
    obtain ⟨pyramid, hpyramid⟩ := hmade.pyramids s hs ⟨p, hp, hcatch⟩
    rw [hpyramid] at hc
    cases hc
  · obtain ⟨alpha, halpha⟩ := hmade.alphas hfill s hs ⟨p, hp, hsub p hptile⟩
    rw [halpha] at hc
    cases hc

/-- A tile is the part of the patch that it covers. -/
theorem Made.eq_cut (hmade : Made whole params sources out) {tile : Rect} {part}
    (hsub : tile ⊆ whole) (hpart : Made tile params sources part) :
    part = out.cut (tile.seenFrom whole) := by
  apply Raster.ext_cell hpart.fills (Raster.fills_cut out (tile.seenFrom whole))
  intro p hp
  rw [hpart.cell p hp, Raster.cell_cut hp, hmade.cell p (hsub p hp)]

/-- The tiles of a rectangle, blended one by one and pasted together. -/
def stitched (whole : Rect) (params : PatchParams)
    (sources : List (PatchSource Outcome format κ)) (tiles : List Rect) :
    Outcome (Raster (Pixel format κ)) := do
  let empty ← Raster.blankFor whole
  tiles.foldlM (fun patch tile => do
    let part ← blend tile params sources
    patch.paste part (← checked (tile.x - whole.x)) (← checked (tile.y - whole.y))) empty

/-- Pasting the tiles together never fails, and gives what was pasted. -/
theorem Made.ends_stitched (hmade : Made whole params sources out)
    (placed : ∀ s ∈ sources, s.BandsPlaced) (hsize : whole.Sized) {tiles : List Rect}
    (htiles : ∀ tile ∈ tiles, Tile params sources whole tile) :
    Ends (fun _ => False) (Raster.Pasted whole out tiles)
      (stitched whole params sources tiles) := by
  have hlevels : 0 < max params.levels 1 := by omega
  refine ((Raster.ends_blankFor whole).weaken fun _ hc =>
    hc.2 (hmade.room.sums 0 hlevels)).bind ?_
  rintro _ ⟨rfl, -⟩
  refine Ends.foldlM (I := Raster.Pasted whole out) (.blank out) ?_
  intro done tile canvas hmem hcanvas
  have htile := htiles tile hmem
  obtain ⟨part, hblend, hpart⟩ := hmade.exists_tile placed hsize htile
  simp only [hblend]
  refine Ends.bind_eq (a := part) rfl ?_
  refine hcanvas.ends_paste hsize htile.not_isEmpty htile.subset hpart.fills fun p hp => ?_
  rw [hpart.cell p hp, hmade.cell p (htile.subset p hp)]

/-- **Tiling is consistent, bit for bit.**  Each tile of a patch that was blended can be blended as
well, and is the part of the patch that it covers; and tiles that cover the patch give it when they
are pasted together. -/
theorem blend_tiles (placed : ∀ s ∈ sources, s.BandsPlaced) (hsize : whole.Sized)
    (hout : blend whole params sources = .ok out) :
    (∀ tile, Tile params sources whole tile → ∃ part,
      out.region (tile.seenFrom whole) = .ok part ∧ blend tile params sources = .ok part) ∧
    ∀ tiles, (∀ tile ∈ tiles, Tile params sources whole tile) →
      (∀ p, p ∈ whole → ∃ tile ∈ tiles, p ∈ tile) →
      stitched whole params sources tiles = .ok out := by
  have hmade := (ends_blend params placed hsize).of_ok hout
  have hlevels : 0 < max params.levels 1 := by omega
  constructor
  · intro tile htile
    obtain ⟨part, hblend, hpart⟩ := hmade.exists_tile placed hsize htile
    refine ⟨part, ?_, hblend⟩
    rw [Raster.region_seenFrom out htile.not_isEmpty htile.subset hsize
      (hmade.room.sums 0 hlevels), hmade.eq_cut htile.subset hpart]
  · intro tiles htiles hcover
    obtain ⟨canvas, hcanvas, hpasted⟩ :=
      (hmade.ends_stitched placed hsize htiles).exists_ok fun _ h => h.elim
    rw [hcanvas, hpasted.eq_of_covers hmade.fills hcover]

/-- A source of four pixels. -/
def spot : PatchSource Outcome .grayAlpha Float32 where
  placement := ⟨1, 1, 2, 2⟩
  resident := false
  pyramid := Pyramid.build (Raster.tabulate 2 2 fun _ _ => ⟨#v[0.5, 1]⟩) ⟨1, 1, 2, 2⟩ 4 4
    (Raster.tabulate 2 2 fun _ _ => 1) 2 false
  alpha := .ok (Raster.tabulate 2 2 fun _ _ => 1)
  pixels area := .ok ((Raster.tabulate 2 2 fun _ _ => ⟨#v[0.5, 1]⟩).cut area)

/-- The four pixels in two tiles, cut through the middle. -/
theorem blend_tiles_spot :
    ∃ out right, blend ⟨0, 0, 4, 4⟩ ⟨2, false, 4, 4⟩ [spot] = .ok out ∧
      out.region ⟨2, 0, 2, 4⟩ = .ok right ∧
      blend ⟨2, 0, 2, 4⟩ ⟨2, false, 4, 4⟩ [spot] = .ok right ∧
      stitched ⟨0, 0, 4, 4⟩ ⟨2, false, 4, 4⟩ [spot] [⟨0, 0, 2, 4⟩, ⟨2, 0, 2, 4⟩] = .ok out := by
  have hok : (blend ⟨0, 0, 4, 4⟩ ⟨2, false, 4, 4⟩ [spot]).isOk := by decide +kernel
  have hleft : (blend ⟨0, 0, 2, 4⟩ ⟨2, false, 4, 4⟩ [spot]).isOk := by decide +kernel
  have hright : (blend ⟨2, 0, 2, 4⟩ ⟨2, false, 4, 4⟩ [spot]).isOk := by decide +kernel
  obtain ⟨out, hout⟩ : ∃ out, blend ⟨0, 0, 4, 4⟩ ⟨2, false, 4, 4⟩ [spot] = .ok out := by
    cases h : blend ⟨0, 0, 4, 4⟩ ⟨2, false, 4, 4⟩ [spot] with
    | ok out => exact ⟨out, rfl⟩
    | error cause =>
      rw [h] at hok
      cases hok
  have htiles : ∀ tile ∈ ([⟨0, 0, 2, 4⟩, ⟨2, 0, 2, 4⟩] : List Rect),
      Tile ⟨2, false, 4, 4⟩ [spot] ⟨0, 0, 4, 4⟩ tile := by
    simp only [List.mem_cons, List.not_mem_nil, or_false]
    rintro tile (rfl | rfl)
    · refine ⟨by decide, ?_, fun h => by rw [h] at hleft; cases hleft⟩
      intro p hp
      rw [Rect.mem_iff] at hp ⊢
      simp only at hp ⊢
      omega
    · refine ⟨by decide, ?_, fun h => by rw [h] at hright; cases hright⟩
      intro p hp
      rw [Rect.mem_iff] at hp ⊢
      simp only at hp ⊢
      omega
  have hplaced : spot.BandsPlaced := by
    intro pyramid hpyramid k level hk
    simp only [spot] at hpyramid
    exact Pyramid.reducedBy_of_build hpyramid hk
  obtain ⟨hparts, hstitched⟩ := blend_tiles (by simpa using hplaced)
    (by constructor <;> decide) hout
  obtain ⟨right, hregion, hblend⟩ := hparts _ (htiles ⟨2, 0, 2, 4⟩ (by simp))
  refine ⟨out, right, hout, hregion, hblend, hstitched _ htiles ?_⟩
  intro p hp
  simp only [List.mem_cons, List.not_mem_nil, or_false, exists_eq_or_imp, exists_eq_left]
  rw [Rect.mem_iff] at hp
  simp only [Rect.mem_iff] at hp ⊢
  omega

end Patch

end Patchwork
