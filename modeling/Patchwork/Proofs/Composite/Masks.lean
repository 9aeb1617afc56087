import Patchwork.Proofs.Composite.Preparing
import Patchwork.Proofs.Composite.Storing

/-!
# The masks of a mosaic

Preparing a mosaic stores a mask for every source.  The masks divide the valid pixels: where some
source has one, exactly one mask is one there.  It is that of the source in which the point lies
deepest, the earliest of equally deep ones.

## Main definitions

* `Piece.Divides` — masks that divide the valid pixels.

## Main statements

* `Composite.prepare_divides` — the masks that are stored when a mosaic is prepared.
-/

namespace Patchwork

open Cache (Handle Promise Drift Recipe Schedule)
open Channel

variable {σ κ : Type} [Channel κ] {format : Format}

namespace Piece

/-- A point is a valid pixel of the piece. -/
def Valid (piece : Piece format κ) (p : Point) : Prop :=
  p ∈ piece.placement ∧ ¬ (piece.raster.cell piece.placement p).alpha ≤ 0

/-- The depth of a point in the piece. -/
def depth (piece : Piece format κ) (p : Point) : κ :=
  (Grassfire.distances piece.raster.alphaPlane).cell piece.placement p

/-- The distance planes of some pieces. -/
def planes (pieces : List (Piece format κ)) (index : Nat) : Raster κ :=
  match pieces[index]? with
  | some piece => Grassfire.distances piece.raster.alphaPlane
  | none => Raster.zeros 0 0

/-- The masks divide the valid pixels among the pieces. -/
structure Divides (pieces : List (Piece format κ)) (masks : Nat → Raster κ) : Prop where
  /-- A mask has the size of its piece. -/
  fills : ∀ (i : Nat) piece, pieces[i]? = some piece →
    piece.raster.Fills piece.placement ∧ (masks i).Fills piece.placement
  /-- It is zero or one everywhere. -/
  binary : ∀ (i : Nat) piece, pieces[i]? = some piece →
    ∀ x y, (masks i).peek x y = 0 ∨ (masks i).peek x y = 1
  /-- Where no piece has a valid pixel, every mask is zero. -/
  zero : ∀ p, (∀ piece ∈ pieces, ¬ piece.Valid p) →
    ∀ (i : Nat) piece, pieces[i]? = some piece → (masks i).cell piece.placement p = 0
  /-- Where some piece has one, exactly one mask is one: that of the piece with the greatest depth,
  the earliest of equals. -/
  one : ∀ p, (∃ piece ∈ pieces, piece.Valid p) →
    ∃ (owner : Nat) (piece : Piece format κ), pieces[owner]? = some piece ∧ piece.Valid p ∧
      (masks owner).cell piece.placement p = 1 ∧
      ∀ (other : Nat) its, pieces[other]? = some its → other ≠ owner →
        (masks other).cell its.placement p = 0 ∧
        (p ∈ its.placement → its.depth p < piece.depth p ∨
          (piece.depth p == its.depth p) = true ∧ owner < other)

variable {pieces : List (Piece format κ)} {index : Nat} {piece : Piece format κ}

omit [Channel κ] in
theorem getElem?_placements (h : pieces[index]? = some piece) :
    (pieces.map (·.placement))[index]? = some piece.placement := by
  rw [List.getElem?_map, h]
  rfl

theorem depth_eq (h : pieces[index]? = some piece) (p : Point) :
    Ownership.depth (pieces.map (·.placement)) (planes pieces) index p = piece.depth p := by
  rw [Ownership.depth_eq (getElem?_placements h)]
  simp only [planes, h, depth]

variable [Counting κ]

theorem counted (pieces : List (Piece format κ)) :
    Ownership.Counted (pieces.map (·.placement)) (planes pieces) := by
  refine ⟨?_⟩
  intro index p
  cases h : pieces[index]? with
  | none =>
    rw [Ownership.depth, List.getElem?_map, h]
    exact Counting.zero
  | some piece =>
    rw [depth_eq h]
    exact (Grassfire.lit_distances piece.raster.alphaPlane).count _ _

/-- The plane of a piece has the size of the piece. -/
theorem fills_of_planes (h : pieces[index]? = some piece)
    (hplane : (planes pieces index).Fills piece.placement) :
    piece.raster.Fills piece.placement := by
  have hlit := Grassfire.lit_distances piece.raster.alphaPlane
  simp only [planes, h] at hplane
  exact ⟨hplane.1.trans hlit.width_eq, hplane.2.trans hlit.height_eq⟩

/-- A pixel that a piece covers is valid when it lies deep. -/
theorem valid_iff (hfills : piece.raster.Fills piece.placement) {p : Point}
    (hp : p ∈ piece.placement) : piece.Valid p ↔ 0 < piece.depth p := by
  have hhas : piece.raster.alphaPlane.Has (p.x - piece.placement.x) (p.y - piece.placement.y) :=
    Raster.Fills.has_iff_mem (r := piece.raster.alphaPlane) hfills |>.mpr hp
  have hcell : piece.raster.alphaPlane.peek (p.x - piece.placement.x) (p.y - piece.placement.y) =
      (piece.raster.cell piece.placement p).alpha := Raster.cell_map hfills hp
  rw [depth, Raster.cell, Grassfire.distances_pos_iff hhas, hcell, Valid]
  exact and_iff_right hp

/-- **Ownership masks divide the valid pixels.** -/
theorem divides {masks : Nat → Raster κ}
    (hmasks : ∀ (i : Nat) piece, pieces[i]? = some piece →
      Ownership.IsMask (pieces.map (·.placement)) (planes pieces) i piece.placement (masks i)) :
    Divides pieces masks := by
  have hfills : ∀ (i : Nat) piece, pieces[i]? = some piece →
      piece.raster.Fills piece.placement :=
    fun i piece h => fills_of_planes h (hmasks i piece h).deep
  -- a mask is zero where its piece does not own the point, and outside its place
  have hzero : ∀ (i : Nat) piece p, pieces[i]? = some piece →
      (p ∈ piece.placement →
        ¬ Ownership.Owns (pieces.map (·.placement)) (planes pieces) i p) →
      (masks i).cell piece.placement p = 0 := by
    intro i piece p h hnot
    by_cases hp : p ∈ piece.placement
    · exact (hmasks i piece h).zero p hp (hnot hp)
    · exact Raster.cell_eq_zero (hmasks i piece h).fills hp
  refine ⟨fun i piece h => ⟨hfills i piece h, (hmasks i piece h).fills⟩,
    fun i piece h => (hmasks i piece h).binary, ?_, ?_⟩
  · intro p hnone i piece h
    refine hzero i piece p h fun hp howns => hnone piece (List.mem_of_getElem? h) ?_
    rw [valid_iff (hfills i piece h) hp, ← depth_eq h]
    exact howns.1
  · rintro p ⟨piece, hmem, hvalid⟩
    obtain ⟨i, h⟩ := List.getElem?_of_mem hmem
    have hdeep : 0 < Ownership.depth (pieces.map (·.placement)) (planes pieces) i p := by
      rw [depth_eq h]
      exact (valid_iff (hfills i piece h) hvalid.1).mp hvalid
    obtain ⟨owner, place, hplace, hp, howns⟩ :=
      (counted pieces).exists_owner (getElem?_placements h) hvalid.1 hdeep
    rw [List.getElem?_map, Option.map_eq_some_iff] at hplace
    obtain ⟨best, hbest, rfl⟩ := hplace
    refine ⟨owner, best, hbest, ?_, (hmasks owner best hbest).one p hp howns, ?_⟩
    · rw [valid_iff (hfills owner best hbest) hp, ← depth_eq hbest]
      exact howns.1
    · intro other its hits hne
      have hplaces := getElem?_placements hits
      refine ⟨hzero other its p hits fun hin howns' => hne ?_, ?_⟩
      · exact howns.eq (counted pieces) (getElem?_placements hbest) hplaces hp hin howns'
      · intro hin
        have htakes := ((counted pieces).takes_or_takes p hne).resolve_left
          (howns.2 other _ hplaces hin hne)
        rwa [Ownership.Takes, depth_eq hbest, depth_eq hits] at htakes

end Piece

/-! ## Preparing a mosaic -/

namespace Composite

variable {Fits : Workspace σ κ → Prop} {store : Nat} {T : Promise (Value format κ)} {c : Composite}
  {pieces : List (Piece format κ)}

/-- The distance plane of a source, out of the cache. -/
theorem Stocked.gathers_distancePlane (S : Stocked T c pieces) {i : Nat} {its : Rect}
    (hi : (c.sources.map (·.placement))[i]? = some its) :
    (c.distancePlane i : Making σ format κ _).Gathers T (· = Piece.planes pieces i) := by
  have hpieces := hi
  rw [S.placements, List.getElem?_map, Option.map_eq_some_iff] at hpieces
  rw [List.getElem?_map, Option.map_eq_some_iff] at hi
  obtain ⟨source, hsource, -⟩ := hi
  obtain ⟨piece, hpiece, -⟩ := hpieces
  simp only [distancePlane, hsource, Piece.planes, hpiece]
  exact Making.gathers_plane (S.distances i source piece hsource hpiece)

/-- Making the masks of all sources stores them. -/
theorem ensures_makeMasks [Counting κ] (K : KeepsMasks Fits store) {D : Drift (Workspace σ κ)}
    (hD : SavesMasks D Fits store) (S : Stocked T c pieces) (hstore : c.maskStore = store)
    (schedule : Schedule) {w : Workspace σ κ} (hw : D.Fits w) :
    (c.makeMasks schedule : Making σ format κ _).Ensures T D (fun _ => True)
      (fun _ w' => D.Fits w' ∧ Stored Fits store (pieces.map (·.placement)) (Piece.planes pieces)
        w') w := by
  subst hstore
  unfold makeMasks
  apply (ensures_generate K hD schedule (fun i its hi => S.gathers_distancePlane hi) hw).bind
  intro _ w' hstored
  rw [S.placements] at hstored
  exact Recipe.Ensures.forM (f := fun source : SourceRecord => Recipe.demote source.distance)
    (I := fun _ w' => D.Fits w' ∧ Stored Fits c.maskStore (pieces.map Piece.placement)
      (Piece.planes pieces) w') hstored fun _ _ _ _ _ hdone => hdone

/-- Preparing a mosaic for blending stores the masks of all sources. -/
theorem ensures_prepare [Counting κ] (K : KeepsMasks Fits store) (S : Stocked T c pieces)
    (hstore : c.maskStore = store) (hblend : c.options.draft = false)
    (hmake : c.options.reuseMasks = false) (schedule : Schedule) (total : Option Rect)
    {w : Workspace σ κ} (hw : Fits w) :
    (c.prepare schedule total : Making σ format κ _).Ensures T (Workspace.drift Fits store)
      (fun _ => True) (fun _ => Stored Fits store (pieces.map (·.placement)) (Piece.planes pieces))
      w := by
  rw [prepare_eq]
  refine (c.ensures_groundwork schedule total
    (fun _ _ => ensures_makeMasks K K.saves S hstore schedule hw) ?_).bind ?_
  · rw [hblend, hmake]
    exact fun hskip => hskip.elim nofun nofun
  · rintro _ w' ⟨-, hstored⟩
    exact ⟨K.fix _ _ hstored.1, K.fix _ _ hstored.1, hstored.2⟩

/-- **Preparing a mosaic divides its pixels.**  When a mosaic of sources that make the same pixels
every time is prepared for blending, the masks that its store holds afterwards divide the valid
pixels among the sources, in whatever order the threads of the pool made them. -/
theorem prepare_divides [Counting κ] (K : KeepsMasks Fits store)
    {studio studio' : Studio σ format κ}
    (B : Built (Workspace.drift Fits store) store T c studio pieces)
    (hblend : c.options.draft = false) (hmake : c.options.reuseMasks = false)
    {schedule : Schedule} {total : Option Rect} {c' : Composite}
    (hprepare : studio.perform (c.prepare schedule total) = (.ok c', studio')) :
    ∃ masks : Nat → Raster κ,
      (∀ i, i < pieces.length → studio'.world.loadMask store i = .ok (masks i)) ∧
      Piece.Divides pieces masks := by
  obtain ⟨hkeeps, hstore, S⟩ := B.stocked
  obtain ⟨-, hdone, -⟩ := hkeeps.perform
    (ensures_prepare K S hstore hblend hmake schedule total hkeeps.fits) hprepare
  have hstored := (hdone c' rfl).2
  let masks : Nat → Raster κ := fun i =>
    (studio'.world.loadMask store i).toOption.getD (Raster.zeros 0 0)
  have hmasks : ∀ (i : Nat) piece, pieces[i]? = some piece →
      studio'.world.loadMask store i = .ok (masks i) ∧
      Ownership.IsMask (pieces.map (·.placement)) (Piece.planes pieces) i piece.placement
        (masks i) := by
    intro i piece hpiece
    obtain ⟨mask, hload, hmask⟩ := hstored i piece.placement (Piece.getElem?_placements hpiece)
    have heq : masks i = mask := by simp only [masks, hload, Except.toOption, Option.getD_some]
    rw [heq]
    exact ⟨hload, hmask⟩
  refine ⟨masks, ?_, Piece.divides fun i piece h => (hmasks i piece h).2⟩
  intro i hi
  exact (hmasks i _ (List.getElem?_eq_getElem hi)).1

/-- Two valid pixels. -/
def full : Raster (Pixel .grayAlpha Float32) := Raster.tabulate 2 1 fun _ _ => ⟨#v[1, 1]⟩

/-- A valid pixel and a gap. -/
def holed : Raster (Pixel .grayAlpha Float32) :=
  Raster.tabulate 2 1 fun x _ => ⟨#v[1, if x = 0 then 1 else 0]⟩

/-- A room with a mask store in memory and a cache that cannot keep all planes of a source. -/
def room : Studio Unit .grayAlpha Float32 :=
  ((Cache.Store.empty ⟨Files.empty, #[MaskStore.empty], #[], #[], ()⟩).newCache 20).2

/-- The mosaic of the two rasters, which have one column in common. -/
def sideBySide : Outcome (Composite × Studio Unit .grayAlpha Float32) := do
  let (c, studio) := create room 0 0 ⟨false, false, false⟩
  let (_, c, studio) ← c.insert studio (View.ofRaster full) 0 0
  let (_, c, studio) ← c.insert studio (View.ofRaster holed) 1 0
  return (c, studio)

/-- The second of two tasks goes first, and they interrupt each other. -/
def inTurns : Schedule := ⟨[1, 0, 0, 1, 1, 0], 0⟩

/-- The masks of the two divide their pixels. -/
theorem prepare_divides_pair :
    ∃ c studio c' studio', sideBySide = .ok (c, studio) ∧
      studio.perform (c.prepare inTurns none) = (.ok c', studio') ∧
      ∃ masks : Nat → Raster Float32,
        (∀ i, i < 2 → studio'.world.loadMask 0 i = .ok (masks i)) ∧
        Piece.Divides [⟨⟨0, 0, 2, 1⟩, full⟩, ⟨⟨1, 0, 2, 1⟩, holed⟩] masks := by
  have hok : (match sideBySide with
    | .ok (c, studio) => !c.options.draft && !c.options.reuseMasks &&
      (studio.perform (c.prepare inTurns none)).1.isOk
    | .error _ => false) = true := by decide +kernel
  cases hbuilt : sideBySide with
  | error cause =>
    rw [hbuilt] at hok
    cases hok
  | ok built =>
    obtain ⟨c, studio⟩ := built
    simp only [hbuilt, Bool.and_eq_true, Bool.not_eq_true'] at hok
    obtain ⟨⟨hblend, hmake⟩, hok⟩ := hok
    rcases hprepare : studio.perform (c.prepare inTurns none) with ⟨cause | c', studio'⟩
    · rw [hprepare] at hok
      cases hok
    refine ⟨c, studio, c', studio', rfl, hprepare, ?_⟩
    have hkeeps : room.Keeps (fun _ _ => True) (Workspace.drift (InMemory 0) 0) :=
      (Cache.Store.Keeps.empty (D := Workspace.drift (InMemory 0) 0) ⟨_, rfl⟩).newCache 20
    obtain ⟨⟨_, c1, studio1⟩, hfull, hbuilt⟩ := Outcome.bind_eq_ok_iff.mp hbuilt
    obtain ⟨⟨_, c2, studio2⟩, hholed, hbuilt⟩ := Outcome.bind_eq_ok_iff.mp hbuilt
    cases hbuilt
    have B1 := (Built.create hkeeps (fun _ _ hw => hw) 0 _).insert
      (View.quiet_ofRaster ⟨rfl, rfl⟩) rfl hfull
    have B2 := B1.insert (View.quiet_ofRaster ⟨rfl, rfl⟩) rfl hholed
    exact prepare_divides (keepsMasks_inMemory 0) B2 hblend hmake hprepare

end Composite

end Patchwork
