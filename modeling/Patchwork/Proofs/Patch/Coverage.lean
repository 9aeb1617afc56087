import Patchwork.Proofs.Patch.Opacity

/-!
# The coverage of a blended patch

At each pixel that some source covers, the source that owns it has a positive mask there, so the
mixture of all levels has positive coverage and can be rescaled.  What it is rescaled to is the
largest coverage any source has at the pixel; where no source has any, the pixel becomes zero.

The sources are those of `Original`: their masks are their ownership masks, and their pyramids are
built from their pixels, with or without the intent to fill holes.

## Main definitions

* `Original.sourcesWith` — all sources as a patch sees them, for either way of building pyramids.
* `Original.NonNegative` — no pixel of a source has negative coverage.

## Main statements

* `Patch.weightSum_selection_pos_iff` — where the masks of the sources reach.
* `Patch.restores_largest_coverage` — the coverage of a patch without hole filling.
-/

namespace Patchwork

open Outcome Channel
open Rect (half)

variable {format : Format}

/-! ## Sources for either way of building pyramids -/

namespace Original

section Pipeline

variable {κ : Type} [Channel κ]

/-- The source as a patch sees it, its pyramid built to fill holes or not. -/
def toSourceWith (fill : Bool) (originals : List (Original format κ))
    (levels columns rows index : Nat) (o : Original format κ) : PatchSource Outcome format κ :=
  { toSource originals levels columns rows index o with
    pyramid := do
      Pyramid.build o.raster o.placement columns rows (← mask originals index) levels fill }

/-- All sources as a patch sees them, their pyramids built to fill holes or not. -/
def sourcesWith (fill : Bool) (originals : List (Original format κ)) (levels columns rows : Nat) :
    List (PatchSource Outcome format κ) :=
  originals.mapIdx (toSourceWith fill originals levels columns rows)

variable {fill : Bool} {originals : List (Original format κ)} {levels columns rows index : Nat}
  {o : Original format κ}

theorem sourcesWith_false (originals : List (Original format κ)) (levels columns rows : Nat) :
    sourcesWith false originals levels columns rows = sources originals levels columns rows := rfl

theorem mem_sourcesWith {s : PatchSource Outcome format κ} :
    s ∈ sourcesWith fill originals levels columns rows ↔
      ∃ j o, originals[j]? = some o ∧ s = toSourceWith fill originals levels columns rows j o := by
  simp only [sourcesWith, List.mem_iff_getElem?, List.getElem?_mapIdx, Option.map_eq_some_iff,
    eq_comm (a := s)]

theorem bandsPlacedWith {s : PatchSource Outcome format κ}
    (hs : s ∈ sourcesWith fill originals levels columns rows) : s.BandsPlaced := by
  obtain ⟨j, o, -, rfl⟩ := mem_sourcesWith.mp hs
  intro pyramid hpyramid k level hk
  obtain ⟨m, -, hbuild⟩ := bind_eq_ok_iff.mp hpyramid
  exact Pyramid.reducedBy_of_build hbuild hk

variable [Counting κ]

/-- The pyramid of a source can be built either way. -/
theorem ends_pyramidWith (hlevels : 0 < levels) (h : originals[index]? = some o) :
    Ends IsRange
      (fun pyramid => ∃ (image : Placed (Pixel format κ)) (weight : Placed κ),
        image.raster = (if fill then o.raster.map Pixel.unpremultiply else o.raster) ∧
        Ownership.IsMask (placements originals) (distances originals) index o.placement
          weight.raster ∧
        pyramid.Holds o.placement image weight levels)
      (toSourceWith fill originals levels columns rows index o).pyramid := by
  apply (ends_mask h).bind
  intro m hm
  refine (Pyramid.ends_build o.raster o.placement columns rows m levels fill).mono ?_ ?_
  · rintro cause (hc | hmisfit)
    · exact hc
    · exact absurd ⟨hlevels, o.fills, hm.fills⟩ hmisfit
  · rintro pyramid ⟨-, image, weight, himage, hweight, hholds⟩
    exact ⟨image, weight, himage, hweight.symm ▸ hm, hholds⟩

end Pipeline

/-! ## Coverage and ownership -/

variable {fill : Bool} {originals : List (Original format ℚ)} {levels columns rows index : Nat}
  {o : Original format ℚ} {p : Point}

/-- No pixel has negative coverage. -/
def NonNegative (o : Original format ℚ) : Prop := ∀ pixel ∈ o.raster.data, 0 ≤ pixel.alpha

instance (o : Original format ℚ) : Decidable o.NonNegative :=
  inferInstanceAs (Decidable (∀ pixel ∈ o.raster.data, 0 ≤ pixel.alpha))

theorem NonNegative.sample (h : format.hasAlpha = true) (hnonneg : o.NonNegative) (q : Point) :
    0 ≤ (o.sample q).alpha := by
  by_cases hhas : o.raster.Has (q.x - o.placement.x) (q.y - o.placement.y)
  · have hindex := hhas.index_lt
    rw [Original.sample, Raster.cell, Raster.peek_eq_getD hhas, Array.getD, dif_pos hindex]
    exact hnonneg _ (Array.getElem_mem hindex)
  · rw [Original.sample, Raster.cell, Raster.peek_eq_zero hhas, Pixel.alpha_zero h]

/-- The coverage of what a source shows. -/
theorem alpha_visible (h : format.hasAlpha = true) (o : Original format ℚ) (p : Point) :
    (o.visible p).alpha =
      if p ∈ o.placement ∧ 0 < (o.sample p).alpha then (o.sample p).alpha else 0 := by
  rw [visible]
  split
  · rfl
  · exact Pixel.alpha_zero h

theorem alpha_visible_nonneg (h : format.hasAlpha = true) (o : Original format ℚ) (p : Point) :
    0 ≤ (o.visible p).alpha := by
  rw [alpha_visible h]
  split
  · next hshown => exact hshown.2.le
  · exact le_refl 0

theorem alpha_visible_pos_iff (h : format.hasAlpha = true) :
    0 < (o.visible p).alpha ↔ p ∈ o.placement ∧ 0 < (o.sample p).alpha := by
  rw [alpha_visible h]
  split
  · next hshown => simp [hshown]
  · next hnot => simp [hnot]

/-- The depths of the sources are counts. -/
theorem counted (originals : List (Original format ℚ)) :
    Ownership.Counted (placements originals) (distances originals) := by
  refine ⟨?_⟩
  intro index p
  cases h : originals[index]? with
  | none =>
    rw [Ownership.depth, getElem?_placements, h]
    exact Counting.zero
  | some o =>
    rw [Ownership.depth, getElem?_placements, h]
    simp only [Option.map_some, distances, h]
    exact (Grassfire.lit_distances o.raster.alphaPlane).count _ _

/-- Where a source has coverage, some source owns the pixel, and it has coverage there. -/
theorem exists_owner (h : originals[index]? = some o) (hp : p ∈ o.placement)
    (halpha : 0 < (o.sample p).alpha) :
    ∃ i o', originals[i]? = some o' ∧ p ∈ o'.placement ∧
      Ownership.Owns (placements originals) (distances originals) i p := by
  have hplacement : (placements originals)[index]? = some o.placement := by
    rw [getElem?_placements, h]
    rfl
  obtain ⟨i, its, hits, hmem, howns⟩ :=
    (counted originals).exists_owner hplacement hp ((depth_pos_iff h hp).mpr halpha)
  rw [getElem?_placements, Option.map_eq_some_iff] at hits
  obtain ⟨o', ho', rfl⟩ := hits
  exact ⟨i, o', ho', hmem, howns⟩

/-- A pyramid was built from this image, and its mask keeps what the source owns. -/
structure Kept (fill : Bool) (originals : List (Original format ℚ)) (levels columns rows : Nat)
    (index : Nat) (o : Original format ℚ) (image : Placed (Pixel format ℚ)) (weight : Placed ℚ) :
    Prop where
  /-- The mask lies inside the coverage. -/
  veiled : (toSourceWith fill originals levels columns rows index o).Veiled levels image weight
  /-- The mask is positive on what the source owns. -/
  pos_iff : ∀ p, 0 < weight.sample p ↔ p ∈ o.placement ∧
    Ownership.Owns (placements originals) (distances originals) index p
  /-- To fill holes the image loses its coverage first. -/
  full : fill = true → Pyramid.Opaque image weight 0

/-- A mask is positive on what its source owns, and nowhere else. -/
theorem isMask_pos_iff {m : Raster ℚ}
    (hm : Ownership.IsMask (placements originals) (distances originals) index o.placement m)
    (q : Point) :
    0 < m.cell o.placement q ↔ q ∈ o.placement ∧
      Ownership.Owns (placements originals) (distances originals) index q := by
  by_cases hq : q ∈ o.placement
  · by_cases howns : Ownership.Owns (placements originals) (distances originals) index q
    · rw [hm.one q hq howns]
      exact iff_of_true (zero_lt_one (α := ℚ)) ⟨hq, howns⟩
    · rw [hm.zero q hq howns]
      exact iff_of_false (lt_irrefl (0 : ℚ)) fun hmem => howns hmem.2
  · rw [Raster.cell_eq_zero hm.fills hq]
    exact iff_of_false (lt_irrefl (0 : ℚ)) fun hmem => hq hmem.1

/-- The coverage of the image that a pyramid is built from. -/
theorem alpha_sample_built (h : format.hasAlpha = true) {image : Placed (Pixel format ℚ)}
    (himage : image.raster = if fill then o.raster.map Pixel.unpremultiply else o.raster)
    (hframe : image.frame = o.placement) (q : Point) :
    (image.sample q).alpha =
      if fill then (if 0 < (o.sample q).alpha then 1 else 0) else (o.sample q).alpha := by
  rw [Placed.sample, himage, hframe]
  cases fill with
  | false => rfl
  | true => exact Placed.alpha_sample_unpremultiply h ⟨o.raster, o.placement, 0, 0, o.fills⟩ q

/-- A pyramid that was built from the pixels and the ownership mask of a source. -/
theorem Kept.of_holds (h : format.hasAlpha = true) (ho : originals[index]? = some o)
    (hnonneg : o.NonNegative) {pyramid : Pyramid format ℚ} {image : Placed (Pixel format ℚ)}
    {weight : Placed ℚ}
    (hpyramid : (toSourceWith fill originals levels columns rows index o).pyramid = .ok pyramid)
    (himage : image.raster = if fill then o.raster.map Pixel.unpremultiply else o.raster)
    (hmask : Ownership.IsMask (placements originals) (distances originals) index o.placement
      weight.raster)
    (hholds : pyramid.Holds o.placement image weight levels) :
    Kept fill originals levels columns rows index o image weight := by
  have hweight : weight.sample = weight.raster.cell o.placement := by
    funext q
    rw [Placed.sample, hholds.weight_frame]
  have hpos : ∀ q, 0 < weight.sample q ↔ q ∈ o.placement ∧
      Ownership.Owns (placements originals) (distances originals) index q := by
    rw [hweight]
    exact isMask_pos_iff hmask
  have halpha := alpha_sample_built h himage hholds.image_frame
  have howned : ∀ q, 0 < weight.sample q → 0 < (o.sample q).alpha := by
    intro q hq
    obtain ⟨hmem, howns⟩ := (hpos q).mp hq
    exact (depth_pos_iff ho hmem).mp howns.1
  refine ⟨⟨⟨pyramid, hpyramid, hholds⟩, ?_, ?_, ?_⟩, hpos, ?_⟩
  · rw [hweight]
    exact isMask_nonneg hmask
  · intro q
    rw [halpha]
    have := hnonneg.sample h q
    split
    · split <;> norm_num
    · exact this
  · intro q hq
    rw [halpha, if_pos (howned q hq)]
    split
    · exact zero_lt_one
    · exact howned q hq
  · rintro rfl q hq
    exact (halpha q).trans ((if_pos rfl).trans (if_pos (howned q hq)))

theorem exists_kept (h : format.hasAlpha = true) (hlevels : 0 < levels)
    (ho : originals[index]? = some o) (hnonneg : o.NonNegative) {pyramid : Pyramid format ℚ}
    (hpyramid : (toSourceWith fill originals levels columns rows index o).pyramid = .ok pyramid) :
    ∃ image weight, Kept fill originals levels columns rows index o image weight := by
  obtain ⟨image, weight, himage, hmask, hholds⟩ := (ends_pyramidWith hlevels ho).of_ok hpyramid
  exact ⟨image, weight, Kept.of_holds h ho hnonneg hpyramid himage hmask hholds⟩

end Original

namespace Patch

variable {fill : Bool} {originals : List (Original format ℚ)} {levels columns rows : Nat}
  {p : Point}

/-! ## The sources of one pixel -/

/-- What a pixel needs of its sources: their coverage is nowhere negative, and those that are
selected for it have their pyramids. -/
structure Supplied (fill : Bool) (originals : List (Original format ℚ))
    (levels columns rows : Nat) (p : Point) : Prop where
  /-- There is a level. -/
  levels_pos : 0 < levels
  /-- No source has negative coverage. -/
  nonneg : ∀ o ∈ originals, o.NonNegative
  /-- The selected sources have their pyramids. -/
  pyramids : ∀ s ∈ selection (dot p) levels
    (Original.sourcesWith fill originals levels columns rows), ∃ pyramid, s.pyramid = .ok pyramid

/-- The sources that are selected for a pixel. -/
abbrev queueAt (fill : Bool) (originals : List (Original format ℚ)) (levels columns rows : Nat)
    (p : Point) : List (PatchSource Outcome format ℚ) :=
  selection (dot p) levels (Original.sourcesWith fill originals levels columns rows)

/-- A source that is selected for the pixel has its pyramid. -/
theorem Supplied.kept (h : format.hasAlpha = true)
    (S : Supplied fill originals levels columns rows p) {index : Nat} {o : Original format ℚ}
    (ho : originals[index]? = some o)
    (hs : Original.toSourceWith fill originals levels columns rows index o ∈
      queueAt fill originals levels columns rows p) :
    ∃ image weight, Original.Kept fill originals levels columns rows index o image weight := by
  obtain ⟨pyramid, hpyramid⟩ := S.pyramids _ hs
  exact Original.exists_kept h S.levels_pos ho (S.nonneg o (List.mem_of_getElem? ho)) hpyramid

theorem Supplied.exists_kept (h : format.hasAlpha = true)
    (S : Supplied fill originals levels columns rows p) {s : PatchSource Outcome format ℚ}
    (hs : s ∈ queueAt fill originals levels columns rows p) :
    ∃ index o image weight, originals[index]? = some o ∧
      s = Original.toSourceWith fill originals levels columns rows index o ∧
      Original.Kept fill originals levels columns rows index o image weight := by
  obtain ⟨index, o, ho, rfl⟩ := Original.mem_sourcesWith.mp (mem_selection.mp hs).1
  obtain ⟨image, weight, hkept⟩ := S.kept h ho hs
  exact ⟨index, o, image, weight, ho, rfl, hkept⟩

/-- Below the finest level the selected sources are opaque; to fill holes, at the finest, too. -/
theorem Supplied.opaqueFrom (h : format.hasAlpha = true)
    (S : Supplied fill originals levels columns rows p) :
    OpaqueFrom (if fill then 0 else 1) (queueAt fill originals levels columns rows p) levels := by
  intro s hs
  obtain ⟨index, o, image, weight, -, rfl, hkept⟩ := S.exists_kept h hs
  refine ⟨image, weight, hkept.veiled, ?_⟩
  intro k hk
  cases k with
  | zero => exact hkept.full (by simpa using hk)
  | succ k => exact hkept.veiled.opaque_succ h k

/-- **Where the masks reach.**  At the points that a pixel reads of a level there is weight exactly
where some covered pixel of a source spreads to. -/
theorem weightSum_selection_pos_iff (h : format.hasAlpha = true)
    (S : Supplied fill originals levels columns rows p) {k : Nat} (hk : k < levels) {r : Point}
    (hr : r ∈ half^[k] (dot p)) :
    0 < weightSum (queueAt fill originals levels columns rows p) k r ↔
      ∃ o ∈ originals, ∃ q, q ∈ o.placement ∧ 0 < (o.sample q).alpha ∧ r ∈ half^[k] (dot q) := by
  rw [weightSum_pos_iff (S.opaqueFrom h) hk]
  constructor
  · rintro ⟨s, hs, hpos⟩
    obtain ⟨index, o, image, weight, ho, rfl, hkept⟩ := S.exists_kept h hs
    rw [hkept.veiled.maskAt_eq hk, Pyramid.weightAt_pos_iff hkept.veiled.nonneg] at hpos
    obtain ⟨q, hq, hrq⟩ := hpos
    obtain ⟨hmem, howns⟩ := (hkept.pos_iff q).mp hq
    exact ⟨o, List.mem_of_getElem? ho, q, hmem, (Original.depth_pos_iff ho hmem).mp howns.1, hrq⟩
  · rintro ⟨o, ho, q, hq, halpha, hrq⟩
    obtain ⟨index, hindex⟩ := List.getElem?_of_mem ho
    obtain ⟨i, owner, howner, hmem, howns⟩ := Original.exists_owner hindex hq halpha
    -- the owner reaches the pixel at this level, so it is selected
    have hmeets : (half^[k] owner.placement).Meets (half^[k] (dot p)) :=
      ⟨r, Rect.half_iterate_subset (Rect.not_isEmpty_dot q) (dot_subset hmem) k r hrq, hr⟩
    have hselected : Original.toSourceWith fill originals levels columns rows i owner ∈
        queueAt fill originals levels columns rows p :=
      mem_selection.mpr ⟨Original.mem_sourcesWith.mpr ⟨i, owner, howner, rfl⟩,
        Footprint.meets_catchment hk hmeets⟩
    refine ⟨_, hselected, ?_⟩
    obtain ⟨image, weight, hkept⟩ := S.kept h howner hselected
    rw [hkept.veiled.maskAt_eq hk, Pyramid.weightAt_pos_iff hkept.veiled.nonneg]
    exact ⟨q, (hkept.pos_iff q).mpr ⟨hmem, howns⟩, hrq⟩

/-- The blended pixel is made of the sources that are selected for it alone. -/
theorem blendAt_selection (hlevels : 0 < levels)
    {sources : List (PatchSource Outcome format ℚ)} (placed : ∀ s ∈ sources, s.BandsPlaced)
    (p : Point) :
    blendAt ⟨levels, fill, columns, rows⟩ sources p =
      (if fill then
        (collapseFrom (meanAt (selection (dot p) levels sources)) (levels - 1) 0 p).unpremultiply
      else
        rescaled (coverage (selection (dot p) levels sources) p)
          (collapseFrom (meanAt (selection (dot p) levels sources)) (levels - 1) 0 p)) := by
  have hmax : max levels 1 = levels := by omega
  have hmixed : collapseFrom (meanAt (residentFirst sources)) (levels - 1) 0 p =
      collapseFrom (meanAt (selection (dot p) levels sources)) (levels - 1) 0 p := by
    refine collapseFrom_congr ?_ (mem_dot p)
    intro i hi q hq
    rw [Nat.zero_add]
    exact (meanAt_selection placed (by omega) hq).symm
  have hcoverage : coverage (residentFirst sources) p =
      coverage (selection (dot p) levels sources) p := (coverage_selection hlevels (mem_dot p)).symm
  simp only [blendAt, hmax]
  rw [Pixel.sanitized_eq, hmixed, hcoverage]

/-- A patch of these sources can be made, either way. -/
theorem ends_blend_sourcesWith (hlevels : 0 < levels) {area : Rect} (hsize : area.Sized) :
    Ends IsRange (Made area ⟨levels, fill, columns, rows⟩
        (Original.sourcesWith fill originals levels columns rows))
      (blend area ⟨levels, fill, columns, rows⟩
        (Original.sourcesWith fill originals levels columns rows)) := by
  refine (ends_blend ⟨levels, fill, columns, rows⟩ (fun s hs => Original.bandsPlacedWith hs)
    hsize).weaken ?_
  rintro cause (hc | ⟨hc, -⟩ | ⟨s, hs, ⟨-, hc⟩ | ⟨-, -, hc⟩⟩)
  · exact hc.isRange
  · exact .inr hc
  · obtain ⟨j, o', ho', rfl⟩ := Original.mem_sourcesWith.mp hs
    exact (Original.ends_pyramidWith hlevels ho').of_error hc
  · obtain ⟨j, o', ho', rfl⟩ := Original.mem_sourcesWith.mp hs
    cases hc

/-- A patch that was made had what each of its pixels needs. -/
theorem Made.supplied {area : Rect} {out : Raster (Pixel format ℚ)} (hlevels : 0 < levels)
    (hnonneg : ∀ o ∈ originals, o.NonNegative)
    (hout : Made area ⟨levels, fill, columns, rows⟩
      (Original.sourcesWith fill originals levels columns rows) out) (hp : p ∈ area) :
    Supplied fill originals levels columns rows p := by
  refine ⟨hlevels, hnonneg, ?_⟩
  intro s hs
  obtain ⟨hmem, q, hq, hcatch⟩ := mem_selection.mp hs
  have hmax : max levels 1 = levels := by omega
  refine hout.pyramids s hmem ⟨q, hq, ?_⟩
  simp only [hmax]
  exact Footprint.catchment_subset_catchment (Rect.not_isEmpty_dot p) (dot_subset hp) levels q
    hcatch

/-! ## The restored coverage -/

/-- Raising a coverage to that of a source. -/
theorem raise_eq_max (h : format.hasAlpha = true) (index : Nat) (o : Original format ℚ)
    (p : Point) {value : ℚ} (hvalue : 0 ≤ value) :
    (Original.toSourceWith fill originals levels columns rows index o).raise p value =
      max value (o.visible p).alpha := by
  have hraise : (Original.toSourceWith fill originals levels columns rows index o).raise p value =
      if p ∈ o.placement then larger value (o.raster.alphaPlane.cell o.placement p)
      else value := rfl
  rw [hraise, Original.alpha_visible h]
  by_cases hp : p ∈ o.placement
  · rw [if_pos hp, Original.cell_alphaPlane hp, larger_eq_max]
    by_cases halpha : 0 < (o.sample p).alpha
    · rw [if_pos ⟨hp, halpha⟩]
    · rw [if_neg fun hshown => halpha hshown.2, max_eq_left hvalue,
        max_eq_left ((not_lt.mp halpha).trans hvalue)]
  · rw [if_neg hp, if_neg fun hshown => hp hshown.1, max_eq_left hvalue]

/-- The largest coverage that any of the sources shows at the point, zero where none is. -/
structure Largest (originals : List (Original format ℚ)) (p : Point) (share : ℚ) : Prop where
  /-- No source shows more. -/
  greatest : ∀ o ∈ originals, (o.visible p).alpha ≤ share
  /-- Some source shows as much. -/
  attained : share = 0 ∨ ∃ o ∈ originals, share = (o.visible p).alpha

/-- The coverage of the selected sources is the largest that any of all sources shows. -/
theorem largest_coverage (h : format.hasAlpha = true) (hlevels : 0 < levels) (p : Point) :
    Largest originals p (coverage (queueAt fill originals levels columns rows p) p) := by
  let sources := residentFirst (Original.sourcesWith fill originals levels columns rows)
  let shares := sources.map fun s => s.raise p 0
  have hshare : ∀ index o, (Original.toSourceWith fill originals levels columns rows index o).raise
      p 0 = max 0 (o.visible p).alpha := fun index o => raise_eq_max h index o p (le_refl 0)
  have hshown : ∀ o : Original format ℚ, 0 ≤ (o.visible p).alpha :=
    fun o => Original.alpha_visible_nonneg h o p
  have hfold : coverage (queueAt fill originals levels columns rows p) p = shares.foldl max 0 := by
    rw [coverage_selection hlevels (mem_dot p), coverage, List.foldl_map]
    refine List.foldl_rel (r := fun a b => 0 ≤ a ∧ a = b) ⟨le_refl (0 : ℚ), rfl⟩ ?_ |>.2
    rintro s hs value _ ⟨hvalue, rfl⟩
    obtain ⟨index, o, -, rfl⟩ := Original.mem_sourcesWith.mp (mem_residentFirst.mp hs)
    rw [raise_eq_max h index o p hvalue, hshare, max_eq_right (hshown o)]
    exact ⟨le_max_of_le_left hvalue, rfl⟩
  have hmax : (0 :: shares).max? =
      some (coverage (queueAt fill originals levels columns rows p) p) := by
    rw [List.max?_cons', hfold]
  obtain ⟨hmem, hgreatest⟩ := List.max?_eq_some_iff.mp hmax
  constructor
  · intro o ho
    obtain ⟨index, hindex⟩ := List.getElem?_of_mem ho
    have hsource : Original.toSourceWith fill originals levels columns rows index o ∈ sources :=
      mem_residentFirst.mpr (Original.mem_sourcesWith.mpr ⟨index, o, hindex, rfl⟩)
    refine (le_max_right 0 _).trans (hgreatest _ (List.mem_cons_of_mem _ ?_))
    exact List.mem_map.mpr ⟨_, hsource, hshare index o⟩
  · refine (List.mem_cons.mp hmem).imp_right fun hshares => ?_
    obtain ⟨s, hs, hvalue⟩ := List.mem_map.mp hshares
    obtain ⟨index, o, ho, rfl⟩ := Original.mem_sourcesWith.mp (mem_residentFirst.mp hs)
    exact ⟨o, List.mem_of_getElem? ho, by rw [← hvalue, hshare, max_eq_right (hshown o)]⟩

/-- Rescaling a pixel that has coverage gives it the coverage asked for. -/
theorem alpha_rescaled (h : format.hasAlpha = true) (alpha : ℚ) {p : Pixel format ℚ}
    (hp : 0 < p.alpha) : (rescaled alpha p).alpha = alpha := by
  rw [rescaled, ratio?_rat, if_pos hp]
  rw [Pixel.alpha_scale h, mul_comm]
  exact div_mul_cancel₀ alpha hp.ne'

/-- The pixel has the largest coverage of any source there, and is zero where none has any. -/
structure Restored (originals : List (Original format ℚ)) (p : Point) (pixel : Pixel format ℚ) :
    Prop where
  /-- No source has more coverage. -/
  greatest : ∀ o ∈ originals, p ∈ o.placement → (o.sample p).alpha ≤ pixel.alpha
  /-- Some source has as much, unless none has any. -/
  attained : pixel = 0 ∨
    ∃ o ∈ originals, p ∈ o.placement ∧ 0 < (o.sample p).alpha ∧ pixel.alpha = (o.sample p).alpha

theorem Restored.of_visible (h : format.hasAlpha = true) {pixel : Pixel format ℚ}
    (hgreatest : ∀ o ∈ originals, (o.visible p).alpha ≤ pixel.alpha)
    (hattained : pixel = 0 ∨
      ∃ o ∈ originals, 0 < (o.visible p).alpha ∧ pixel.alpha = (o.visible p).alpha) :
    Restored originals p pixel := by
  constructor
  · intro o ho hp
    refine le_trans ?_ (hgreatest o ho)
    rw [Original.alpha_visible h]
    split
    · exact le_refl _
    · next hnot => exact not_lt.mp fun hpos => hnot ⟨hp, hpos⟩
  · refine hattained.imp_right ?_
    rintro ⟨o, ho, hpos, heq⟩
    rw [Original.alpha_visible h] at hpos heq
    split at hpos
    · next hshown => exact ⟨o, ho, hshown.1, hshown.2, heq.trans (if_pos hshown)⟩
    · exact absurd hpos (lt_irrefl (0 : ℚ))

/-- **The coverage of a blended pixel** without hole filling. -/
theorem restored_blendAt (h : format.hasAlpha = true)
    (S : Supplied false originals levels columns rows p) :
    Restored originals p (blendAt ⟨levels, false, columns, rows⟩
      (Original.sourcesWith false originals levels columns rows) p) := by
  rw [blendAt_selection S.levels_pos (fun s hs => Original.bandsPlacedWith hs) p]
  simp only [Bool.false_eq_true, if_false]
  have hlargest : Largest originals p
      (coverage (queueAt false originals levels columns rows p) p) :=
    largest_coverage h S.levels_pos p
  by_cases hcovered : ∃ o ∈ originals, 0 < (o.visible p).alpha
  · obtain ⟨o, ho, hpos⟩ := hcovered
    have hweight : 0 < weightSum (queueAt false originals levels columns rows p) 0 p := by
      obtain ⟨hp, halpha⟩ := (Original.alpha_visible_pos_iff h).mp hpos
      exact (weightSum_selection_pos_iff h S S.levels_pos (mem_dot p)).mpr
        ⟨o, ho, p, hp, halpha, mem_dot p⟩
    have hmixed := alpha_collapseFrom_pos h (S.opaqueFrom h) S.levels_pos hweight
    have halpha := alpha_rescaled h
      (coverage (queueAt false originals levels columns rows p) p) hmixed
    have hcoverage := hpos.trans_le (hlargest.greatest o ho)
    apply Restored.of_visible h
    · rw [halpha]
      exact hlargest.greatest
    · rw [halpha]
      obtain ⟨o', ho', heq⟩ := hlargest.attained.resolve_left hcoverage.ne'
      exact .inr ⟨o', ho', heq ▸ hcoverage, heq⟩
  · have hzero : coverage (queueAt false originals levels columns rows p) p = 0 := by
      obtain hzero | ⟨o, ho, heq⟩ := hlargest.attained
      · exact hzero
      · exact heq.trans (le_antisymm (not_lt.mp fun hpos => hcovered ⟨o, ho, hpos⟩)
          (Original.alpha_visible_nonneg h o p))
    rw [hzero] at hlargest
    rw [hzero, rescaled_zero]
    apply Restored.of_visible h
    · rw [Pixel.alpha_zero h]
      exact hlargest.greatest
    · exact .inl rfl

/-- **A blended patch has the largest coverage of its sources.**  In a format with alpha, when no
source has negative coverage, each pixel of a patch without hole filling covers as much as the
source that covers most there, and is zero where no source has any coverage.  Nothing but a
coordinate or a raster out of range keeps the patch from being made. -/
theorem restores_largest_coverage (h : format.hasAlpha = true)
    (hnonneg : ∀ o ∈ originals, o.NonNegative) (hlevels : 0 < levels) {area : Rect}
    (hsize : area.Sized) (columns rows : Nat) :
    Ends IsRange
      (fun out => out.Fills area ∧ ∀ p, p ∈ area → Restored originals p (out.cell area p))
      (blend area ⟨levels, false, columns, rows⟩
        (Original.sources originals levels columns rows)) := by
  rw [← Original.sourcesWith_false]
  apply (ends_blend_sourcesWith hlevels hsize).imp
  intro out hout
  refine ⟨hout.fills, ?_⟩
  intro p hp
  rw [hout.cell p hp]
  exact restored_blendAt h (hout.supplied hlevels hnonneg hp)

/-- Two grey sources of different coverage that overlap in one pixel. -/
def overlap : List (Original .grayAlpha ℚ) :=
  [⟨Raster.tabulate 2 1 fun x _ => ⟨#v[1 / 8, if x = 0 then 1 / 2 else 1 / 4]⟩, ⟨0, 0, 2, 1⟩, true,
      by decide⟩,
    ⟨Raster.tabulate 2 1 fun x _ => ⟨#v[1 / 8, if x = 0 then 3 / 4 else 1]⟩, ⟨1, 0, 2, 1⟩, false,
      by decide⟩]

/-- The common pixel belongs to the first of the two and gets the coverage of the second. -/
theorem restores_largest_coverage_overlap :
    ∃ out, blend ⟨0, 0, 3, 1⟩ ⟨2, false, 9, 9⟩ (Original.sources overlap 2 9 9) = .ok out ∧
      (out.cell ⟨0, 0, 3, 1⟩ ⟨1, 0⟩).alpha = 3 / 4 := by
  have hok : (blend ⟨0, 0, 3, 1⟩ ⟨2, false, 9, 9⟩ (Original.sources overlap 2 9 9)).isOk := by
    decide +kernel
  have hsize : Rect.Sized ⟨0, 0, 3, 1⟩ := by constructor <;> decide
  have hnonneg : ∀ o ∈ overlap, o.NonNegative := by decide +kernel
  have hlevels : 0 < 2 := by decide
  have hends := restores_largest_coverage (by rfl) hnonneg hlevels hsize 9 9
  obtain ⟨out, hblend⟩ := exists_eq_ok hok
  obtain ⟨hgreatest, hattained⟩ := (hends.of_ok hblend).2 ⟨1, 0⟩ (by decide)
  refine ⟨out, hblend, ?_⟩
  have hfirst : (3 / 4 : ℚ) ≤ (out.cell ⟨0, 0, 3, 1⟩ ⟨1, 0⟩).alpha :=
    hgreatest overlap[1] (by simp [overlap]) (by decide)
  obtain hzero | ⟨o, ho, -, -, halpha⟩ := hattained
  · rw [hzero] at hfirst
    exact absurd hfirst (by decide +kernel)
  · have hbelow : ∀ o ∈ overlap, (o.sample ⟨1, 0⟩).alpha ≤ 3 / 4 := by decide +kernel
    exact le_antisymm (halpha ▸ hbelow o ho) hfirst

end Patch

end Patchwork
