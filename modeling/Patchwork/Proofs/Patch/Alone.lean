import Patchwork.Proofs.Patch.Exact
import Patchwork.Proofs.Ownership

/-!
# Where one source alone has influence

In exact arithmetic a pixel that a single source can influence comes out of the blend as that source
has it.  The other sources are not selected for the rectangle of that one pixel, so they add nothing
at any level; the source's bands give its picture back wherever its mask is positive, which at the
pixel itself is where the source has coverage; and where it has none the restored coverage is zero,
whatever the levels add up to there.

## Main definitions

* `Original` — the pixels of a source at their place.
* `Original.toSource` — the source as a patch sees it, with the bands and the mask made from the
  pixels.
* `Original.visible` — what a source shows at a point.

## Main statements

* `Patch.reconstruct_alone` — the pixel of the blended and of the draft patch.
-/

namespace Patchwork

open Outcome Channel Coordinate
open Rect (half)

variable {format : Format}

/-- The pixels of a source at their place. -/
structure Original (format : Format) (κ : Type) where
  /-- The pixels. -/
  raster : Raster (Pixel format κ)
  /-- Where they lie. -/
  placement : Rect
  /-- The pyramid is at hand. -/
  resident : Bool
  /-- The pixels fill their place. -/
  fills : raster.Fills placement

namespace Original

section Pipeline

variable {κ : Type} [Channel κ]

/-- The pixel at a point, zero outside the source. -/
def sample (o : Original format κ) (p : Point) : Pixel format κ := o.raster.cell o.placement p

/-- What the source shows at a point: its pixel where that has coverage. -/
def visible (o : Original format κ) (p : Point) : Pixel format κ :=
  if p ∈ o.placement ∧ 0 < (o.sample p).alpha then o.sample p else 0

/-- The places of some sources. -/
def placements (originals : List (Original format κ)) : List Rect := originals.map (·.placement)

/-- The distance plane of a source. -/
def plane (originals : List (Original format κ)) (index : Nat) : Outcome (Raster κ) :=
  match originals[index]? with
  | some o => grassfire o.raster.alphaPlane
  | none => undefinedAt .outOfBounds

/-- The ownership mask of a source. -/
def mask (originals : List (Original format κ)) (index : Nat) : Outcome (Raster κ) :=
  Ownership.mask index (placements originals) (plane originals)

/-- The source as a patch sees it.  Its pyramid is built from its pixels and its ownership mask. -/
def toSource (originals : List (Original format κ)) (levels columns rows index : Nat)
    (o : Original format κ) : PatchSource Outcome format κ where
  placement := o.placement
  resident := o.resident
  pyramid := do
    Pyramid.build o.raster o.placement columns rows (← mask originals index) levels false
  alpha := .ok o.raster.alphaPlane
  pixels := o.raster.region

/-- All sources as a patch sees them. -/
def sources (originals : List (Original format κ)) (levels columns rows : Nat) :
    List (PatchSource Outcome format κ) :=
  originals.mapIdx (toSource originals levels columns rows)

variable {originals : List (Original format κ)} {levels columns rows index : Nat}
  {o : Original format κ}

theorem getElem?_sources (originals : List (Original format κ)) (levels columns rows j : Nat) :
    (sources originals levels columns rows)[j]? =
      originals[j]?.map (toSource originals levels columns rows j) := by
  rw [sources, List.getElem?_mapIdx]

theorem mem_sources {s : PatchSource Outcome format κ}
    (hs : s ∈ sources originals levels columns rows) :
    ∃ j o, originals[j]? = some o ∧ s = toSource originals levels columns rows j o := by
  obtain ⟨j, hj⟩ := List.getElem?_of_mem hs
  rw [getElem?_sources, Option.map_eq_some_iff] at hj
  obtain ⟨o, ho, rfl⟩ := hj
  exact ⟨j, o, ho, rfl⟩

/-- The exact distance planes. -/
def distances (originals : List (Original format κ)) (index : Nat) : Raster κ :=
  match originals[index]? with
  | some o => Grassfire.distances o.raster.alphaPlane
  | none => Raster.zeros 0 0

theorem ends_plane (h : originals[index]? = some o) :
    Ends IsRange (· = distances originals index) (plane originals index) := by
  simp only [plane, distances, h]
  exact Grassfire.ends_grassfire _

omit [Channel κ] in
theorem getElem?_placements :
    (placements originals)[index]? = originals[index]?.map (·.placement) := by
  rw [placements, List.getElem?_map]

variable [Counting κ]

theorem fills_distances (h : originals[index]? = some o) :
    (distances originals index).Fills o.placement := by
  have hlit := Grassfire.lit_distances o.raster.alphaPlane
  simp only [distances, h]
  exact ⟨o.fills.1.trans hlit.width_eq.symm, o.fills.2.trans hlit.height_eq.symm⟩

/-- The mask of a source can be made. -/
theorem ends_mask (h : originals[index]? = some o) :
    Ends IsRange
      (Ownership.IsMask (placements originals) (distances originals) index o.placement)
      (mask originals index) := by
  have hits : ∀ i its, (placements originals)[i]? = some its →
      ∃ o' : Original format κ, originals[i]? = some o' ∧ o'.placement = its := fun i its hi => by
    rwa [getElem?_placements, Option.map_eq_some_iff] at hi
  refine Ownership.ensures_mask (Logic.plain IsRange) (fun _ => IsOverflow.isRange) ?_ ?_ ?_
  · intro i its hi
    obtain ⟨o', ho', -⟩ := hits i its hi
    exact ends_plane ho'
  · intro i its hi
    obtain ⟨o', ho', rfl⟩ := hits i its hi
    exact .inl (fills_distances ho')
  · rw [getElem?_placements, h]
    rfl

/-- The pyramid of a source can be built. -/
theorem ends_pyramid (hlevels : 0 < levels) (h : originals[index]? = some o) :
    Ends IsRange
      (fun pyramid => ∃ (image : Placed (Pixel format κ)) (weight : Placed κ),
        image.raster = o.raster ∧
        Ownership.IsMask (placements originals) (distances originals) index o.placement
          weight.raster ∧
        pyramid.Holds o.placement image weight levels)
      (toSource originals levels columns rows index o).pyramid := by
  apply (ends_mask h).bind
  intro m hm
  refine (Pyramid.ends_build o.raster o.placement columns rows m levels false).mono ?_ ?_
  · rintro cause (hc | hmisfit)
    · exact hc
    · exact absurd ⟨hlevels, o.fills, hm.fills⟩ hmisfit
  · rintro pyramid ⟨-, image, weight, himage, hweight, hholds⟩
    exact ⟨image, weight, himage, hweight.symm ▸ hm, hholds⟩

omit [Counting κ] in
theorem bandsPlaced {s : PatchSource Outcome format κ}
    (hs : s ∈ sources originals levels columns rows) : s.BandsPlaced := by
  obtain ⟨j, o, -, rfl⟩ := mem_sources hs
  intro pyramid hpyramid k level hk
  obtain ⟨m, -, hbuild⟩ := bind_eq_ok_iff.mp hpyramid
  exact Pyramid.reducedBy_of_build hbuild hk

end Pipeline

/-! ## The pixel at a point -/

variable {originals : List (Original format ℚ)} {levels columns rows index : Nat}
  {o : Original format ℚ} {p : Point}

theorem cell_alphaPlane (hp : p ∈ o.placement) :
    o.raster.alphaPlane.cell o.placement p = (o.sample p).alpha :=
  Raster.cell_map o.fills hp

/-- The depth of a source is positive where it has coverage. -/
theorem depth_pos_iff (h : originals[index]? = some o) (hp : p ∈ o.placement) :
    0 < Ownership.depth (placements originals) (distances originals) index p ↔
      0 < (o.sample p).alpha := by
  have hplacement : (placements originals)[index]? = some o.placement := by
    rw [getElem?_placements, h]
    rfl
  have hhas : o.raster.alphaPlane.Has (p.x - o.placement.x) (p.y - o.placement.y) :=
    Raster.Fills.has_iff_mem (r := o.raster.alphaPlane) o.fills |>.mpr hp
  rw [Ownership.depth_eq hplacement]
  simp only [distances, h]
  rw [Raster.cell, Grassfire.distances_pos_iff hhas, ← cell_alphaPlane hp]
  exact not_le

/-- The mask is positive where the source has coverage and no other source lies. -/
theorem isMask_pos {m : Raster ℚ}
    (hm : Ownership.IsMask (placements originals) (distances originals) index o.placement m)
    (h : originals[index]? = some o) (hp : p ∈ o.placement) (halpha : 0 < (o.sample p).alpha)
    (halone : ∀ j o', originals[j]? = some o' → p ∈ o'.placement → j = index) :
    m.cell o.placement p = 1 := by
  refine hm.one p hp ⟨(depth_pos_iff h hp).mpr halpha, ?_⟩
  intro other its hits hmem hne
  rw [getElem?_placements, Option.map_eq_some_iff] at hits
  obtain ⟨o', ho', rfl⟩ := hits
  exact absurd (halone other o' ho' hmem) hne

theorem isMask_nonneg {m : Raster ℚ}
    (hm : Ownership.IsMask (placements originals) (distances originals) index o.placement m)
    (q : Point) : 0 ≤ m.cell o.placement q := by
  by_cases hq : q ∈ o.placement
  · by_cases howns : Ownership.Owns (placements originals) (distances originals) index q
    · rw [hm.one q hq howns]
      exact zero_le_one (α := ℚ)
    · rw [hm.zero q hq howns]
  · rw [Raster.cell_eq_zero hm.fills hq]

/-- Raising nothing to the coverage of a source gives the coverage of what the source shows. -/
theorem raise_zero (levels columns rows index : Nat) (o : Original format ℚ) (p : Point) :
    (toSource originals levels columns rows index o).raise p 0 =
      if p ∈ o.placement ∧ 0 < (o.sample p).alpha then (o.sample p).alpha else 0 := by
  have hraise : (toSource originals levels columns rows index o).raise p 0 =
      if p ∈ o.placement then larger 0 (o.raster.alphaPlane.cell o.placement p) else 0 := rfl
  rw [hraise]
  by_cases hp : p ∈ o.placement
  · rw [if_pos hp, cell_alphaPlane hp, larger_eq_max]
    by_cases halpha : 0 < (o.sample p).alpha
    · rw [if_pos ⟨hp, halpha⟩, max_eq_right halpha.le]
    · rw [if_neg fun h => halpha h.2, max_eq_left (not_lt.mp halpha)]
  · rw [if_neg hp, if_neg fun h => hp h.1]

end Original

namespace Patch

theorem rescaled_self {p : Pixel format ℚ} (h : 0 < p.alpha) : rescaled p.alpha p = p := by
  rw [rescaled, ratio?_rat, if_pos h, div_self h.ne']
  exact Pixel.scale_one p

theorem rescaled_zero (p : Pixel format ℚ) : rescaled 0 p = 0 := by
  rw [rescaled, ratio?_rat, zero_div]
  split
  · next heq =>
    split at heq
    · rw [← Option.some.inj heq]
      exact Pixel.scale_zero p
    · cases heq
  · rfl

/-- The rectangle of one pixel. -/
def dot (p : Point) : Rect := ⟨p.x, p.y, 1, 1⟩

theorem mem_dot (p : Point) : p ∈ dot p := by
  rw [Rect.mem_iff]
  simp only [dot]
  omega

section Alone

variable {originals : List (Original format ℚ)} {levels columns rows index : Nat}
  {o : Original format ℚ} {p : Point}

/-- No source but one reaches the pixel at any level. -/
def Alone (originals : List (Original format ℚ)) (levels index : Nat) (p : Point) : Prop :=
  ∀ j o', originals[j]? = some o' →
    o'.placement.Meets (Footprint.catchment (dot p) levels) → j = index

/-- Only one position of a list can pass a filter. -/
theorem filter_eq_of_unique {α : Type} {l : List α} {keep : α → Bool} {i : Nat} {a : α}
    (hi : l[i]? = some a) (h : ∀ j b, l[j]? = some b → keep b → j = i) :
    l.filter keep = if keep a then [a] else [] := by
  induction l generalizing i with
  | nil => simp at hi
  | cons b l ih =>
    cases i with
    | zero =>
      obtain rfl : b = a := by simpa using hi
      have hrest : l.filter keep = [] := by
        rw [List.filter_eq_nil_iff]
        intro c hc hkeep
        obtain ⟨j, hj⟩ := List.getElem?_of_mem hc
        exact absurd (h (j + 1) c hj hkeep) (Nat.succ_ne_zero j)
      rw [List.filter_cons, hrest]
    | succ i =>
      have hb : ¬ keep b := fun hkeep => absurd (h 0 b rfl hkeep) (Nat.zero_ne_add_one i)
      rw [List.filter_cons, if_neg hb]
      exact ih hi fun j c hj hkeep => Nat.succ.inj (h (j + 1) c hj hkeep)

theorem selection_alone (h : originals[index]? = some o)
    (halone : Alone originals levels index p) :
    selection (dot p) levels (Original.sources originals levels columns rows) =
      if o.placement.Meets (Footprint.catchment (dot p) levels) then
        [Original.toSource originals levels columns rows index o]
      else [] := by
  have hindex : (Original.sources originals levels columns rows)[index]? =
      some (Original.toSource originals levels columns rows index o) := by
    rw [Original.getElem?_sources, h]
    rfl
  rw [selection, filter_eq_of_unique hindex]
  · simp only [decide_eq_true_eq]
    have hselected : Selected (dot p) levels
        (Original.toSource originals levels columns rows index o) ↔
          o.placement.Meets (Footprint.catchment (dot p) levels) := Iff.rfl
    simp only [hselected]
    split
    · cases hresident : o.resident <;> simp [residentFirst, Original.toSource, hresident]
    · rfl
  · intro j s hj hkeep
    rw [Original.getElem?_sources, Option.map_eq_some_iff] at hj
    obtain ⟨o', ho', rfl⟩ := hj
    exact halone j o' ho' (of_decide_eq_true hkeep)

/-- The pixel without any source of influence. -/
theorem rescaled_coverage_nil (mixed : Pixel format ℚ) (p : Point) :
    rescaled (coverage ([] : List (PatchSource Outcome format ℚ)) p) mixed = 0 :=
  rescaled_zero mixed

/-- The pixel with one source of influence. -/
theorem rescaled_single {pyramid : Pyramid format ℚ} {image : Placed (Pixel format ℚ)}
    {weight : Placed ℚ} (h : originals[index]? = some o)
    (hsource : (Original.toSource originals levels columns rows index o).pyramid = .ok pyramid)
    (himage : image.raster = o.raster)
    (hmask : Ownership.IsMask (Original.placements originals) (Original.distances originals)
      index o.placement weight.raster)
    (hholds : pyramid.Holds o.placement image weight levels) (hlevels : 0 < levels)
    (hcover : ∀ j o', originals[j]? = some o' → p ∈ o'.placement → j = index) :
    rescaled (coverage [Original.toSource originals levels columns rows index o] p)
      (collapseFrom (meanAt [Original.toSource originals levels columns rows index o])
        (levels - 1) 0 p) = o.visible p := by
  have hcoverage : coverage [Original.toSource originals levels columns rows index o] p =
      if p ∈ o.placement ∧ 0 < (o.sample p).alpha then (o.sample p).alpha else 0 :=
    Original.raise_zero levels columns rows index o p
  have hsample : weight.sample = weight.raster.cell o.placement := by
    funext q
    rw [Placed.sample, hholds.weight_frame]
  rw [hcoverage, Original.visible]
  by_cases hshown : p ∈ o.placement ∧ 0 < (o.sample p).alpha
  · have hpos : 0 < Pyramid.weightAt weight 0 p := by
      have hone := Original.isMask_pos hmask h hshown.1 hshown.2 hcover
      rw [← hsample] at hone
      exact lt_of_lt_of_eq (zero_lt_one (α := ℚ)) hone.symm
    have hpicture : collapseFrom (meanAt [Original.toSource originals levels columns rows index o])
        (levels - 1) 0 p = o.sample p := by
      rw [Pyramid.collapseFrom_eq hsource hholds ?_ (by omega) hpos, Pyramid.pictures,
        Placed.sample, himage, hholds.image_frame]
      · rfl
      · intro q
        rw [hsample]
        exact Original.isMask_nonneg hmask q
    rw [if_pos hshown, if_pos hshown, hpicture]
    exact rescaled_self hshown.2
  · rw [if_neg hshown, if_neg hshown]
    exact rescaled_zero _

theorem Alone.index_eq_of_mem (halone : Alone originals levels index p) (hlevels : 0 < levels)
    {j : Nat} {o' : Original format ℚ} (ho' : originals[j]? = some o') (hp : p ∈ o'.placement) :
    j = index :=
  halone j o' ho' ⟨p, hp, Footprint.subset_catchment (dot p) hlevels p (mem_dot p)⟩

/-- **The blended pixel** where at most one source has influence is what that source shows. -/
theorem blendAt_alone (hlevels : 0 < levels) (h : originals[index]? = some o)
    (halone : Alone originals levels index p)
    (hpyramid : o.placement.Meets (Footprint.catchment (dot p) levels) → ∃ pyramid,
      (Original.toSource originals levels columns rows index o).pyramid = .ok pyramid) :
    blendAt ⟨levels, false, columns, rows⟩ (Original.sources originals levels columns rows) p =
      o.visible p := by
  have hplaced : ∀ s ∈ Original.sources originals levels columns rows, s.BandsPlaced :=
    fun s hs => Original.bandsPlaced hs
  have hmax : max levels 1 = levels := by omega
  have hmixed : collapseFrom
      (meanAt (residentFirst (Original.sources originals levels columns rows))) (levels - 1) 0 p =
      collapseFrom (meanAt (selection (dot p) levels
        (Original.sources originals levels columns rows))) (levels - 1) 0 p := by
    refine collapseFrom_congr ?_ (mem_dot p)
    intro i hi q hq
    rw [Nat.zero_add]
    exact (meanAt_selection hplaced (by omega) hq).symm
  have hcoverage : coverage (residentFirst (Original.sources originals levels columns rows)) p =
      coverage (selection (dot p) levels (Original.sources originals levels columns rows)) p :=
    (coverage_selection hlevels (mem_dot p)).symm
  simp only [blendAt, Bool.false_eq_true, if_false, hmax]
  rw [Pixel.sanitized_eq, hmixed, hcoverage, selection_alone h halone]
  by_cases hmeets : o.placement.Meets (Footprint.catchment (dot p) levels)
  · obtain ⟨pyramid, hsource⟩ := hpyramid hmeets
    obtain ⟨image, weight, himage, hmask, hholds⟩ :=
      (Original.ends_pyramid hlevels h).of_ok hsource
    rw [if_pos hmeets]
    exact rescaled_single h hsource himage hmask hholds hlevels
      fun j o' ho' hp => halone.index_eq_of_mem hlevels ho' hp
  · have hp : p ∉ o.placement := fun hp =>
      hmeets ⟨p, hp, Footprint.subset_catchment (dot p) hlevels p (mem_dot p)⟩
    rw [if_neg hmeets, rescaled_coverage_nil, Original.visible, if_neg fun hshown => hp hshown.1]

/-- A blended patch can be made. -/
theorem ends_blend_sources (hlevels : 0 < levels) {area : Rect} (hsize : area.Sized) :
    Ends IsRange (Made area ⟨levels, false, columns, rows⟩
        (Original.sources originals levels columns rows))
      (blend area ⟨levels, false, columns, rows⟩
        (Original.sources originals levels columns rows)) := by
  refine (ends_blend ⟨levels, false, columns, rows⟩ (fun s hs => Original.bandsPlaced hs)
    hsize).weaken ?_
  rintro cause (hc | ⟨hc, -⟩ | ⟨s, hs, ⟨-, hc⟩ | ⟨-, -, hc⟩⟩)
  · exact hc.isRange
  · exact .inr hc
  · obtain ⟨j, o', ho', rfl⟩ := Original.mem_sources hs
    exact (Original.ends_pyramid hlevels ho').of_error hc
  · obtain ⟨j, o', ho', rfl⟩ := Original.mem_sources hs
    cases hc

theorem dot_subset {area : Rect} (hp : p ∈ area) : dot p ⊆ area := by
  intro q hq
  have hqp : q = p := by
    rw [Rect.mem_iff] at hq
    obtain ⟨x, y⟩ := q
    obtain ⟨px, py⟩ := p
    simp only [dot, Point.mk.injEq] at hq ⊢
    omega
  exact hqp ▸ hp

/-- The blended patch at such a pixel. -/
theorem Made.cell_alone (hlevels : 0 < levels) (h : originals[index]? = some o)
    (halone : Alone originals levels index p) {area : Rect} {out : Raster (Pixel format ℚ)}
    (hout : Made area ⟨levels, false, columns, rows⟩
      (Original.sources originals levels columns rows) out) (hp : p ∈ area) :
    out.cell area p = o.visible p := by
  rw [hout.cell p hp]
  refine blendAt_alone hlevels h halone fun ⟨q, hq, hcatch⟩ => ?_
  have hmax : max levels 1 = levels := by omega
  have hne : ¬ (dot p).IsEmpty := Rect.not_isEmpty_of_mem (mem_dot p)
  have hmem : Original.toSource originals levels columns rows index o ∈
      Original.sources originals levels columns rows := by
    refine List.mem_of_getElem? (i := index) ?_
    rw [Original.getElem?_sources, h]
    rfl
  refine hout.pyramids _ hmem ⟨q, hq, ?_⟩
  simp only [hmax]
  exact Footprint.catchment_subset_catchment hne (dot_subset hp) levels q hcatch

/-! ### The draft -/

/-- Laying one source over a patch changes the pixels that it covers. -/
theorem ends_overlay {area : Rect} (hsize : area.Sized) (o : Original format ℚ) (index : Nat)
    {patch : Raster (Pixel format ℚ)} (hfills : patch.Fills area) :
    Ends IsRange
      (fun r => r.Fills area ∧ ∀ q, q ∈ area → r.cell area q =
        if q ∈ o.placement then Pixel.layer (patch.cell area q) (o.sample q)
        else patch.cell area q)
      (overlay area ⟨levels, false, columns, rows⟩ patch
        (Original.toSource originals levels columns rows index o)) := by
  unfold overlay
  refine ((Rect.ends_intersect o.placement area).weaken fun _ => IsOverflow.isRange).bind_eq ?_
  by_cases hempty : (o.placement.meet area).IsEmpty
  · rw [if_pos hempty]
    refine ⟨hfills, ?_⟩
    intro q hq
    rw [if_neg fun hmem => Rect.isEmpty_iff.mp hempty q (Rect.mem_meet.mpr ⟨hmem, hq⟩)]
  rw [if_neg hempty]
  let place : Rect := (o.placement.meet area).seenFrom o.placement
  refine ((Rect.ends_relativeTo (o.placement.meet area) o.placement).weaken
    fun _ => IsOverflow.isRange).bind_eq ?_
  refine (Raster.ends_region o.raster place).bind_eq ?_
  have hraw : (o.raster.cut place).Fills (o.placement.meet area) := Raster.fills_cut o.raster place
  simp only [Placed.place, dif_pos hraw]
  refine Ends.bind_eq (a := Placed.mk _ (o.placement.meet area) columns rows hraw) rfl ?_
  refine ((Placed.ends_mergeInto _ hfills hsize Pixel.layer).weaken
    fun _ => IsOverflow.isRange).imp ?_
  rintro r ⟨hr, hcells⟩
  refine ⟨hr, ?_⟩
  intro q hq
  rw [hcells q hq]
  simp only [Rect.mem_meet, hq, and_true]
  by_cases hmem : q ∈ o.placement
  · rw [if_pos hmem, if_pos hmem, Raster.cell_cut (Rect.mem_meet.mpr ⟨hmem, hq⟩)]
    rfl
  · rw [if_neg hmem, if_neg hmem]

/-- A draft in progress: the pixel is what the source at `index` shows, once that one is laid over
the patch. -/
structure Drafted (area : Rect) (o : Original format ℚ) (index : Nat) (p : Point)
    (done : List (PatchSource Outcome format ℚ)) (patch : Raster (Pixel format ℚ)) : Prop where
  /-- The patch fills its rectangle. -/
  fills : patch.Fills area
  /-- The pixel. -/
  cell : patch.cell area p = if index < done.length then o.visible p else 0

/-- The draft around such a pixel, when the source's pixels without coverage are zero. -/
theorem ends_draft_alone (hlevels : 0 < levels) (h : originals[index]? = some o)
    (halone : Alone originals levels index p) (hnonneg : ∀ q, 0 ≤ (o.sample q).alpha)
    (hclear : ∀ q, (o.sample q).alpha = 0 → o.sample q = 0) {area : Rect} (hsize : area.Sized)
    (hp : p ∈ area) :
    Ends IsRange (fun out => out.cell area p = o.visible p)
      (draft area ⟨levels, false, columns, rows⟩
        (Original.sources originals levels columns rows)) := by
  have hlength : index < (Original.sources originals levels columns rows).length := by
    rw [Original.sources, List.length_mapIdx]
    exact (List.getElem?_eq_some_iff.mp h).1
  unfold draft
  apply ((Raster.ends_blankFor area).weaken fun _ hc => .inr hc.1).bind
  rintro _ ⟨rfl, -⟩
  refine Ends.bind (P := Drafted area o index p (Original.sources originals levels columns rows))
    ?_ ?_
  · refine Ends.foldlM_split (I := Drafted area o index p)
      ⟨Raster.fills_zeros area, Raster.cell_zeros ..⟩ ?_
    rintro done s rest patch hl ⟨hfills, hcell⟩
    have hat : (Original.sources originals levels columns rows)[done.length]? = some s := by
      rw [← hl, List.getElem?_append_right (Nat.le_refl _), Nat.sub_self]
      rfl
    rw [Original.getElem?_sources, Option.map_eq_some_iff] at hat
    obtain ⟨o', ho', rfl⟩ := hat
    apply (ends_overlay hsize o' done.length hfills).imp
    rintro r ⟨hr, hrcells⟩
    refine ⟨hr, ?_⟩
    rw [hrcells p hp, hcell, List.length_append, List.length_singleton]
    by_cases hindex : done.length = index
    · obtain rfl : o' = o := by
        rw [hindex, h, Option.some.injEq] at ho'
        exact ho'.symm
      have hbefore : ¬ index < done.length := by omega
      have hafter : index < done.length + 1 := by omega
      rw [if_neg hbefore, if_pos hafter, Original.visible]
      by_cases hmem : p ∈ o'.placement
      · rw [if_pos hmem, Pixel.layer_zero]
        by_cases hshown : p ∈ o'.placement ∧ 0 < (o'.sample p).alpha
        · rw [if_pos hshown]
        · have hzero : (o'.sample p).alpha = 0 :=
            le_antisymm (not_lt.mp fun hpos => hshown ⟨hmem, hpos⟩) (hnonneg p)
          rw [if_neg hshown, hclear p hzero]
      · rw [if_neg hmem, if_neg fun hshown => hmem hshown.1]
    · have hmem : p ∉ o'.placement := fun hmem =>
        hindex (halone.index_eq_of_mem hlevels ho' hmem)
      have hlater : index < done.length + 1 ↔ index < done.length := by omega
      rw [if_neg hmem]
      simp only [hlater]
  · rintro patch ⟨hfills, hcell⟩
    have hmap : (patch.map Pixel.sanitized).cell area p = o.visible p := by
      rw [Raster.cell_map hfills hp, Pixel.sanitized_eq, hcell, if_pos hlength]
    exact hmap

/-! ### The two patches -/

/-- **Where one source alone has influence, it is reproduced.**  When of all sources only the one at
`index` meets the rectangle that a single pixel depends on, the blended patch shows at that pixel
what the source shows, and so does the draft, provided that pixels without coverage are zero.  A
source that is the only one is so reproduced everywhere, at any place and with any coverage.
Nothing but a coordinate or a raster out of range keeps a patch from being made. -/
theorem reconstruct_alone (hlevels : 0 < levels) {area : Rect} (hsize : area.Sized)
    (columns rows : Nat) :
    (∀ {originals : List (Original format ℚ)} {index : Nat} {o : Original format ℚ} {p : Point}
        {frames : List Rect} {box : Rect},
      Footprint.levels (dot p) levels = .ok frames → Footprint.padded frames = .ok box →
      originals[index]? = some o →
      (∀ j o', originals[j]? = some o' → o'.placement.Meets box → j = index) → p ∈ area →
      Ends IsRange (fun out => out.cell area p = o.visible p)
          (blend area ⟨levels, false, columns, rows⟩
            (Original.sources originals levels columns rows)) ∧
        ((∀ q, 0 ≤ (o.sample q).alpha) → (∀ q, (o.sample q).alpha = 0 → o.sample q = 0) →
          Ends IsRange (fun out => out.cell area p = o.visible p)
            (draft area ⟨levels, false, columns, rows⟩
              (Original.sources originals levels columns rows)))) ∧
    ∀ o : Original format ℚ,
      Ends IsRange (fun out => ∀ p, p ∈ area → out.cell area p = o.visible p)
        (blend area ⟨levels, false, columns, rows⟩
          (Original.sources [o] levels columns rows)) := by
  constructor
  · intro originals index o p frames box hframes hbox h halone hp
    have hhalves := ((Footprint.ends_levels (dot p) levels).of_ok hframes).1
    have hcatchment : box = Footprint.catchment (dot p) levels := by
      rw [hhalves] at hbox
      exact (Footprint.ends_padded (dot p) levels).of_ok hbox
    subst hcatchment
    refine ⟨(ends_blend_sources hlevels hsize).imp ?_, ?_⟩
    · intro out hout
      exact hout.cell_alone hlevels h halone hp
    · intro hnonneg hclear
      exact ends_draft_alone hlevels h halone hnonneg hclear hsize hp
  · intro o
    refine (ends_blend_sources hlevels hsize).imp fun out hout p hp => ?_
    have hfirst : [o][0]? = some o := rfl
    refine hout.cell_alone hlevels hfirst (fun j o' ho' _ => ?_) hp
    have hj := (List.getElem?_eq_some_iff.mp ho').1
    simpa using hj

/-- One grey pixel with half its coverage, and another one far away. -/
def pair : List (Original .grayAlpha ℚ) :=
  [⟨Raster.tabulate 1 1 fun _ _ => ⟨#v[1 / 4, 1 / 2]⟩, ⟨1, 0, 1, 1⟩, false, by decide⟩,
    ⟨Raster.tabulate 1 1 fun _ _ => ⟨#v[1, 1]⟩, ⟨90, 0, 1, 1⟩, true, by decide⟩]

/-- The first of the two is reproduced. -/
theorem reconstruct_alone_pair :
    ∃ out, blend ⟨0, 0, 2, 2⟩ ⟨2, false, 99, 9⟩ (Original.sources pair 2 99 9) = .ok out ∧
      (out.cell ⟨0, 0, 2, 2⟩ ⟨1, 0⟩).channels.toList = [1 / 4, 1 / 2] := by
  have halone : ∀ j o', pair[j]? = some o' → o'.placement.Meets ⟨-1, -1, 5, 3⟩ → j = 0 := by
    intro j o' hj hmeets
    match j with
    | 0 => rfl
    | 1 =>
      simp only [pair, List.getElem?_cons_succ, List.getElem?_cons_zero, Option.some.injEq] at hj
      subst hj
      revert hmeets
      decide
    | j + 2 => simp [pair] at hj
  have hok : (blend ⟨0, 0, 2, 2⟩ ⟨2, false, 99, 9⟩ (Original.sources pair 2 99 9)).isOk := by
    decide +kernel
  have hframes : Footprint.levels (dot ⟨1, 0⟩) 2 = .ok [⟨1, 0, 1, 1⟩, ⟨0, 0, 2, 1⟩] := by decide
  have hbox : Footprint.padded [⟨1, 0, 1, 1⟩, ⟨0, 0, 2, 1⟩] = .ok ⟨-1, -1, 5, 3⟩ := by decide
  have hsize : Rect.Sized ⟨0, 0, 2, 2⟩ := by constructor <;> decide
  have hends := ((reconstruct_alone (by decide) hsize 99 9).1 hframes hbox rfl halone (by decide)).1
  cases hblend : blend ⟨0, 0, 2, 2⟩ ⟨2, false, 99, 9⟩ (Original.sources pair 2 99 9) with
  | error cause =>
    rw [hblend] at hok
    cases hok
  | ok out =>
    refine ⟨out, rfl, ?_⟩
    rw [hends.of_ok hblend]
    decide +kernel

end Alone

end Patch

end Patchwork
