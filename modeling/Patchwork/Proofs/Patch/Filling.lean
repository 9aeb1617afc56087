import Patchwork.Proofs.Patch.Coverage

/-!
# How far hole filling reaches

To fill holes each source loses its coverage before its pyramid is built, so all its pictures are
opaque wherever its mask is positive, the finest one included.  No level but the coarsest then adds
coverage: the coverage of the mixture is the presence of the masks at the coarsest level, doubled up
to the finest.  A pixel is filled exactly when it reads a coarse point that some covered pixel of a
source spreads to, and these pixels are the ones inside the rectangle that sources are selected
against.

## Main statements

* `Patch.alpha_mixture_pos_iff` — where the mixture has coverage.
* `Patch.fills_catchment` — the filled pixels of a patch.
-/

namespace Patchwork.Patch

open Outcome

variable {format : Format} {originals : List (Original format ℚ)} {levels columns rows : Nat}
  {p : Point}

/-- Some source has a pixel with coverage inside a rectangle. -/
def Covered (originals : List (Original format ℚ)) (box : Rect) : Prop :=
  ∃ o ∈ originals, ∃ q, q ∈ box ∧ q ∈ o.placement ∧ 0 < (o.sample q).alpha

/-- **The mixture has coverage** where its sources have some in the catchment of the pixel. -/
theorem alpha_mixture_pos_iff (h : format.hasAlpha = true)
    (S : Supplied true originals levels columns rows p) :
    0 < (collapseFrom (meanAt (queueAt true originals levels columns rows p)) (levels - 1) 0
        p).alpha ↔ Covered originals (Footprint.catchment (dot p) levels) := by
  have hlevels := S.levels_pos
  obtain ⟨coarser, rfl⟩ : ∃ coarser, levels = coarser + 1 := ⟨levels - 1, by omega⟩
  have hfull := S.opaqueFrom h
  rw [if_pos rfl] at hfull
  rw [Nat.add_sub_cancel, alpha_collapseFrom h hfull (Nat.le_refl 0) (by omega),
    stretchAt_iterate_pos_iff (presence_nonneg _ _), Nat.add_sub_cancel, Covered]
  -- both sides now speak of coarse points that the pixel shares with a covered one
  simp only [presence_pos_iff, Footprint.mem_catchment_dot]
  constructor
  · rintro ⟨r, hr, hweight⟩
    obtain ⟨o, ho, q, hq, halpha, hrq⟩ :=
      (weightSum_selection_pos_iff h S (Nat.lt_succ_self coarser) hr).mp hweight
    exact ⟨o, ho, q, ⟨r, hrq, hr⟩, hq, halpha⟩
  · rintro ⟨o, ho, q, ⟨r, hrq, hr⟩, hq, halpha⟩
    exact ⟨r, hr, (weightSum_selection_pos_iff h S (Nat.lt_succ_self coarser) hr).mpr
      ⟨o, ho, q, hq, halpha, hrq⟩⟩

/-- The pixel is opaque where some source has coverage inside a rectangle, and zero elsewhere. -/
structure Filled (originals : List (Original format ℚ)) (box : Rect) (pixel : Pixel format ℚ) :
    Prop where
  /-- A filled pixel is opaque. -/
  opaque_of_covered : Covered originals box → pixel.alpha = 1
  /-- Any other is zero. -/
  eq_zero : ¬ Covered originals box → pixel = 0

/-- **The filled pixel.** -/
theorem filled_blendAt (h : format.hasAlpha = true)
    (S : Supplied true originals levels columns rows p) :
    Filled originals (Footprint.catchment (dot p) levels)
      (blendAt ⟨levels, true, columns, rows⟩
        (Original.sourcesWith true originals levels columns rows) p) := by
  rw [blendAt_selection S.levels_pos (fun s hs => Original.bandsPlacedWith hs) p]
  simp only [if_true]
  constructor
  · intro hcovered
    rw [Pixel.alpha_unpremultiply h, if_pos ((alpha_mixture_pos_iff h S).mpr hcovered)]
  · intro hnone
    exact Pixel.unpremultiply_of_not_pos h (mt (alpha_mixture_pos_iff h S).mp hnone)

/-- **Hole filling reaches exactly the catchment.**  In a format with alpha, when no source has
negative coverage, a pixel of a patch with hole filling is opaque when some source has a pixel with
coverage inside the rectangle that sources are selected against for that pixel alone, and zero
otherwise.  Nothing but a coordinate or a raster out of range keeps the patch from being made. -/
theorem fills_catchment (h : format.hasAlpha = true) (hnonneg : ∀ o ∈ originals, o.NonNegative)
    (hlevels : 0 < levels) {area : Rect} (hsize : area.Sized) (columns rows : Nat) :
    Ends IsRange
      (fun out => out.Fills area ∧ ∀ p, p ∈ area → ∀ frames box,
        Footprint.levels (dot p) levels = .ok frames → Footprint.padded frames = .ok box →
          Filled originals box (out.cell area p))
      (blend area ⟨levels, true, columns, rows⟩
        (Original.sourcesWith true originals levels columns rows)) := by
  apply (ends_blend_sourcesWith hlevels hsize).imp
  intro out hout
  refine ⟨hout.fills, ?_⟩
  intro p hp frames box hframes hbox
  obtain ⟨rfl, -⟩ := (Footprint.ends_levels (dot p) levels).of_ok hframes
  obtain rfl : box = Footprint.catchment (dot p) levels :=
    (Footprint.ends_padded (dot p) levels).of_ok hbox
  rw [hout.cell p hp]
  exact filled_blendAt h (hout.supplied hlevels hnonneg hp)

/-- One grey pixel with a quarter of its coverage. -/
def speck : List (Original .grayAlpha ℚ) :=
  [⟨Raster.tabulate 1 1 fun _ _ => ⟨#v[1 / 8, 1 / 4]⟩, ⟨1, 0, 1, 1⟩, false, by decide⟩]

/-- At two levels the pixel fills its neighbour, but not one three columns further. -/
theorem fills_catchment_speck :
    ∃ out, blend ⟨0, 0, 5, 1⟩ ⟨2, true, 9, 9⟩ (Original.sourcesWith true speck 2 9 9) = .ok out ∧
      (out.cell ⟨0, 0, 5, 1⟩ ⟨0, 0⟩).alpha = 1 ∧ out.cell ⟨0, 0, 5, 1⟩ ⟨4, 0⟩ = 0 := by
  have hok : (blend ⟨0, 0, 5, 1⟩ ⟨2, true, 9, 9⟩
      (Original.sourcesWith true speck 2 9 9)).isOk := by
    decide +kernel
  have hsize : Rect.Sized ⟨0, 0, 5, 1⟩ := by constructor <;> decide
  have hnonneg : ∀ o ∈ speck, o.NonNegative := by decide +kernel
  have hlevels : 0 < 2 := by decide
  have hends := fills_catchment (by rfl) hnonneg hlevels hsize 9 9
  obtain ⟨out, hblend⟩ := exists_eq_ok hok
  have hpixels := (hends.of_ok hblend).2
  have hnear := hpixels ⟨0, 0⟩ (by decide) [⟨0, 0, 1, 1⟩, ⟨0, 0, 1, 1⟩] ⟨-1, -1, 3, 3⟩ (by decide)
    (by decide)
  have hfar := hpixels ⟨4, 0⟩ (by decide) [⟨4, 0, 1, 1⟩, ⟨2, 0, 1, 1⟩] ⟨3, -1, 3, 3⟩ (by decide)
    (by decide)
  refine ⟨out, hblend, hnear.opaque_of_covered ?_, hfar.eq_zero ?_⟩
  · exact ⟨speck[0], by simp [speck], ⟨1, 0⟩, by decide, by decide, by decide +kernel⟩
  · rintro ⟨o, ho, q, hq, hmem, -⟩
    obtain rfl := List.mem_singleton.mp ho
    rw [Rect.mem_iff] at hq hmem
    simp only at hq hmem
    omega

end Patchwork.Patch
