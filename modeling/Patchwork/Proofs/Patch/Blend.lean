import Patchwork.Proofs.Patch.Pointwise

/-!
# Blending a rectangle

`Patch.blend` over a rectangle is `Patch.blendAt` at each of its points.  Every way in which it can
fail instead is accounted for: a coordinate overflows, memory is short, or a source that the
rectangle selects fails.

## Main definitions

* `Patch.PatchRoom` — memory can hold every raster that blending a patch makes.
* `Patch.Gathered`, `Patch.Mixed` — the layers of a patch, and what they make together.
* `Patch.Lacks`, `Patch.Made` — why a patch cannot be blended, and what it is when it can.

## Main statements

* `Patch.ends_blend` — blending a rectangle, with every possible failure.
-/

namespace Patchwork

open Outcome Coordinate Footprint
open Rect (half)

variable {κ : Type} {format : Format}

namespace Patch

/-! ## Room in memory -/

variable [Channel κ]

/-- Memory can hold every raster that blending a patch makes. -/
structure PatchRoom (format : Format) (κ : Type) [Channel κ] (area : Rect) (levels : Nat) :
    Prop where
  /-- The rectangles of the levels. -/
  list : LevelRoom levels
  /-- The sums of each level. -/
  sums : ∀ k < levels, Raster.Room (Pixel format κ) (half^[k] area).columns (half^[k] area).rows
  /-- The weights of each level. -/
  weights : ∀ k < levels, Raster.Room κ (half^[k] area).columns (half^[k] area).rows
  /-- Putting the levels together. -/
  collapse : Layer.CollapseRoom format κ area levels

theorem PatchRoom.mono {a b : Rect} {levels : Nat} (h : PatchRoom format κ b levels)
    (ha : ¬ a.IsEmpty) (hab : a ⊆ b) : PatchRoom format κ a levels := by
  have hne := fun k => Rect.not_isEmpty_half_iterate ha k
  have hsub := fun k => Rect.half_iterate_subset ha hab k
  refine ⟨h.list, ?_, ?_, ?_⟩
  · intro k hk
    exact (h.sums k hk).mono (Rect.columns_le_of_subset (hne k) (hsub k))
      (Rect.rows_le_of_subset (hne k) (hsub k))
  · intro k hk
    exact (h.weights k hk).mono (Rect.columns_le_of_subset (hne k) (hsub k))
      (Rect.rows_le_of_subset (hne k) (hsub k))
  · intro k hk
    exact (h.collapse k hk).mono (hne k) (hsub k)

/-! ## Asking the sources -/

/-- Layers without any source. -/
theorem ends_blanks (frames : List Rect) :
    Ends (fun cause => cause = .fault .capacity ∧ ∃ frame ∈ frames,
        ¬ (Raster.Room (Pixel format κ) frame.columns frame.rows ∧
          Raster.Room κ frame.columns frame.rows))
      (fun layers : List (Layer format κ) =>
        (∀ frame ∈ frames, Raster.Room (Pixel format κ) frame.columns frame.rows ∧
          Raster.Room κ frame.columns frame.rows) ∧ layers.length = frames.length ∧
        ∀ (k : Nat) (layer : Layer format κ), layers[k]? = some layer →
          ∃ frame, frames[k]? = some frame ∧ layer.Shows frame (fun _ => 0) fun _ => 0)
      (Layer.blanks frames) := by
  unfold Layer.blanks
  induction frames with
  | nil => exact ⟨by simp, rfl, by simp⟩
  | cons frame frames ih =>
    rw [List.mapM_cons]
    refine Ends.bind (P := fun layer : Layer format κ =>
      (Raster.Room (Pixel format κ) frame.columns frame.rows ∧
        Raster.Room κ frame.columns frame.rows) ∧ layer.Shows frame (fun _ => 0) fun _ => 0) ?_ ?_
    · refine ((Raster.ends_blankFor frame).weaken fun cause h =>
        ⟨h.1, frame, by simp, fun hr => h.2 hr.1⟩).bind ?_
      rintro _ ⟨rfl, hsum⟩
      refine ((Raster.ends_blankFor frame).weaken fun cause h =>
        ⟨h.1, frame, by simp, fun hr => h.2 hr.2⟩).bind ?_
      rintro _ ⟨rfl, hweight⟩
      exact ⟨⟨hsum, hweight⟩, rfl, Raster.fills_zeros frame, Raster.fills_zeros frame,
        fun q _ => Raster.cell_zeros .., fun q _ => Raster.cell_zeros ..⟩
    · rintro layer ⟨hroom, hlayer⟩
      refine (ih.weaken ?_).bind ?_
      · rintro cause ⟨hc, f, hf, hshort⟩
        exact ⟨hc, f, List.mem_cons_of_mem _ hf, hshort⟩
      · rintro layers ⟨hrooms, hlength, hlayers⟩
        refine ⟨?_, by simp [hlength], ?_⟩
        · intro f hf
          rcases List.mem_cons.mp hf with rfl | hf
          · exact hroom
          · exact hrooms f hf
        · intro k layer' hk
          cases k with
          | zero =>
            simp only [List.getElem?_cons_zero, Option.some.injEq] at hk
            exact ⟨frame, rfl, hk ▸ hlayer⟩
          | succ k => exact hlayers k layer' hk

/-- What the layers of a patch hold once some sources are asked. -/
structure Gathered (area : Rect) (levels : Nat) (asked : List (PatchSource Outcome format κ))
    (layers : List (Layer format κ)) : Prop where
  /-- One layer for each level. -/
  length : layers.length = levels
  /-- Every source so far had its pyramid. -/
  pyramids : ∀ s ∈ asked, ∃ pyramid, s.pyramid = .ok pyramid
  /-- Each layer shows the sums of its level. -/
  shows : ∀ k (layer : Layer format κ), layers[k]? = some layer →
    layer.Shows (half^[k] area) (bandSum asked k) (weightSum asked k)

theorem bandSum_concat (asked : List (PatchSource Outcome format κ))
    (s : PatchSource Outcome format κ) (k : Nat) (q : Point) :
    bandSum (asked ++ [s]) k q = s.addBand k q (bandSum asked k q) := by
  simp [bandSum]

theorem weightSum_concat (asked : List (PatchSource Outcome format κ))
    (s : PatchSource Outcome format κ) (k : Nat) (q : Point) :
    weightSum (asked ++ [s]) k q = s.addMask k q (weightSum asked k q) := by
  simp [weightSum]

theorem coverage_concat (asked : List (PatchSource Outcome format κ))
    (s : PatchSource Outcome format κ) (q : Point) :
    coverage (asked ++ [s]) q = s.raise q (coverage asked q) := by
  simp [coverage]

variable {area : Rect} {levels : Nat} {asked : List (PatchSource Outcome format κ)}

/-- Adding one source's pyramid to the layers of a patch. -/
theorem Gathered.ends_addPyramid {layers : List (Layer format κ)}
    (h : Gathered area levels asked layers) (hsize : area.Sized)
    {s : PatchSource Outcome format κ} {pyramid : Pyramid format κ}
    (hs : s.pyramid = .ok pyramid) :
    Ends IsOverflow (Gathered area levels (asked ++ [s])) (Layer.addPyramid layers pyramid) := by
  have hlevel : ∀ k, s.level? k = pyramid.levels[k]? := fun k => by
    simp only [PatchSource.level?, hs]
  have hadded : Ends IsOverflow (fun result => result.length = layers.length ∧
      ∀ k (layer : Layer format κ), result[k]? = some layer →
        layer.Shows (half^[k] area) (bandSum (asked ++ [s]) k) (weightSum (asked ++ [s]) k))
      (Layer.addLevels layers pyramid.levels) :=
    Layer.ends_addLevels
      (P := fun k layer => layer.Shows (half^[k] area) (bandSum asked k) (weightSum asked k))
      (Q := fun k layer => layer.Shows (half^[k] area) (bandSum (asked ++ [s]) k)
        (weightSum (asked ++ [s]) k))
      h.shows ?add ?skip
  case add =>
    intro k layer level hk hlayer
    apply (Layer.ends_add hlayer (hsize.half_iterate k) level).imp
    intro layer' hlayer'
    refine hlayer'.congr ?_ ?_
    · intro q _
      simp only [bandSum_concat, PatchSource.addBand, hlevel, hk]
    · intro q _
      simp only [weightSum_concat, PatchSource.addMask, hlevel, hk]
  case skip =>
    intro k layer hk hlayer
    refine hlayer.congr ?_ ?_
    · intro q _
      simp only [bandSum_concat, PatchSource.addBand, hlevel, hk]
    · intro q _
      simp only [weightSum_concat, PatchSource.addMask, hlevel, hk]
  apply hadded.imp
  rintro result ⟨hlength, hshows⟩
  refine ⟨hlength.trans h.length, ?_, hshows⟩
  intro t ht
  rcases List.mem_append.mp ht with ht | ht
  · exact h.pyramids t ht
  · exact ⟨pyramid, List.mem_singleton.mp ht ▸ hs⟩

/-- Taking one source's coverage into account. -/
theorem ends_raiseBySource {highest : Raster κ} (hfills : highest.Fills area)
    (s : PatchSource Outcome format κ) :
    Ends (fun cause => IsOverflow cause ∨ s.placement.Meets area ∧ s.alpha = .error cause)
      (fun r => (s.placement.Meets area → ∃ alpha, s.alpha = .ok alpha) ∧ r.Fills area ∧
        ∀ q, q ∈ area → r.cell area q = s.raise q (highest.cell area q))
      (raiseBySource area highest s) := by
  refine ((Rect.ends_intersects _ _).weaken fun _ => .inl).bind_eq ?_
  by_cases hmeets : s.placement.Meets area
  · simp only [hmeets, decide_true, Bool.not_true, Bool.false_eq_true, if_false]
    cases halpha : s.alpha with
    | error cause => exact .inr ⟨trivial, rfl⟩
    | ok alpha =>
      refine Ends.bind_eq (a := alpha) rfl ?_
      refine ((Rect.ends_intersect _ _).weaken fun _ => .inl).bind_eq ?_
      refine ⟨fun _ => ⟨_, rfl⟩, Raster.fills_update hfills _ _, ?_⟩
      intro q hq
      have hx : q.x - area.x + area.x = q.x := by omega
      have hy : q.y - area.y + area.y = q.y := by omega
      rw [raiseTo, Raster.cell_update hfills _ _ hq]
      simp only [Rect.mem_meet, hq, and_true, hx, hy, PatchSource.raise, halpha, Raster.cell]
  · simp only [hmeets, decide_false, Bool.not_false, if_true]
    refine ⟨fun h => absurd h (by simp), hfills, ?_⟩
    intro q hq
    exact (PatchSource.raise_of_not_mem (fun hmem => hmeets ⟨q, hmem, hq⟩) _).symm

/-! ## The whole patch -/

/-- Why a patch cannot be blended. -/
def Lacks (area : Rect) (params : PatchParams) (sources : List (PatchSource Outcome format κ))
    (cause : Failure) : Prop :=
  IsOverflow cause ∨
    cause = .fault .capacity ∧ ¬ PatchRoom format κ area (max params.levels 1) ∨
    ∃ s ∈ sources, Selected area (max params.levels 1) s ∧ s.pyramid = .error cause ∨
      params.fillHoles = false ∧ s.placement.Meets area ∧ s.alpha = .error cause

/-- What is known when a patch has been blended. -/
structure Made (area : Rect) (params : PatchParams) (sources : List (PatchSource Outcome format κ))
    (out : Raster (Pixel format κ)) : Prop where
  /-- Memory could hold all rasters. -/
  room : PatchRoom format κ area (max params.levels 1)
  /-- Every selected source had its pyramid. -/
  pyramids : ∀ s ∈ sources, Selected area (max params.levels 1) s →
    ∃ pyramid, s.pyramid = .ok pyramid
  /-- Without hole filling, every source that covers some pixel had its coverage. -/
  alphas : params.fillHoles = false → ∀ s ∈ sources, s.placement.Meets area →
    ∃ alpha, s.alpha = .ok alpha
  /-- The patch fills its rectangle. -/
  fills : out.Fills area
  /-- Its pixels. -/
  cell : ∀ q, q ∈ area → out.cell area q = blendAt params sources q

theorem ends_gather {levels : Nat} (hsize : area.Sized)
    (queue : List (PatchSource Outcome format κ)) {blanks : List (Layer format κ)}
    (hblanks : Gathered area levels [] blanks) :
    Ends (fun cause => IsOverflow cause ∨ ∃ s ∈ queue, s.pyramid = .error cause)
      (Gathered area levels queue)
      (queue.foldlM (fun layers s => do Layer.addPyramid layers (← s.pyramid)) blanks) := by
  apply Ends.foldlM hblanks
  intro asked s layers hs hlayers
  cases hpyramid : s.pyramid with
  | error cause => exact .inr ⟨s, hs, hpyramid⟩
  | ok pyramid => exact (hlayers.ends_addPyramid hsize hpyramid).weaken fun _ => .inl

theorem ends_coverage (queue : List (PatchSource Outcome format κ)) :
    Ends (fun cause => IsOverflow cause ∨
        ∃ s ∈ queue, s.placement.Meets area ∧ s.alpha = .error cause)
      (fun highest : Raster κ =>
        (∀ s ∈ queue, s.placement.Meets area → ∃ alpha, s.alpha = .ok alpha) ∧
        highest.Fills area ∧ ∀ q, q ∈ area → highest.cell area q = coverage queue q)
      (queue.foldlM (raiseBySource area) (Raster.zeros area.columns area.rows)) := by
  refine Ends.foldlM (I := fun asked (highest : Raster κ) =>
    (∀ s ∈ asked, s.placement.Meets area → ∃ alpha, s.alpha = .ok alpha) ∧
      highest.Fills area ∧ ∀ q, q ∈ area → highest.cell area q = coverage asked q)
    ⟨by simp, Raster.fills_zeros area, fun q _ => Raster.cell_zeros ..⟩ ?_
  rintro asked s highest hs ⟨halphas, hfills, hcells⟩
  refine (ends_raiseBySource hfills s).mono ?_ ?_
  · rintro cause (hc | hc)
    · exact .inl hc
    · exact .inr ⟨s, hs, hc⟩
  · rintro r ⟨halpha, hr, hrcells⟩
    refine ⟨?_, hr, ?_⟩
    · intro t ht
      rcases List.mem_append.mp ht with ht | ht
      · exact halphas t ht
      · exact List.mem_singleton.mp ht ▸ halpha
    · intro q hq
      rw [hrcells q hq, hcells q hq, coverage_concat]

/-- Layers without anything in them. -/
theorem Gathered.start {levels : Nat} {layers : List (Layer format κ)}
    (hlength : layers.length = (halves area levels).length)
    (hblanks : ∀ (k : Nat) (layer : Layer format κ), layers[k]? = some layer →
      ∃ frame, (halves area levels)[k]? = some frame ∧
        layer.Shows frame (fun _ => 0) fun _ => 0) : Gathered area levels [] layers := by
  rw [length_halves] at hlength
  refine ⟨hlength, by simp, ?_⟩
  intro k layer hk
  obtain ⟨frame, hframe, hlayer⟩ := hblanks k layer hk
  have hlt := (List.getElem?_eq_some_iff.mp hk).1
  rw [getElem?_halves (hlength ▸ hlt), Option.some.injEq] at hframe
  exact hframe ▸ hlayer

/-- Putting the layers of a patch together. -/
theorem Gathered.ends_collapse {levels : Nat} (hlevels : 0 < levels)
    {queue : List (PatchSource Outcome format κ)} {layers : List (Layer format κ)}
    (h : Gathered area levels queue layers) :
    Ends (fun cause => IsOverflow cause ∨
        cause = .fault .capacity ∧ ¬ Layer.CollapseRoom format κ area levels)
      (fun mixed => Layer.CollapseRoom format κ area levels ∧ mixed.Fills area ∧
        ∀ q, q ∈ area → mixed.cell area q = collapseFrom (meanAt queue) (levels - 1) 0 q)
      (Layer.collapse layers) := by
  obtain ⟨coarser, rfl⟩ : ∃ coarser, levels = coarser + 1 := ⟨levels - 1, by omega⟩
  have hshows : ∀ i (layer : Layer format κ), layers[i]? = some layer →
      layer.Shows (half^[i] area) (bandSum queue (0 + i)) (weightSum queue (0 + i)) := by
    intro i layer hi
    rw [Nat.zero_add]
    exact h.shows i layer hi
  exact Layer.ends_collapse h.length hshows

/-- What is known when the layers of a patch have been put together. -/
structure Mixed (area : Rect) (params : PatchParams) (sources : List (PatchSource Outcome format κ))
    (mixed : Raster (Pixel format κ)) : Prop where
  /-- Memory could hold all rasters. -/
  room : PatchRoom format κ area (max params.levels 1)
  /-- Every selected source had its pyramid. -/
  pyramids : ∀ s ∈ sources, Selected area (max params.levels 1) s →
    ∃ pyramid, s.pyramid = .ok pyramid
  /-- The mixture fills the rectangle. -/
  fills : mixed.Fills area
  /-- Its pixels are those of all sources, selected or not. -/
  cell : ∀ q, q ∈ area → mixed.cell area q =
    collapseFrom (meanAt (residentFirst sources)) (max params.levels 1 - 1) 0 q

/-- The mixture is a patch with holes filled. -/
theorem Mixed.made_filled {params : PatchParams} {sources : List (PatchSource Outcome format κ)}
    {mixed : Raster (Pixel format κ)} (h : Mixed area params sources mixed)
    (hfill : params.fillHoles = true) :
    Made area params sources ((mixed.map Pixel.unpremultiply).map Pixel.sanitized) := by
  have hmapped : (mixed.map Pixel.unpremultiply).Fills area := h.fills
  refine ⟨h.room, h.pyramids, by simp [hfill], h.fills, ?_⟩
  intro q hq
  rw [Raster.cell_map hmapped hq, Raster.cell_map h.fills hq, h.cell q hq, blendAt, hfill]
  rfl

/-- The mixture with the coverage of the sources is a patch without. -/
theorem Mixed.made_rescaled {params : PatchParams} {sources : List (PatchSource Outcome format κ)}
    {mixed : Raster (Pixel format κ)} (h : Mixed area params sources mixed)
    (hfill : params.fillHoles = false)
    (halphas : ∀ s ∈ sources, s.placement.Meets area → ∃ alpha, s.alpha = .ok alpha)
    {highest : Raster κ} (hhighest : highest.Fills area)
    (hcoverage : ∀ q, q ∈ area → highest.cell area q = coverage (residentFirst sources) q) :
    Made area params sources
      ((mixed.zipWith (fun p alpha => rescaled alpha p) highest).map Pixel.sanitized) := by
  have hzip : (mixed.zipWith (fun p alpha => rescaled alpha p) highest).Fills area := h.fills
  refine ⟨h.room, h.pyramids, fun _ => halphas, h.fills, ?_⟩
  intro q hq
  rw [Raster.cell_map hzip hq, Raster.cell_zipWith h.fills hhighest hq, h.cell q hq,
    hcoverage q hq, blendAt, hfill]
  rfl

/-- **Blending a rectangle** gives each of its pixels the value of `blendAt`, or fails for one of
the listed reasons. -/
theorem ends_blend (params : PatchParams) {sources : List (PatchSource Outcome format κ)}
    (placed : ∀ s ∈ sources, s.BandsPlaced) (hsize : area.Sized) :
    Ends (Lacks area params sources) (Made area params sources) (blend area params sources) := by
  have hlevels : 0 < max params.levels 1 := by omega
  have hover : ∀ cause, IsOverflow cause → Lacks area params sources cause := fun _ => .inl
  refine ((ends_levels area _).weaken ?_).bind ?_
  · rintro cause (hc | ⟨hc, hshort⟩)
    · exact .inl hc
    · exact .inr (.inl ⟨hc, fun hr => hshort hr.list⟩)
  rintro _ ⟨rfl, hlist⟩
  refine ((ends_padded area _).weaken hover).bind_eq ?_
  refine ((ends_near sources _).weaken hover).bind_eq ?_
  refine ((ends_blanks _).weaken ?_).bind ?_
  · rintro cause ⟨hc, frame, hframe, hshort⟩
    obtain ⟨k, hk, rfl⟩ := List.mem_map.mp hframe
    rw [List.mem_range] at hk
    exact .inr (.inl ⟨hc, fun hr => hshort ⟨hr.sums k hk, hr.weights k hk⟩⟩)
  rintro blanks ⟨hrooms, hlength, hblanks⟩
  have hrooms : ∀ k < max params.levels 1,
      Raster.Room (Pixel format κ) (half^[k] area).columns (half^[k] area).rows ∧
        Raster.Room κ (half^[k] area).columns (half^[k] area).rows := by
    intro k hk
    exact hrooms _ (List.mem_map.mpr ⟨k, List.mem_range.mpr hk, rfl⟩)
  have hstart := Gathered.start hlength hblanks
  refine ((ends_gather hsize (selection area _ sources) hstart).weaken ?_).bind ?_
  · rintro cause (hc | ⟨s, hs, hc⟩)
    · exact .inl hc
    · obtain ⟨hmem, hsel⟩ := mem_selection.mp hs
      exact .inr (.inr ⟨s, hmem, .inl ⟨hsel, hc⟩⟩)
  intro layers hlayers
  refine ((hlayers.ends_collapse hlevels).weaken ?_).bind ?_
  · rintro cause (hc | ⟨hc, hshort⟩)
    · exact .inl hc
    · exact .inr (.inl ⟨hc, fun hr => hshort hr.collapse⟩)
  rintro mixed ⟨hcollapse, hfills, hcells⟩
  have hmixed : Mixed area params sources mixed := by
    refine ⟨⟨hlist, fun k hk => (hrooms k hk).1, fun k hk => (hrooms k hk).2, hcollapse⟩, ?_,
      hfills, ?_⟩
    · intro s hs hsel
      exact hlayers.pyramids s (mem_selection.mpr ⟨hs, hsel⟩)
    -- the selected sources mix to the same pixel as all of them
    · intro q hq
      rw [hcells q hq]
      refine collapseFrom_congr ?_ hq
      intro i hi r hr
      rw [Nat.zero_add]
      exact meanAt_selection placed (by omega) hr
  cases hfill : params.fillHoles with
  | true =>
    simp only [if_true]
    exact hmixed.made_filled hfill
  | false =>
    simp only [Bool.false_eq_true, if_false]
    refine ((Raster.ends_blankFor area).weaken ?_).bind ?_
    · intro cause hc
      exact .inr (.inl ⟨hc.1, fun hr => hc.2 (hr.weights 0 hlevels)⟩)
    rintro _ ⟨rfl, -⟩
    refine ((ends_coverage (selection area _ sources)).weaken ?_).bind ?_
    · rintro cause (hc | ⟨s, hs, hmeets, hc⟩)
      · exact .inl hc
      · exact .inr (.inr ⟨s, (mem_selection.mp hs).1, .inr ⟨hfill, hmeets, hc⟩⟩)
    rintro highest ⟨halphas, hhighest, hcoverage⟩
    refine hmixed.made_rescaled hfill ?_ hhighest ?_
    · rintro s hs ⟨p, hp, hpa⟩
      have hsel : Selected area (max params.levels 1) s :=
        ⟨p, hp, subset_catchment area hlevels p hpa⟩
      exact halphas s (mem_selection.mpr ⟨hs, hsel⟩) ⟨p, hp, hpa⟩
    · intro q hq
      rw [hcoverage q hq, coverage_selection hlevels hq]

end Patch

end Patchwork
