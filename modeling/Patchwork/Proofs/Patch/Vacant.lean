import Patchwork.Proofs.Channel.Vanishing
import Patchwork.Proofs.Composite.Steady
import Patchwork.Proofs.Patch.Sane

/-!
# Where no source lies

Both ways to make a patch start from a raster of zeros, and each source changes it only where the
source lies.  A point that no source covers keeps its zero in a draft.  In a blend it keeps coverage
zero; the light that the coarser levels carry there is scaled by zero over its alpha, and what is
then no number is replaced by zero.  Hole filling divides by the alpha instead and shows the light.

Nothing is assumed of what the sources answer, so this holds however the images are made.

## Main definitions

* `Raster.ChangesIn` — two rasters over one rectangle that differ only inside another.
* `Patch.Vacant` — no source covers the point.

## Main statements

* `Patch.ensures_draft_vacant`, `Patch.ensures_blend_vacant`
-/

namespace Patchwork

open Outcome Coordinate Logic
open Rect (half)

/-! ## Pixels scaled to nothing -/

namespace Pixel

variable {κ : Type} [Channel κ] {format : Format}

theorem same_iff {p q : Pixel format κ} :
    p.same q = true ↔ ∀ i (hi : i < format.channels), (p.channels[i] == q.channels[i]) = true := by
  simp [same, Vector.all_eq_true]

theorem isFinite_iff {p : Pixel format κ} :
    p.isFinite = true ↔ ∀ i (hi : i < format.channels), Channel.isFinite p.channels[i] = true := by
  simp [isFinite, Vector.all_eq_true]

theorem sanitized_zero_eq : (0 : Pixel format κ).sanitized = 0 := by
  unfold sanitized
  split <;> rfl

variable [Channel.Vanishing κ]

theorem same_zero : (0 : Pixel format κ).same 0 = true := by
  rw [same_iff]
  intro i hi
  simpa using Channel.Vanishing.zero_beq

/-- A pixel rescaled to coverage zero is zero, once what is no number is replaced. -/
theorem same_rescaled_zero (p : Pixel format κ) :
    (Patch.rescaled 0 p).sanitized.same 0 = true := by
  unfold sanitized
  by_cases hfinite : (Patch.rescaled 0 p).isFinite = true
  · rw [if_pos hfinite]
    unfold Patch.rescaled Channel.ratio? at hfinite ⊢
    by_cases hpos : 0 < p.alpha ∧ Channel.isFinite p.alpha = true
    · simp only [if_pos hpos] at hfinite ⊢
      by_cases hquotient : Channel.isFinite (0 / p.alpha) = true
      · simp only [if_pos hquotient] at hfinite ⊢
        rw [isFinite_iff] at hfinite
        rw [same_iff]
        intro i hi
        have hnumber := hfinite i hi
        simp only [channels_scale, Vector.getElem_map] at hnumber ⊢
        simpa using Channel.Vanishing.scaled_beq hpos.1 hpos.2 hnumber
      · simpa only [if_neg hquotient] using same_zero
    · simpa only [if_neg hpos] using same_zero
  · rw [if_neg hfinite]
    exact same_zero

end Pixel

/-! ## Changes inside a rectangle -/

section Changes

variable {κ α : Type}

/-- The raster `r'` over `area` is `r` but for the points of `place`. -/
structure Raster.ChangesIn [Zero α] (area place : Rect) (r r' : Raster α) : Prop where
  /-- It fills the rectangle. -/
  fills : r'.Fills area
  /-- Elsewhere it is the same. -/
  cell : ∀ q, q ∈ area → q ∉ place → r'.cell area q = r.cell area q

theorem Raster.ChangesIn.refl [Zero α] {area : Rect} {r : Raster α} (h : r.Fills area)
    (place : Rect) : r.ChangesIn area place r :=
  ⟨h, fun _ _ _ => rfl⟩

end Changes

variable {m : Type → Type} [Monad m] [MonadLiftT Outcome m] {L : Logic m fun _ => True}
  {κ : Type} [Channel κ] {format : Format}

/-- Any step on rectangles that gives its exact result or overflows. -/
theorem Logic.ensures_exact {α : Type} {a : α} {x : Outcome α} (h : Ends IsOverflow (· = a) x) :
    L.Ensures (· = a) (liftM x : m α) :=
  L.lift (h.weaken fun _ _ => trivial)

omit [Channel κ] in
/-- A blank raster. -/
theorem Logic.ensures_blankFor {α : Type} [Cell κ α] (area : Rect) :
    L.Ensures (· = Raster.zeros area.columns area.rows)
      (liftM (Raster.blankFor area : Outcome (Raster α)) : m (Raster α)) :=
  L.lift ((Raster.ends_blankFor area).mono (fun _ _ => trivial) fun _ h => h.1)

namespace Layer

variable {area : Rect} {levels : Nat}

/-- Adding any source to the layers of a patch keeps them where they are. -/
theorem Stacked.ends_add {layers : List (Layer format κ)} (h : Stacked area levels layers)
    (hsize : area.Sized) (pyramid : Pyramid format κ) :
    Ends IsOverflow (Stacked area levels) (addPyramid layers pyramid) := by
  apply h.ends_addPyramid
  intro k layer level _ hlayer
  have hshows : layer.Shows (half^[k] area) (layer.sum.cell (half^[k] area))
      (layer.weight.cell (half^[k] area)) :=
    ⟨hlayer.frame_eq, hlayer.sum_fills, hlayer.weight_fills, fun _ _ => rfl, fun _ _ => rfl⟩
  exact (Layer.ends_add hshows (hsize.half_iterate k) level).imp fun _ h => h.covers

/-- Putting any layers of a patch together fills its rectangle. -/
theorem Stacked.ends_fills {layers : List (Layer format κ)} (hlevels : 0 < levels)
    (h : Stacked area levels layers) :
    Ends (fun _ => True) (·.Fills area) (collapse layers) :=
  h.ends_collapse hlevels fun _ below => (Raster.ends_expand below _ _).mono
    (fun _ _ => trivial) fun _ _ => trivial

end Layer

namespace Patch

/-- No source covers the point. -/
def Vacant (sources : List (PatchSource m format κ)) (p : Point) : Prop :=
  ∀ s ∈ sources, p ∉ s.placement

variable {area : Rect} {params : PatchParams} {sources : List (PatchSource m format κ)}
  {s : PatchSource m format κ}

omit [Channel κ] in
/-- Steps that each change a raster where their source lies leave it as it was where none does. -/
theorem ensures_fold_changes [LawfulMonad m] {α : Type} [Zero α] {r : Raster α} (hr : r.Fills area)
    {step : Raster α → PatchSource m format κ → m (Raster α)}
    (hstep : ∀ s ∈ sources, ∀ r' : Raster α, r'.Fills area →
      L.Ensures (r'.ChangesIn area s.placement) (step r' s)) :
    L.Ensures (fun out : Raster α => out.Fills area ∧
        ∀ q, q ∈ area → Vacant sources q → out.cell area q = r.cell area q)
      (sources.foldlM step r) := by
  refine L.foldlM (I := fun done (out : Raster α) => out.Fills area ∧
    ∀ q, q ∈ area → Vacant done q → out.cell area q = r.cell area q)
    ⟨hr, fun _ _ _ => rfl⟩ ?_
  rintro done s out hs ⟨hfills, hcells⟩
  refine L.imp (hstep s hs out hfills) fun out' hchanges => ⟨hchanges.fills, fun q hq hvacant => ?_⟩
  rw [hchanges.cell q hq (hvacant s (by simp))]
  exact hcells q hq fun t ht => hvacant t (List.mem_append_left _ ht)

/-! ## Drafts -/

/-- A source is laid over a patch only where it lies. -/
theorem ensures_overlay_changes (hsize : area.Sized) (hs : s.Serves L)
    {patch : Raster (Pixel format κ)} (hfills : patch.Fills area) :
    L.Ensures (patch.ChangesIn area s.placement) (overlay area params patch s) := by
  unfold overlay
  refine L.bind_eq (ensures_exact (Rect.ends_intersect _ _)) ?_
  by_cases hempty : (Rect.meet s.placement area).IsEmpty
  · rw [if_pos hempty]
    exact L.pure (.refl hfills _)
  rw [if_neg hempty]
  refine L.bind (Completes.lift _) fun place _ => L.bind (hs.pixels place) fun raw _ => ?_
  have hplaced : Ends (fun _ => True) (·.frame = Rect.meet s.placement area)
      (Placed.place raw (Rect.meet s.placement area) params.columns params.rows) := by
    unfold Placed.place
    split <;> trivial
  refine L.bind (L.lift hplaced) fun image himage => L.lift ?_
  refine (image.ends_mergeInto hfills hsize Pixel.layer).mono (fun _ _ => trivial) ?_
  rintro out ⟨hout, hcells⟩
  refine ⟨hout, fun q hq hplace => ?_⟩
  rw [hcells q hq, himage, if_neg fun hmem => hplace (Rect.mem_meet.mp hmem).1]

/-- **A draft** is zero where no source lies. -/
theorem ensures_draft_vacant [LawfulMonad m] (hsize : area.Sized)
    (hsources : ∀ s ∈ sources, s.Serves L) :
    L.Ensures (fun out => out.Fills area ∧
        ∀ q, q ∈ area → Vacant sources q → out.cell area q = 0)
      (draft area params sources) := by
  have hzeros := Raster.fills_zeros (α := Pixel format κ) area
  refine L.bind_eq (ensures_blankFor area) ?_
  refine L.bind (ensures_fold_changes hzeros fun s hs patch hfills =>
    ensures_overlay_changes hsize (hsources s hs) hfills) ?_
  rintro patch ⟨hfills, hcells⟩
  refine L.pure ⟨hfills, fun q hq hvacant => ?_⟩
  rw [Raster.cell_map hfills hq, hcells q hq hvacant, Raster.cell_zeros, Pixel.sanitized_zero_eq]

/-! ## Blends -/

/-- A source raises the coverage only where it lies. -/
theorem ensures_raiseBySource_changes (hs : s.Serves L) {highest : Raster κ}
    (hfills : highest.Fills area) :
    L.Ensures (highest.ChangesIn area s.placement) (raiseBySource area highest s) := by
  unfold raiseBySource
  refine L.bind (Completes.lift _) fun meets _ => ?_
  split
  · exact L.pure (.refl hfills _)
  refine L.bind hs.alpha fun alpha _ => L.bind_eq (ensures_exact (Rect.ends_intersect _ _)) ?_
  refine L.pure ⟨Raster.fills_update hfills _ _, fun q hq hplace => ?_⟩
  rw [raiseTo, Raster.cell_update hfills _ _ hq, if_neg fun h => hplace (Rect.mem_meet.mp h).1]

/-- **A blend** fills its rectangle.  Without hole filling it is zero where no source lies. -/
theorem ensures_blend_vacant [LawfulMonad m] [Channel.Vanishing κ] (hsize : area.Sized)
    (hsources : ∀ s ∈ sources, s.Serves L) :
    L.Ensures (fun out => out.Fills area ∧ (params.fillHoles = false →
        ∀ q, q ∈ area → Vacant sources q → (out.cell area q).same 0 = true))
      (blend area params sources) := by
  have hlevels : 0 < max params.levels 1 := by omega
  refine L.bind_eq (L.lift ((Footprint.ends_levels area _).mono (fun _ _ => trivial)
    fun _ h => h.1)) ?_
  refine L.bind (Completes.lift _) fun padded _ => ?_
  refine L.bind (P := fun touching => near sources padded = .ok touching) (L.lift ?_)
    fun touching htouching => ?_
  · cases near sources padded <;> trivial
  have hselected : ∀ s ∈ residentFirst touching, s ∈ sources := by
    intro s hs
    apply mem_of_near htouching
    simp only [residentFirst, List.mem_append, List.mem_filter] at hs
    exact hs.elim (·.1) (·.1)
  refine L.bind (P := Layer.Stacked area (max params.levels 1))
    (L.lift ((ends_blanks _).mono (fun _ _ => trivial) fun _ h => .of_blanks h.2.1 h.2.2)) ?_
  intro blanks hblanks
  refine L.bind (P := Layer.Stacked area (max params.levels 1)) ?_ fun layers hlayers => ?_
  · refine L.foldlM (I := fun _ => Layer.Stacked area (max params.levels 1)) hblanks ?_
    intro asked s layers hs hlayers
    refine L.bind (hsources s (hselected s hs)).pyramid fun pyramid _ => L.lift ?_
    exact (hlayers.ends_add hsize pyramid).weaken fun _ _ => trivial
  refine L.bind (L.lift (hlayers.ends_fills hlevels)) fun mixed hmixed => ?_
  cases hfill : params.fillHoles with
  | true => exact L.pure ⟨hmixed, by simp⟩
  | false =>
    refine L.bind_eq (ensures_blankFor area) ?_
    refine L.bind (ensures_fold_changes (Raster.fills_zeros area) fun s hs highest hfills =>
      ensures_raiseBySource_changes (hsources s (hselected s hs)) hfills) ?_
    rintro highest ⟨hhighest, hcells⟩
    have hzip : (mixed.zipWith (fun p alpha => rescaled alpha p) highest).Fills area := hmixed
    refine L.pure ⟨hmixed, fun _ q hq hvacant => ?_⟩
    rw [Raster.cell_map hzip hq, Raster.cell_zipWith hmixed hhighest hq,
      hcells q hq fun s hs => hvacant s (hselected s hs), Raster.cell_zeros]
    exact Pixel.same_rescaled_zero _

end Patch

end Patchwork
