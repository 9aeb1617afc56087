import Patchwork.Patch.Basic
import Patchwork.Proofs.Patch.Layers

/-!
# The blended pixel at a point

Blending a rectangle gives each of its pixels the value of one function of the plane.  The function
knows the sources and the parameters but not the rectangle: the sources that a rectangle does not
select add nothing at its points, at any level.

Sources are fixed values here: what each answers when asked does not depend on when it is asked.

## Main definitions

* `PatchSource.BandsPlaced` — each band lies where the source does at that resolution.
* `Patch.blendAt` — the blended pixel at a point.
* `Patch.selection` — the sources of a rectangle, in the order they are asked.

## Main statements

* `Patch.meanAt_selection`, `Patch.coverage_selection` — selecting changes nothing in a rectangle.
-/

namespace Patchwork

open Outcome Coordinate Footprint
open Rect (half)

variable {κ : Type} {format : Format}

/-! ## What the sources hold -/

namespace PatchSource

/-- A band of the source's pyramid, when there is one. -/
def level? (s : PatchSource Outcome format κ) (k : Nat) : Option (Pyramid.Level format κ) :=
  match s.pyramid with
  | .ok pyramid => pyramid.levels[k]?
  | .error _ => none

/-- Each band and its mask lie where the source does at that resolution. -/
def BandsPlaced (s : PatchSource Outcome format κ) : Prop :=
  ∀ pyramid, s.pyramid = .ok pyramid → ∀ k level, pyramid.levels[k]? = some level →
    s.placement.reducedBy k = .ok level.image.frame ∧
      s.placement.reducedBy k = .ok level.mask.frame

theorem BandsPlaced.frames {s : PatchSource Outcome format κ} (h : s.BandsPlaced) {k : Nat}
    {level : Pyramid.Level format κ} (hlevel : s.level? k = some level) :
    level.image.frame = half^[k] s.placement ∧ level.mask.frame = half^[k] s.placement := by
  unfold level? at hlevel
  split at hlevel
  · next pyramid hpyramid =>
    obtain ⟨himage, hmask⟩ := h pyramid hpyramid k level hlevel
    exact ⟨(Rect.ends_reducedBy _ _).of_ok himage, (Rect.ends_reducedBy _ _).of_ok hmask⟩
  · cases hlevel

variable [Channel κ]

/-- A pixel of level `k` with the source's band added. -/
def addBand (s : PatchSource Outcome format κ) (k : Nat) (q : Point) (value : Pixel format κ) :
    Pixel format κ :=
  match s.level? k with
  | some level => level.image.plus q value
  | none => value

/-- A weight of level `k` with the source's mask added. -/
def addMask (s : PatchSource Outcome format κ) (k : Nat) (q : Point) (value : κ) : κ :=
  match s.level? k with
  | some level => level.mask.plus q value
  | none => value

/-- The larger of a coverage and the source's own. -/
def raise (s : PatchSource Outcome format κ) (q : Point) (value : κ) : κ :=
  match s.alpha with
  | .ok alpha =>
    if q ∈ s.placement then Channel.larger value (alpha.cell s.placement q) else value
  | .error _ => value

/-- A source adds nothing where its reduced placement does not lie. -/
theorem addBand_of_not_mem {s : PatchSource Outcome format κ} (h : s.BandsPlaced) {k : Nat}
    {q : Point} (hq : q ∉ half^[k] s.placement) (value : Pixel format κ) :
    s.addBand k q value = value := by
  unfold addBand
  split
  · next level hlevel =>
    rw [Placed.plus, (h.frames hlevel).1, if_neg hq]
  · rfl

theorem addMask_of_not_mem {s : PatchSource Outcome format κ} (h : s.BandsPlaced) {k : Nat}
    {q : Point} (hq : q ∉ half^[k] s.placement) (value : κ) :
    s.addMask k q value = value := by
  unfold addMask
  split
  · next level hlevel =>
    rw [Placed.plus, (h.frames hlevel).2, if_neg hq]
  · rfl

theorem raise_of_not_mem {s : PatchSource Outcome format κ} {q : Point} (hq : q ∉ s.placement)
    (value : κ) : s.raise q value = value := by
  unfold raise
  split
  · rw [if_neg hq]
  · rfl

end PatchSource

namespace Patch

theorem foldl_filter_of_skip {β γ : Type} {keep : γ → Bool} {f : β → γ → β} {l : List γ}
    (h : ∀ c ∈ l, keep c = false → ∀ b, f b c = b) (b : β) :
    (l.filter keep).foldl f b = l.foldl f b := by
  induction l generalizing b with
  | nil => rfl
  | cons c l ih =>
    have hl := ih fun c' hc' => h c' (List.mem_cons_of_mem _ hc')
    by_cases hc : keep c
    · rw [List.filter_cons_of_pos hc, List.foldl_cons, List.foldl_cons, hl]
    · have hskip := h c (List.mem_cons_self ..) (by simpa using hc) b
      rw [List.filter_cons_of_neg hc, List.foldl_cons, hskip, hl]

theorem residentFirst_filter (sources : List (PatchSource Outcome format κ))
    (keep : PatchSource Outcome format κ → Bool) :
    residentFirst (sources.filter keep) = (residentFirst sources).filter keep := by
  simp only [residentFirst, List.filter_append, List.filter_filter, Bool.and_comm]

theorem mem_residentFirst {m : Type → Type} {sources : List (PatchSource m format κ)}
    {s : PatchSource m format κ} : s ∈ residentFirst sources ↔ s ∈ sources := by
  simp only [residentFirst, List.mem_append, List.mem_filter]
  cases s.resident <;> simp

/-! ## The pixel at a point -/

section Pixel

variable [Channel κ]

/-- The sum of the masked bands of level `k`. -/
def bandSum (queue : List (PatchSource Outcome format κ)) (k : Nat) (q : Point) :
    Pixel format κ :=
  queue.foldl (fun value s => s.addBand k q value) 0

/-- The sum of the masks of level `k`. -/
def weightSum (queue : List (PatchSource Outcome format κ)) (k : Nat) (q : Point) : κ :=
  queue.foldl (fun value s => s.addMask k q value) 0

/-- The largest coverage of any source. -/
def coverage (queue : List (PatchSource Outcome format κ)) (q : Point) : κ :=
  queue.foldl (fun value s => s.raise q value) 0

/-- The weighted mean of level `k`. -/
def meanAt (queue : List (PatchSource Outcome format κ)) (k : Nat) (q : Point) :
    Pixel format κ :=
  weightedMean (bandSum queue k q) (weightSum queue k q)

/-- The blended pixel at a point. -/
def blendAt (params : PatchParams) (sources : List (PatchSource Outcome format κ)) (q : Point) :
    Pixel format κ :=
  let queue := residentFirst sources
  let mixed := collapseFrom (meanAt queue) (max params.levels 1 - 1) 0 q
  Pixel.sanitized
    (if params.fillHoles then mixed.unpremultiply else rescaled (coverage queue q) mixed)

end Pixel

/-! ## What a patch selects -/

/-- The source can add to some level of the patch. -/
def Selected (area : Rect) (levels : Nat) (s : PatchSource Outcome format κ) : Prop :=
  s.placement.Meets (catchment area levels)

instance (area : Rect) (levels : Nat) (s : PatchSource Outcome format κ) :
    Decidable (Selected area levels s) :=
  inferInstanceAs (Decidable (Rect.Meets _ _))

/-- The sources of a patch in the order they are asked. -/
def selection (area : Rect) (levels : Nat) (sources : List (PatchSource Outcome format κ)) :
    List (PatchSource Outcome format κ) :=
  residentFirst (sources.filter (Selected area levels ·))

theorem mem_selection {area : Rect} {levels : Nat}
    {sources : List (PatchSource Outcome format κ)} {s : PatchSource Outcome format κ} :
    s ∈ selection area levels sources ↔ s ∈ sources ∧ Selected area levels s := by
  rw [selection, mem_residentFirst, List.mem_filter, decide_eq_true_iff]

section Selection

variable {area : Rect} {levels : Nat} {sources : List (PatchSource Outcome format κ)}

/-- A source that is not selected does not reach the patch at any level. -/
theorem not_mem_of_not_selected {s : PatchSource Outcome format κ}
    (hs : ¬ Selected area levels s) {k : Nat} (hk : k < levels) {q : Point}
    (hq : q ∈ half^[k] area) : q ∉ half^[k] s.placement :=
  fun hmem => hs (meets_catchment hk ⟨q, hmem, hq⟩)

/-- Selecting finds the sources that meet the rectangle. -/
theorem ends_near (sources : List (PatchSource Outcome format κ)) (target : Rect) :
    Ends IsOverflow (· = sources.filter fun s => decide (s.placement.Meets target))
      (near sources target) := by
  unfold near
  induction sources with
  | nil => exact rfl
  | cons s sources ih =>
    rw [List.filterMapM_cons]
    refine Ends.bind (P := fun found => found =
      if s.placement.Meets target then some s else none) ?_ ?_
    · refine (Rect.ends_intersects _ _).bind_eq ?_
      by_cases hs : s.placement.Meets target <;> simp [hs]
    · rintro _ rfl
      by_cases hs : s.placement.Meets target
      · simp only [hs, if_true]
        refine ih.bind_eq ?_
        simp [hs]
      · simp only [hs, if_false]
        apply ih.imp
        rintro _ rfl
        simp [hs]

variable [Channel κ]

/-- At the points of a patch the selected sources make the same mean as all of them. -/
theorem meanAt_selection (placed : ∀ s ∈ sources, s.BandsPlaced) {k : Nat} (hk : k < levels)
    {q : Point} (hq : q ∈ half^[k] area) :
    meanAt (selection area levels sources) k q = meanAt (residentFirst sources) k q := by
  have hskip : ∀ s ∈ residentFirst sources, decide (Selected area levels s) = false →
      s.BandsPlaced ∧ q ∉ half^[k] s.placement := fun s hs hne =>
    ⟨placed s (mem_residentFirst.mp hs),
      not_mem_of_not_selected (of_decide_eq_false hne) hk hq⟩
  have hband : bandSum (selection area levels sources) k q =
      bandSum (residentFirst sources) k q := by
    rw [bandSum, selection, residentFirst_filter]
    exact foldl_filter_of_skip (fun s hs hne value =>
      PatchSource.addBand_of_not_mem (hskip s hs hne).1 (hskip s hs hne).2 value) 0
  have hweight : weightSum (selection area levels sources) k q =
      weightSum (residentFirst sources) k q := by
    rw [weightSum, selection, residentFirst_filter]
    exact foldl_filter_of_skip (fun s hs hne value =>
      PatchSource.addMask_of_not_mem (hskip s hs hne).1 (hskip s hs hne).2 value) 0
  rw [meanAt, meanAt, hband, hweight]

theorem coverage_selection (hlevels : 0 < levels) {q : Point} (hq : q ∈ area) :
    coverage (selection area levels sources) q = coverage (residentFirst sources) q := by
  rw [coverage, selection, residentFirst_filter]
  refine foldl_filter_of_skip (fun s _ hne value => PatchSource.raise_of_not_mem ?_ value) 0
  exact not_mem_of_not_selected (of_decide_eq_false hne) hlevels hq

end Selection

end Patch

end Patchwork
