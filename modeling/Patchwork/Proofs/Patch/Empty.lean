import Patchwork.Proofs.Patch.Selection
import Patchwork.Proofs.Patch.Vacant

/-!
# Patches without pixels

A draft of a rectangle without pixels asks no source for anything.  A blend asks none for coverage,
but it may ask for bands: halving keeps a rectangle empty while doubling adds a margin to it, so
from two levels on the sources are selected against a rectangle that has pixels, and the selected
ones are asked although nothing is left of their bands.  A failure of theirs is then the answer.

What is asked is said by an equation between computations that holds in every lawful monad: one that
does not name a source's coverage does not ask for it, whatever asking does there.

## Main definitions

* `Patch.gather` — the bands of some sources, added up one source after the other.

## Main statements

* `Patch.draft_of_isEmpty`, `Patch.blend_of_isEmpty` — the two compositors.
* `Patch.asks_for_nothing_but_bands` — both together, and when nothing is asked at all.
-/

namespace Patchwork

open Outcome
open Rect (half double Meets)

variable {m : Type → Type} [Monad m] [LawfulMonad m] [MonadLiftT Outcome m]
  [LawfulMonadLiftT Outcome m] {κ α β γ : Type} {format : Format} {area : Rect}

/-! ## Outcomes in a monad -/

namespace Outcome

theorem lift_ok_bind (a : α) (f : α → m β) : (liftM (.ok a : Outcome α) : m α) >>= f = f a := by
  have hpure : (liftM (.ok a : Outcome α) : m α) = pure a := liftM_pure a
  rw [hpure, pure_bind]

/-- What follows an outcome counts only for its answer. -/
theorem lift_bind_congr {x : Outcome α} {f g : α → m β} (h : ∀ a, x = .ok a → f a = g a) :
    (liftM x : m α) >>= f = (liftM x : m α) >>= g := by
  cases x with
  | ok a => rw [lift_ok_bind, lift_ok_bind, h a rfl]
  | error cause =>
    -- a failure is an outcome without answers, followed by anything
    have hnone : (liftM (.error cause : Outcome α) : m α) =
        (liftM (.error cause : Outcome Empty) : m Empty) >>= fun a => a.elim := by
      have hbind := liftM_bind (n := m) (.error cause : Outcome Empty)
        fun a => (a.elim : Outcome α)
      refine hbind.trans (bind_congr fun a => a.elim)
    rw [hnone, bind_assoc, bind_assoc]
    exact bind_congr fun a => a.elim

omit [MonadLiftT Outcome m] [LawfulMonadLiftT Outcome m] in
/-- Steps that change nothing. -/
theorem foldlM_eq_pure {f : β → γ → m β} {l : List γ} {b : β} (h : ∀ c ∈ l, f b c = pure b) :
    l.foldlM f b = pure b := by
  induction l with
  | nil => rfl
  | cons c l ih =>
    obtain ⟨hc, hl⟩ := List.forall_mem_cons.mp h
    rw [List.foldlM_cons, hc, pure_bind, ih hl]

end Outcome

theorem Raster.eq_zeros_of_isEmpty [Zero α] (harea : area.IsEmpty) {r : Raster α}
    (hr : r.Fills area) : r = zeros area.columns area.rows :=
  ext_cell hr (fills_zeros area) fun p hp => absurd hp (Rect.not_mem_of_isEmpty harea p)

theorem Rect.isEmpty_half_iterate (harea : area.IsEmpty) (k : Nat) : (half^[k] area).IsEmpty := by
  induction k generalizing area with
  | zero => exact harea
  | succ k ih => exact ih (half_of_isEmpty harea)

variable [Channel κ] {params : PatchParams} {sources : List (PatchSource m format κ)}

namespace Patch

/-! ## Drafts -/

/-- Nothing is laid over a patch without pixels. -/
theorem overlay_of_isEmpty (harea : area.IsEmpty) {s : PatchSource m format κ} {overlap : Rect}
    (hs : s.placement.intersect area = .ok overlap) (patch : Raster (Pixel format κ)) :
    overlay area params patch s = pure patch := by
  have hoverlap : overlap.IsEmpty := by
    rw [(Rect.ends_intersect _ _).of_ok hs, Rect.isEmpty_iff]
    intro p hp
    exact Rect.not_mem_of_isEmpty harea p (Rect.mem_meet.mp hp).2
  rw [overlay, hs, lift_ok_bind, if_pos hoverlap]

theorem draft_of_isEmpty (harea : area.IsEmpty)
    (hplaced : ∀ s ∈ sources, ∃ overlap, s.placement.intersect area = .ok overlap) :
    draft area params sources = pure (Raster.zeros area.columns area.rows) := by
  have hoverlay : ∀ s ∈ sources, overlay area params
      (Raster.zeros area.columns area.rows : Raster (Pixel format κ)) s =
        pure (Raster.zeros area.columns area.rows) := by
    intro s hs
    obtain ⟨overlap, hoverlap⟩ := hplaced s hs
    exact overlay_of_isEmpty harea hoverlap _
  have hfills := Raster.fills_zeros (α := Pixel format κ) area
  rw [draft, Raster.blankFor_of_isEmpty harea, lift_ok_bind, foldlM_eq_pure hoverlay, pure_bind]
  exact congrArg pure (Raster.eq_zeros_of_isEmpty harea hfills)

/-! ## Blends -/

/-- The bands of some sources, added up one source after the other. -/
def gather (blanks : List (Layer format κ)) (queue : List (PatchSource m format κ)) :
    m (List (Layer format κ)) :=
  queue.foldlM (fun layers source => do
    let pyramid ← source.pyramid
    (Layer.addPyramid layers pyramid : Outcome (List (Layer format κ)))) blanks

/-- What follows the sum of bands counts only for layers of a patch. -/
theorem gather_bind_congr {levels : Nat} (hsize : area.Sized) {f g : List (Layer format κ) → m β}
    (hfg : ∀ layers, Layer.Stacked area levels layers → f layers = g layers)
    {blanks : List (Layer format κ)} (hblanks : Layer.Stacked area levels blanks)
    (queue : List (PatchSource m format κ)) :
    gather blanks queue >>= f = gather blanks queue >>= g := by
  induction queue generalizing blanks with
  | nil =>
    simp only [gather, List.foldlM_nil, pure_bind]
    exact hfg blanks hblanks
  | cons s queue ih =>
    simp only [gather, List.foldlM_cons, bind_assoc]
    refine bind_congr fun pyramid => lift_bind_congr fun layers hlayers => ?_
    exact ih ((hblanks.ends_add hsize pyramid).of_ok hlayers)

/-- A source covers no pixel of a patch without pixels, so it is not asked how. -/
theorem raiseBySource_of_isEmpty (harea : area.IsEmpty) {s : PatchSource m format κ}
    {overlap : Rect} (hs : s.placement.intersect area = .ok overlap) (highest : Raster κ) :
    raiseBySource area highest s = pure highest := by
  have hmeets : s.placement.intersects area = .ok false := by
    have hnone : ¬ s.placement.Meets area := fun ⟨p, _, hp⟩ => Rect.not_mem_of_isEmpty harea p hp
    cases hfound : s.placement.intersects area with
    | ok found => rw [(Rect.ends_intersects _ _).of_ok hfound, decide_eq_false hnone]
    | error cause =>
      rw [Rect.intersects, hs] at hfound
      cases hfound
  rw [raiseBySource, hmeets, lift_ok_bind]
  rfl

/-- Whatever layers without pixels hold, they can be put together. -/
theorem collapse_of_isEmpty (harea : area.IsEmpty) {levels : Nat} (hlevels : 0 < levels)
    {layers : List (Layer format κ)} (h : Layer.Stacked area levels layers) :
    Layer.collapse layers = .ok (Raster.zeros area.columns area.rows) := by
  have hends : Ends (fun _ => False) (·.Fills area) (Layer.collapse layers) :=
    h.ends_collapse hlevels fun k below => by
      rw [Raster.expand_of_isEmpty below _ (Rect.isEmpty_half_iterate harea k)]
      trivial
  refine (hends.imp fun out hout => ?_).eq_ok
  exact Raster.eq_zeros_of_isEmpty harea hout

theorem exists_blanks_of_isEmpty (harea : area.IsEmpty) (levels : Nat) :
    ∃ blanks : List (Layer format κ),
      Layer.blanks (Footprint.halves area levels) = .ok blanks ∧
        Layer.Stacked area levels blanks := by
  have hends : Ends (fun _ => False) (fun blanks : List (Layer format κ) =>
      Layer.Stacked area levels blanks) (Layer.blanks (Footprint.halves area levels)) := by
    refine (ends_blanks _).mono ?_ fun layers h => .of_blanks h.2.1 h.2.2
    rintro cause ⟨-, frame, hframe, hshort⟩
    obtain ⟨k, -, rfl⟩ := List.mem_map.mp hframe
    have hempty := Rect.isEmpty_half_iterate harea k
    exact hshort ⟨.of_isEmpty hempty, .of_isEmpty hempty⟩
  exact hends.exists_ok fun _ h => h.elim

/-- **A blend without pixels** asks the sources that meet the union of the levels for their bands,
and answers with nothing. -/
theorem blend_of_isEmpty (harea : area.IsEmpty) (hsize : area.Sized)
    (hplaced : ∀ s ∈ sources, ∃ overlap, s.placement.intersect area = .ok overlap)
    {frames : List Rect} {reach : Rect}
    (hframes : Footprint.levels area (max params.levels 1) = .ok frames)
    (hreach : Footprint.padded frames = .ok reach)
    (hselect : ∀ s ∈ sources, ∃ meets, s.placement.intersects reach = .ok meets) :
    ∃ blanks, Layer.blanks frames = .ok blanks ∧ blend area params sources = (do
      let _ ← gather blanks
        (residentFirst (sources.filter fun s => decide (s.placement.Meets reach)))
      return Raster.zeros area.columns area.rows) := by
  have hlevels : 0 < max params.levels 1 := by omega
  obtain ⟨rfl, -⟩ := (Footprint.ends_levels _ _).of_ok hframes
  obtain ⟨blanks, hblanks, hstacked⟩ : ∃ blanks : List (Layer format κ),
      Layer.blanks (Footprint.halves area (max params.levels 1)) = .ok blanks ∧
        Layer.Stacked area (max params.levels 1) blanks := exists_blanks_of_isEmpty harea _
  have hnear := near_eq_ok_iff.mpr ⟨hselect, rfl⟩
  refine ⟨blanks, hblanks, ?_⟩
  rw [blend, hframes, lift_ok_bind, hreach, lift_ok_bind, hnear, lift_ok_bind, hblanks,
    lift_ok_bind]
  refine gather_bind_congr hsize (fun layers hlayers => ?_) hstacked _
  rw [collapse_of_isEmpty harea hlevels hlayers, lift_ok_bind]
  have hfills := Raster.fills_zeros (α := Pixel format κ) area
  have hraise : ∀ s ∈ residentFirst (sources.filter fun s => decide (s.placement.Meets reach)),
      raiseBySource area (Raster.zeros area.columns area.rows : Raster κ) s =
        pure (Raster.zeros area.columns area.rows) := by
    intro s hs
    obtain ⟨overlap, hoverlap⟩ := hplaced s (List.mem_filter.mp (mem_residentFirst.mp hs)).1
    exact raiseBySource_of_isEmpty harea hoverlap _
  cases params.fillHoles with
  | true => exact congrArg pure (Raster.eq_zeros_of_isEmpty harea hfills)
  | false =>
    simp only [Bool.false_eq_true, if_false]
    rw [Raster.blankFor_of_isEmpty harea, lift_ok_bind, foldlM_eq_pure hraise, pure_bind]
    exact congrArg pure (Raster.eq_zeros_of_isEmpty harea hfills)

/-- Without further levels no pixel is reached; with them, one near the corner of the rectangle
is. -/
theorem mem_reach_of_isEmpty (harea : area.IsEmpty) (count : Nat) :
    (count ≤ 1 → (Footprint.catchment area count).IsEmpty) ∧
      (1 < count → ⟨2 * (area.x / 2) - 1, 2 * (area.y / 2) - 1⟩ ∈
        Footprint.catchment area count) := by
  constructor
  · intro hcount
    refine Rect.isEmpty_iff.mpr fun p hp => ?_
    have hsub : Footprint.catchment area count ⊆ area := by
      refine Footprint.around_subset (fun q hq => absurd hq ?_) fun k r hk => ?_
      · exact Rect.not_mem_of_isEmpty (.inl (Int.le_refl 0)) q
      have hlt : k < count := by
        have := (List.getElem?_eq_some_iff.mp hk).1
        rwa [Footprint.length_halves] at this
      obtain rfl : k = 0 := by omega
      rw [Footprint.getElem?_halves hlt, Option.some.injEq] at hk
      exact hk ▸ fun q hq => hq
    exact Rect.not_mem_of_isEmpty harea p (hsub p hp)
  · intro hcount
    refine Footprint.double_half_subset_catchment area hcount _ ?_
    rw [Function.iterate_one, Function.iterate_one, Rect.mem_double, half, if_pos harea]
    simp only [Rect.clamped]
    omega

/-- **A patch without pixels.**  In any monad, the draft is the blank patch and asks no source for
anything.  The blend asks only for bands, and only of the sources that meet the union of the levels;
if they answer, it answers with the blank patch.  With one level there are no such sources.  With
more, the union has a pixel near the corner of the rectangle, so that a source covering that pixel
is asked. -/
theorem asks_for_nothing_but_bands (params : PatchParams)
    {sources : List (PatchSource m format κ)} (harea : area.IsEmpty) (hsize : area.Sized)
    (hplaced : ∀ s ∈ sources, ∃ overlap, s.placement.intersect area = .ok overlap) :
    draft area params sources = pure (Raster.zeros area.columns area.rows) ∧
      ∀ frames reach, Footprint.levels area (max params.levels 1) = .ok frames →
        Footprint.padded frames = .ok reach →
        (∀ s ∈ sources, ∃ meets, s.placement.intersects reach = .ok meets) →
        (∃ blanks, Layer.blanks frames = .ok blanks ∧ blend area params sources = (do
          let _ ← gather blanks
            (residentFirst (sources.filter fun s => decide (s.placement.Meets reach)))
          return Raster.zeros area.columns area.rows)) ∧
        (params.levels ≤ 1 →
          blend area params sources = pure (Raster.zeros area.columns area.rows)) ∧
        (1 < params.levels → ⟨2 * (area.x / 2) - 1, 2 * (area.y / 2) - 1⟩ ∈ reach) := by
  refine ⟨draft_of_isEmpty harea hplaced, fun frames reach hframes hreach hselect => ?_⟩
  obtain ⟨blanks, hblanks, hblend⟩ :=
    blend_of_isEmpty harea hsize hplaced hframes hreach hselect
  obtain ⟨rfl, -⟩ := (Footprint.ends_levels _ _).of_ok hframes
  obtain rfl := (Footprint.ends_padded _ _).of_ok hreach
  obtain ⟨hnone, hsome⟩ := mem_reach_of_isEmpty harea (max params.levels 1)
  refine ⟨⟨blanks, hblanks, hblend⟩, fun hlevels => ?_, fun hlevels => hsome (by omega)⟩
  have hmissed : sources.filter (fun s => decide (s.placement.Meets
      (Footprint.catchment area (max params.levels 1)))) = [] := by
    refine List.filter_eq_nil_iff.mpr fun s _ hmeets => ?_
    obtain ⟨p, -, hp⟩ := of_decide_eq_true hmeets
    exact Rect.not_mem_of_isEmpty (hnone (by omega)) p hp
  rw [hblend, hmissed]
  exact pure_bind blanks _

/-- A source of four by four pixels that has lost its bands. -/
def bereft : PatchSource Outcome .gray Float32 where
  placement := ⟨0, 0, 4, 4⟩
  resident := false
  pyramid := refuse .cancelled
  alpha := .ok (Raster.tabulate 4 4 fun _ _ => 1)
  pixels area := .ok (Raster.zeros area.columns area.rows)

/-- It can be compared with the rectangles of a patch in its middle. -/
theorem bereft_placed {reach : Rect} (h : reach ∈ [⟨2, 2, 0, 0⟩, Rect.none, ⟨1, 1, 1, 1⟩]) :
    ∀ s ∈ [bereft.recorded 0], (∃ overlap, s.placement.intersect reach = .ok overlap) ∧
      ∃ meets, s.placement.intersects reach = .ok meets := by
  simp only [List.mem_cons, List.not_mem_nil, or_false, forall_eq] at h ⊢
  rcases h with rfl | rfl | rfl <;> exact ⟨⟨_, rfl⟩, _, rfl⟩

/-- A rectangle without pixels in the middle of such a source: only the blend of two levels asks
it. -/
theorem asks_for_nothing_but_bands_bereft :
    draft ⟨2, 2, 0, 0⟩ ⟨2, false, 8, 8⟩ [bereft.recorded 0] = pure (Raster.zeros 0 0) ∧
      blend ⟨2, 2, 0, 0⟩ ⟨1, false, 8, 8⟩ [bereft.recorded 0] = pure (Raster.zeros 0 0) ∧
      (∃ blanks, blend ⟨2, 2, 0, 0⟩ ⟨2, false, 8, 8⟩ [bereft.recorded 0] = (do
        let _ ← gather blanks [bereft.recorded 0]
        return Raster.zeros 0 0)) ∧
      (fetching ⟨2, 2, 0, 0⟩ ⟨2, false, 8, 8⟩ [bereft]).2 = [0] := by
  have harea : (⟨2, 2, 0, 0⟩ : Rect).IsEmpty := by decide
  have hsize : (⟨2, 2, 0, 0⟩ : Rect).Sized := by constructor <;> decide
  have hplaced := fun s hs => (bereft_placed (List.mem_cons_self ..) s hs).1
  obtain ⟨-, hone⟩ := asks_for_nothing_but_bands ⟨1, false, 8, 8⟩ harea hsize hplaced
  obtain ⟨hdraft, htwo⟩ := asks_for_nothing_but_bands ⟨2, false, 8, 8⟩ harea hsize hplaced
  obtain ⟨-, hblank, -⟩ := hone [⟨2, 2, 0, 0⟩] Rect.none rfl rfl
    fun s hs => (bereft_placed (by decide) s hs).2
  obtain ⟨⟨blanks, -, hblend⟩, -, -⟩ := htwo [⟨2, 2, 0, 0⟩, ⟨1, 1, 0, 0⟩] ⟨1, 1, 1, 1⟩ rfl rfl
    fun s hs => (bereft_placed (by decide) s hs).2
  exact ⟨hdraft, hblank (by decide), ⟨blanks, hblend⟩, by decide +kernel⟩

/-- **No pixels, and yet a failure.**  The draft of that rectangle is the blank patch, the blend of
two levels the failure of the source. -/
theorem blend_fails_without_pixels :
    (⟨2, 2, 0, 0⟩ : Rect).IsEmpty ∧
      draft ⟨2, 2, 0, 0⟩ ⟨2, false, 8, 8⟩ [bereft] = .ok (Raster.zeros 0 0) ∧
      blend ⟨2, 2, 0, 0⟩ ⟨2, false, 8, 8⟩ [bereft] = .error (.problem .cancelled) := by
  have harea : (⟨2, 2, 0, 0⟩ : Rect).IsEmpty := by decide
  refine ⟨harea, draft_of_isEmpty harea ?_, rfl⟩
  simp only [List.mem_singleton, forall_eq]
  exact ⟨_, rfl⟩

end Patch

end Patchwork
