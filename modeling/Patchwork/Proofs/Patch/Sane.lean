import Patchwork.Proofs.Logic
import Patchwork.Proofs.Patch.Tiles
import Patchwork.Proofs.Pyramid.Closed
import Patchwork.Proofs.Raster.Lookup

/-!
# Patches of sane coordinates

Where all rectangles leave room for it, as sane ones do, nothing that the library computes for a
patch goes out of range: no coordinate overflows, no two computations of a far edge disagree, and
every raster fits memory.  A pyramid is then always built, and a patch is made unless one of its
sources fails.

## Main definitions

* `Pyramid.Roomy` — a pyramid whose bands lie in rectangles in range.
* `PatchSource.Blendable`, `PatchSource.Draftable` — what a source has to answer, in any monad.
* `PatchSource.Proper` — the same of a source that is a fixed value.
* `Layer.Covers` — a layer whose rasters fill its rectangle.

## Main statements

* `Pyramid.answers_build` — a pyramid is built.
* `Patch.ensures_blend_of_roomy`, `Patch.ensures_draft_of_roomy` — a patch is made.
* `Patch.answers_of_sane` — all computations together.
-/

namespace Patchwork

open Outcome Coordinate
open Raster (Blurrable)
open Rect (half)

variable {κ α : Type} {format : Format} {E : Failure → Prop}

/-! ## Room in memory -/

namespace Rect

namespace Roomy

variable {a b r : Rect}

theorem full (h : r.Roomy) : r.Bounded fullReach := h.bounded.mono (by decide)

theorem columns_le (h : r.Roomy) : r.columns ≤ 759250124 := by
  obtain ⟨-, hacross, -⟩ := h
  simp only [columns, longest] at *
  omega

theorem rows_le (h : r.Roomy) : r.rows ≤ 759250124 := by
  obtain ⟨-, -, hdown⟩ := h
  simp only [rows, longest] at *
  omega

theorem sized (h : r.Roomy) : r.Sized := by
  obtain ⟨-, _, _⟩ := h
  simp only [longest] at *
  constructor <;> simp only [highest] <;> omega

theorem meet (ha : a.Roomy) (hb : b.Roomy) : (Rect.meet a b).Roomy := by
  refine ⟨ha.bounded.meet hb.bounded, ?_, ?_⟩
  all_goals
    obtain ⟨⟨_, _, _, _, _, _⟩, _, _⟩ := ha
    simp only [Rect.meet, spanning, clamped, longest] at *
    omega

/-- The sides of the next level are about half as long. -/
theorem half (h : r.Roomy) : (Rect.half r).Roomy := by
  refine ⟨h.bounded.half (by decide), ?_, ?_⟩
  all_goals
    obtain ⟨-, _, _⟩ := h
    by_cases he : r.IsEmpty
    · simp only [Rect.half, he, if_true, clamped, longest] at *
      omega
    · rw [half_of_not_isEmpty he]
      simp only [longest] at *
      omega

theorem half_iterate (h : r.Roomy) (k : Nat) : (Rect.half^[k] r).Roomy := by
  induction k generalizing r with
  | zero => exact h
  | succ k ih => exact ih h.half

end Roomy

/-- The sane range is safely within. -/
theorem Sane.roomy {r : Rect} (h : r.Sane) : r.Roomy := by
  refine ⟨Bounded.mono h (by decide), ?_, ?_⟩
  all_goals
    obtain ⟨_, _, _, _, _, _⟩ := h
    simp only [saneReach, longest] at *
    omega

end Rect

namespace Raster

variable [Cell κ α]

/-- Memory can hold the rasters of rectangles whose sides are short enough. -/
theorem room_of_le (hslim : Cell.Slim α) {w h : Nat} (hw : w ≤ 759250124) (hh : h ≤ 759250124) :
    Room α w h := by
  have harea : w * h ≤ 759250124 * 759250124 := Nat.mul_le_mul hw hh
  have hbytes : Cell.bytes α * (w * h) ≤ 16 * (759250124 * 759250124) :=
    Nat.mul_le_mul hslim harea
  exact Nat.le_trans hbytes (by decide)

/-- The next larger square of colours does not fit. -/
example : ¬ Room (Pixel .rgba Float32) 759250125 759250125 := by decide

theorem answers_allocate (hslim : Cell.Slim α) {w h : Nat} (hw : w ≤ 759250124)
    (hh : h ≤ 759250124) : Ends E (fun _ => True) (allocate α w h) :=
  (room_of_le hslim hw hh).allocates

theorem answers_blankFor (hslim : Cell.Slim α) {frame : Rect} (h : frame.Roomy) :
    Ends E (· = zeros frame.columns frame.rows) (blankFor (α := α) frame) :=
  (ends_blankFor frame).mono
    (fun _ hc => absurd (room_of_le hslim h.columns_le h.rows_le) hc.2) fun _ hr => hr.1

/-- Rasters of rectangles in range can be blurred. -/
theorem blurrable_of_roomy (hslim : Cell.Slim α) {frame : Rect} (h : frame.Roomy) :
    Blurrable α frame :=
  ⟨room_of_le hslim h.columns_le h.rows_le, h.full.clear⟩

end Raster

/-! ## Placed images -/

namespace Placed

variable [Cell κ α]

/-- Merging into a raster that fills a rectangle in range. -/
theorem answers_mergeInto (p : Placed α) (hp : p.frame.Roomy) {target : Raster α} {frame : Rect}
    (hfills : target.Fills frame) (hframe : frame.Roomy) (f : α → α → α) :
    Ends E (·.Fills frame) (p.mergeInto target frame.x frame.y f) := by
  have hwindow : Ends E (· = frame) (target.bounds.translate frame.x frame.y) := by
    have hcolumns := hframe.columns_le
    have hrows := hframe.rows_le
    obtain ⟨hwidth, hheight⟩ := hfills
    obtain ⟨⟨_, _, _, _, _, _⟩, _, _⟩ := hframe
    simp only [Rect.columns, Rect.rows, Rect.roomyReach] at *
    have hsize : (target.width : Int) = frame.width ∧ (target.height : Int) = frame.height := by
      omega
    have hplaced : Ends E (· = ⟨frame.x, frame.y, target.width, target.height⟩)
        (target.bounds.translate frame.x frame.y) := by
      apply Rect.answers_ofSize
      all_goals
        simp only [Fits, lowest, highest]
        omega
    rwa [hsize.1, hsize.2] at hplaced
  refine hwindow.bind_eq ?_
  refine (hp.full.answers_intersect hframe.full).bind_eq ?_
  exact Raster.fills_update hfills _ _

end Placed

/-! ## Pyramids -/

variable [Channel κ]

namespace Pyramid

/-- Every band and every mask lies in a rectangle in range. -/
def Roomy (pyramid : Pyramid format κ) : Prop :=
  ∀ level ∈ pyramid.levels, level.image.frame.Roomy ∧ level.mask.frame.Roomy

/-- **A pyramid is built** over every placement in range, from pixels and a mask of its size. -/
theorem answers_build {source : Raster (Pixel format κ)} {placement : Rect} {mask : Raster κ}
    {levels : Nat} (hplacement : placement.Roomy) (hfit : Fitting source placement mask levels)
    (columns rows : Nat) (fillHoles : Bool) :
    Ends E Pyramid.Roomy
      (build source placement columns rows mask levels fillHoles) := by
  have hblur : Blurrable (Pixel format κ) placement :=
    Raster.blurrable_of_roomy Pixel.slim hplacement
  refine (answers_build_closed hfit hblur).imp ?_
  rintro _ rfl level hlevel
  obtain ⟨k, -, rfl⟩ := List.mem_map.mp hlevel
  rw [frame_levelAt, mask_levelAt, (same_place_high _ k).1, hfit.frame_low, hfit.frame_weight]
  exact ⟨hplacement.half_iterate k, hplacement.half_iterate k⟩

/-- The levels that suit a mosaic whose sides are coordinates. -/
theorem depth_le {side : Nat} (h : side < 2147483648) : 1 ≤ depth side ∧ depth side ≤ 28 := by
  have hlog : (side / 2).log2 < 30 := by
    by_cases hside : side / 2 = 0
    · simp [hside]
    · exact (Nat.log2_lt hside).mpr (by omega)
  simp only [depth]
  omega

end Pyramid

/-! ## Layers -/

namespace Layer

/-- The rasters of a layer fill its rectangle. -/
structure Covers (layer : Layer format κ) (frame : Rect) : Prop where
  /-- The layer lies there. -/
  frame_eq : layer.frame = frame
  /-- The sum fills it. -/
  sum_fills : layer.sum.Fills frame
  /-- The weight fills it. -/
  weight_fills : layer.weight.Fills frame

theorem Shows.covers {layer : Layer format κ} {frame : Rect} {sum : Point → Pixel format κ}
    {weight : Point → κ} (h : layer.Shows frame sum weight) : layer.Covers frame :=
  ⟨h.frame_eq, h.sum_fills, h.weight_fills⟩

/-- One layer for each level of a patch. -/
def Stacked (area : Rect) (levels : Nat) (layers : List (Layer format κ)) : Prop :=
  layers.length = levels ∧
    ∀ (k : Nat) (layer : Layer format κ), layers[k]? = some layer → layer.Covers (half^[k] area)

variable {area : Rect} {levels : Nat}

/-- Layers without any source. -/
theorem Stacked.of_blanks {layers : List (Layer format κ)}
    (hlength : layers.length = (Footprint.halves area levels).length)
    (hlayers : ∀ (k : Nat) (layer : Layer format κ), layers[k]? = some layer →
      ∃ frame, (Footprint.halves area levels)[k]? = some frame ∧
        layer.Shows frame (fun _ => 0) fun _ => 0) : Stacked area levels layers := by
  rw [Footprint.length_halves] at hlength
  refine ⟨hlength, ?_⟩
  intro k layer hk
  obtain ⟨frame, hframe, hshows⟩ := hlayers k layer hk
  have hlt := (List.getElem?_eq_some_iff.mp hk).1
  rw [Footprint.getElem?_halves (hlength ▸ hlt), Option.some.injEq] at hframe
  exact hframe ▸ hshows.covers

theorem answers_blanks (harea : area.Roomy) (levels : Nat) :
    Ends E (fun layers : List (Layer format κ) => Stacked area levels layers)
      (blanks (Footprint.halves area levels)) := by
  refine (Patch.ends_blanks _).mono ?_ fun layers h => .of_blanks h.2.1 h.2.2
  rintro cause ⟨-, frame, hframe, hshort⟩
  obtain ⟨k, -, rfl⟩ := List.mem_map.mp hframe
  have hlevel := harea.half_iterate k
  exact absurd ⟨Raster.room_of_le Pixel.slim hlevel.columns_le hlevel.rows_le,
    Raster.room_of_le Channel.slim hlevel.columns_le hlevel.rows_le⟩ hshort

theorem answers_add {layer : Layer format κ} {frame : Rect} (h : layer.Covers frame)
    (hframe : frame.Roomy) {level : Pyramid.Level format κ} (himage : level.image.frame.Roomy)
    (hmask : level.mask.frame.Roomy) : Ends E (·.Covers frame) (layer.add level) := by
  obtain ⟨rfl, hsum, hweight⟩ := h
  apply (level.image.answers_mergeInto himage hsum hframe (· + ·)).bind
  intro sum hsum
  apply (level.mask.answers_mergeInto hmask hweight hframe (· + ·)).bind
  exact fun weight hweight => ⟨rfl, hsum, hweight⟩

/-- Adding a source keeps the layers where they are, as adding each of its levels does. -/
theorem Stacked.ends_addPyramid {layers : List (Layer format κ)} (h : Stacked area levels layers)
    {pyramid : Pyramid format κ}
    (hadd : ∀ (k : Nat) (layer : Layer format κ), ∀ level ∈ pyramid.levels,
      layer.Covers (half^[k] area) → Ends E (·.Covers (half^[k] area)) (layer.add level)) :
    Ends E (Stacked area levels) (addPyramid layers pyramid) := by
  have hadded : Ends E (fun result => result.length = layers.length ∧
      ∀ (k : Nat) (layer : Layer format κ), result[k]? = some layer → layer.Covers (half^[k] area))
      (addLevels layers pyramid.levels) :=
    ends_addLevels (P := fun k layer => layer.Covers (half^[k] area))
      (Q := fun k layer => layer.Covers (half^[k] area)) h.2
      (fun k layer level hk => hadd k layer level (List.mem_of_getElem? hk))
      fun _ _ _ hlayer => hlayer
  exact hadded.imp fun result hresult => ⟨hresult.1.trans h.1, hresult.2⟩

theorem Stacked.answers_addPyramid {layers : List (Layer format κ)} (h : Stacked area levels layers)
    (harea : area.Roomy) {pyramid : Pyramid format κ} (hpyramid : pyramid.Roomy) :
    Ends E (Stacked area levels) (addPyramid layers pyramid) := by
  apply h.ends_addPyramid
  intro k layer level hlevel hlayer
  obtain ⟨himage, hmask⟩ := hpyramid level hlevel
  exact answers_add hlayer (harea.half_iterate k) himage hmask

/-- The image of the layers fills the rectangle, if doubling any image stays within `E`. -/
theorem Stacked.ends_collapse {layers : List (Layer format κ)} (hlevels : 0 < levels)
    (h : Stacked area levels layers)
    (hexpand : ∀ k (below : Raster (Pixel format κ)),
      Ends E (fun _ => True) (below.expand (half^[k + 1] area) (half^[k] area))) :
    Ends E (·.Fills area) (collapse layers) := by
  obtain ⟨coarser, rfl⟩ : ∃ coarser, levels = coarser + 1 := ⟨levels - 1, by omega⟩
  clear hlevels
  induction coarser generalizing area layers with
  | zero =>
    obtain ⟨layer, rfl⟩ := List.length_eq_one_iff.mp h.1
    exact (h.2 0 layer rfl).sum_fills
  | succ coarser ih =>
    obtain ⟨layer, rest, rfl⟩ := List.exists_cons_of_length_eq_add_one h.1
    obtain ⟨next, rest, rfl⟩ := List.exists_cons_of_length_eq_add_one (Nat.add_right_cancel h.1)
    have hlayer : layer.Covers area := h.2 0 layer rfl
    have hnext : next.Covers (half area) := h.2 1 next rfl
    have hrest : Stacked (half area) (coarser + 1) (next :: rest) :=
      ⟨Nat.add_right_cancel h.1, fun k layer hk => h.2 (k + 1) layer hk⟩
    apply (ih (fun k => hexpand (k + 1)) hrest).bind
    intro below _
    rw [hlayer.frame_eq, hnext.frame_eq]
    refine (hexpand 0 below).bind ?_
    exact fun _ _ => hlayer.sum_fills

theorem Stacked.answers_collapse {layers : List (Layer format κ)} (hlevels : 0 < levels)
    (h : Stacked area levels layers) (harea : area.Roomy) :
    Ends E (·.Fills area) (collapse layers) := by
  refine h.ends_collapse hlevels fun k below => ?_
  rw [Function.iterate_succ_apply']
  have hblur : Blurrable (Pixel format κ) (half^[k] area) :=
    Raster.blurrable_of_roomy Pixel.slim (harea.half_iterate k)
  exact (hblur.answers_expand Pixel.slim below).imp fun _ _ => trivial

end Layer

/-! ## The compositors -/

section Compositors

variable {m : Type → Type} [Monad m] [MonadLiftT Outcome m] (L : Logic m E)

/-- A source at a placement in range with bands that belong there and a coverage of any size. -/
structure PatchSource.Blendable (s : PatchSource m format κ) : Prop where
  /-- Where the source lies. -/
  placement : s.placement.Roomy
  /-- Its bands lie in rectangles in range. -/
  pyramid : L.Ensures Pyramid.Roomy s.pyramid
  /-- Its coverage. -/
  alpha : L.Ensures (fun _ => True) s.alpha

/-- A source at a placement in range, of which any part can be had. -/
structure PatchSource.Draftable (s : PatchSource m format κ) : Prop where
  /-- Where the source lies. -/
  placement : s.placement.Roomy
  /-- The pixels of a part, as many as are asked for. -/
  pixels : ∀ part : Rect, ¬ part.IsEmpty → part ⊆ s.placement →
    L.Ensures (·.Fills part) (s.pixels (part.seenFrom s.placement))

namespace Patch

variable {area : Rect} {params : PatchParams} {sources : List (PatchSource m format κ)}

omit [Monad m] [MonadLiftT Outcome m] [Channel κ] in
theorem answers_near {target : Rect} (htarget : target.Bounded Rect.fullReach)
    (hsources : ∀ s ∈ sources, s.placement.Roomy) :
    Ends E (∀ s ∈ ·, s ∈ sources) (near sources target) := by
  unfold near
  induction sources with
  | nil => exact List.forall_mem_nil _
  | cons s sources ih =>
    obtain ⟨hs, hrest⟩ := List.forall_mem_cons.mp hsources
    rw [List.filterMapM_cons]
    refine Ends.bind (P := fun found => ∀ t, found = some t → t = s) ?_ ?_
    · refine (Rect.Bounded.answers_intersects hs.full htarget).bind_eq ?_
      intro t ht
      split at ht
      · exact (Option.some.inj ht).symm
      · cases ht
    · intro found hfound
      cases found with
      | none => exact (ih hrest).imp fun _ h t ht => List.mem_cons_of_mem _ (h t ht)
      | some t =>
        refine (ih hrest).bind fun rest h => ?_
        rw [hfound t rfl]
        exact List.forall_mem_cons.mpr
          ⟨List.mem_cons_self .., fun u hu => List.mem_cons_of_mem _ (h u hu)⟩

theorem ensures_raiseBySource_of_roomy (harea : area.Roomy) {s : PatchSource m format κ}
    (hs : s.Blendable L) {highest : Raster κ} (hfills : highest.Fills area) :
    L.Ensures (·.Fills area) (raiseBySource area highest s) := by
  apply L.bind_eq (L.lift (hs.placement.full.answers_intersects harea.full))
  by_cases hmeets : s.placement.Meets area
  · simp only [hmeets, decide_true, Bool.not_true, Bool.false_eq_true, if_false]
    apply L.bind hs.alpha
    intro alpha _
    apply L.bind_eq (L.lift (hs.placement.full.answers_intersect harea.full))
    exact L.pure (Raster.fills_update hfills _ _)
  · simp only [hmeets, decide_false, Bool.not_false, if_true]
    exact L.pure hfills

/-- **A patch is blended** unless a source fails. -/
theorem ensures_blend_of_roomy (harea : area.Roomy) (hlevels : params.levels ≤ 28)
    (hsources : ∀ s ∈ sources, s.Blendable L) :
    L.Ensures (·.Fills area) (blend area params sources) := by
  have hpos : 0 < max params.levels 1 := by omega
  have hroom : Footprint.LevelRoom (max params.levels 1) := by
    simp only [Footprint.LevelRoom, blockMax]
    omega
  apply L.bind_eq (L.lift (Footprint.levels_answers harea.full hroom))
  apply L.bind (L.lift (Footprint.padded_answers harea.bounded (by omega)))
  rintro padded ⟨-, hpadded⟩
  apply L.bind (L.lift (answers_near hpadded fun s hs => (hsources s hs).placement))
  intro touching htouching
  have hselected : ∀ s ∈ residentFirst touching, s.Blendable L := by
    intro s hs
    refine hsources s (htouching s ?_)
    simp only [residentFirst, List.mem_append, List.mem_filter] at hs
    exact hs.elim (·.1) (·.1)
  apply L.bind (L.lift (Layer.answers_blanks harea _))
  intro blanks hblanks
  refine L.bind (P := Layer.Stacked area (max params.levels 1)) ?_ ?_
  · refine L.foldlM (I := fun _ => Layer.Stacked area (max params.levels 1)) hblanks ?_
    intro asked s layers hs hlayers
    apply L.bind (hselected s hs).pyramid
    intro pyramid hpyramid
    exact L.lift (hlayers.answers_addPyramid harea hpyramid)
  intro layers hlayers
  apply L.bind (L.lift (hlayers.answers_collapse hpos harea))
  intro mixed hmixed
  cases params.fillHoles with
  | true => exact L.pure hmixed
  | false =>
    apply L.bind_eq (L.lift (Raster.answers_blankFor Channel.slim harea))
    refine L.bind (P := fun highest : Raster κ => highest.Fills area) ?_ ?_
    · refine L.foldlM (I := fun _ (highest : Raster κ) => highest.Fills area)
        (Raster.fills_zeros area) ?_
      intro asked s highest hs hhighest
      exact ensures_raiseBySource_of_roomy L harea (hselected s hs) hhighest
    · exact fun highest _ => L.pure hmixed

theorem ensures_overlay_of_roomy (harea : area.Roomy) {s : PatchSource m format κ}
    (hs : s.Draftable L) {patch : Raster (Pixel format κ)} (hfills : patch.Fills area) :
    L.Ensures (·.Fills area) (overlay area params patch s) := by
  have hmeet : (Rect.meet s.placement area).Roomy := hs.placement.meet harea
  apply L.bind_eq (L.lift (hs.placement.full.answers_intersect harea.full))
  by_cases hempty : (Rect.meet s.placement area).IsEmpty
  · simp only [hempty, if_true]
    exact L.pure hfills
  simp only [hempty, if_false]
  apply L.bind_eq (L.lift (hmeet.full.answers_relativeTo hs.placement.full))
  apply L.bind (hs.pixels _ hempty fun p hp => (Rect.mem_meet.mp hp).1)
  intro raw hrawfills
  have hplaced : Ends E (·.frame = Rect.meet s.placement area)
      (Placed.place raw (Rect.meet s.placement area) params.columns params.rows) := by
    rw [Placed.place, dif_pos hrawfills]
    exact rfl
  apply L.bind (L.lift hplaced)
  intro image himage
  exact L.lift (image.answers_mergeInto (himage ▸ hmeet) hfills harea _)

/-- **A patch is drafted** unless a source fails. -/
theorem ensures_draft_of_roomy (harea : area.Roomy) (hsources : ∀ s ∈ sources, s.Draftable L) :
    L.Ensures (·.Fills area) (draft area params sources) := by
  apply L.bind_eq (L.lift (Raster.answers_blankFor Pixel.slim harea))
  refine L.bind (P := fun patch : Raster (Pixel format κ) => patch.Fills area) ?_ ?_
  · refine L.foldlM (I := fun _ (patch : Raster (Pixel format κ)) => patch.Fills area)
      (Raster.fills_zeros area) ?_
    intro asked s patch hs hpatch
    exact ensures_overlay_of_roomy L harea (hsources s hs) hpatch
  · exact fun patch hpatch => L.pure hpatch

end Patch

end Compositors

/-- A source whose answers, when it gives any, are what its placement calls for. -/
structure PatchSource.Proper (s : PatchSource Outcome format κ) : Prop where
  /-- Where the source lies. -/
  placement : s.placement.Sane
  /-- Its pyramid is built over the placement, from pixels and a mask of its size. -/
  pyramid : ∀ pyramid, s.pyramid = .ok pyramid → ∃ source mask columns rows levels fillHoles,
    Pyramid.Fitting source s.placement mask levels ∧
      Pyramid.build source s.placement columns rows mask levels fillHoles = .ok pyramid
  /-- Pixels are as many as are asked for. -/
  pixels : ∀ place raw, s.pixels place = .ok raw → raw.Fills place

namespace PatchSource.Proper

variable {s : PatchSource Outcome format κ}

theorem blendable (h : s.Proper) (hpyramid : ∀ cause, s.pyramid = .error cause → E cause)
    (halpha : ∀ cause, s.alpha = .error cause → E cause) : s.Blendable (Logic.plain E) := by
  refine ⟨h.placement.roomy, ?_, ?_⟩
  · cases hs : s.pyramid with
    | error cause => exact hpyramid cause hs
    | ok pyramid =>
      obtain ⟨source, mask, columns, rows, levels, fillHoles, hfit, hbuild⟩ := h.pyramid pyramid hs
      exact (Pyramid.answers_build (E := E) h.placement.roomy hfit columns rows fillHoles).of_ok
        hbuild
  · cases hs : s.alpha with
    | error cause => exact halpha cause hs
    | ok alpha => exact trivial

theorem draftable (h : s.Proper)
    (hpixels : ∀ place cause, s.pixels place = .error cause → E cause) :
    s.Draftable (Logic.plain E) := by
  refine ⟨h.placement.roomy, ?_⟩
  intro part _ _
  cases hs : s.pixels (part.seenFrom s.placement) with
  | error cause => exact hpixels _ cause hs
  | ok raw => exact (h.pixels _ raw hs :)

end PatchSource.Proper

namespace Patch

variable {area : Rect} {params : PatchParams} {sources : List (PatchSource Outcome format κ)}

/-- **Sane coordinates never fail.**  Pyramids are built, the levels of a patch and the rectangle
its sources are selected against exist, and a patch is made unless one of its sources fails; the
failure is then the source's own.  On the way no position outside a raster is looked up. -/
theorem answers_of_sane (harea : area.Sane) (hlevels : params.levels ≤ 28)
    (hsources : ∀ s ∈ sources, s.Proper) :
    (∀ side, side < 2147483648 → 1 ≤ Pyramid.depth side ∧ Pyramid.depth side ≤ 28) ∧
    (∀ (source : Raster (Pixel format κ)) (placement : Rect) (columns rows : Nat)
      (mask : Raster κ) (levels : Nat) (fillHoles : Bool), placement.Sane →
      Pyramid.Fitting source placement mask levels →
      ∃ pyramid, Pyramid.build source placement columns rows mask levels fillHoles = .ok pyramid) ∧
    (∃ frames padded, Footprint.levels area params.levels = .ok frames ∧
      Footprint.padded frames = .ok padded) ∧
    Ends (fun cause => ∃ s ∈ sources, s.pyramid = .error cause ∨ s.alpha = .error cause)
      (·.Fills area) (blend area params sources) ∧
    Ends (fun cause => ∃ s ∈ sources, ∃ place, s.pixels place = .error cause)
      (·.Fills area) (draft area params sources) ∧
    Raster.LookupsInside format κ := by
  have hroom : Footprint.LevelRoom params.levels := by
    simp only [Footprint.LevelRoom, blockMax]
    omega
  have hnone : ∀ {β : Type} {P : β → Prop} {x : Outcome β}, Ends (fun _ => False) P x →
      ∃ b, x = .ok b ∧ P b := fun h => h.exists_ok fun _ hc => hc.elim
  refine ⟨fun _ => Pyramid.depth_le, ?_, ?_, ?_, ?_, Raster.lookupsInside format κ⟩
  · intro source placement columns rows mask levels fillHoles hplacement hfit
    obtain ⟨pyramid, hpyramid, -⟩ :=
      hnone (Pyramid.answers_build hplacement.roomy hfit columns rows fillHoles)
    exact ⟨pyramid, hpyramid⟩
  · obtain ⟨frames, hframes, rfl⟩ := hnone (Footprint.levels_answers harea.roomy.full hroom)
    obtain ⟨padded, hpadded, -⟩ := hnone (Footprint.padded_answers harea.roomy.bounded hlevels)
    exact ⟨_, padded, hframes, hpadded⟩
  · refine ensures_blend_of_roomy (Logic.plain _) harea.roomy hlevels fun s hs =>
      (hsources s hs).blendable ?_ ?_
    · exact fun cause hc => ⟨s, hs, .inl hc⟩
    · exact fun cause hc => ⟨s, hs, .inr hc⟩
  · refine ensures_draft_of_roomy (Logic.plain _) harea.roomy fun s hs =>
      (hsources s hs).draftable ?_
    exact fun place cause hc => ⟨s, hs, place, hc⟩

/-- Two grey pixels at the far end of the sane range, in a mosaic of 28 levels. -/
def outpost : PatchSource Outcome .grayAlpha ℚ where
  placement := ⟨-268435456, 268435455, 2, 1⟩
  resident := false
  pyramid := Pyramid.build (Raster.tabulate 2 1 fun _ _ => ⟨#v[1 / 3, 2 / 3]⟩)
    ⟨-268435456, 268435455, 2, 1⟩ 2 1 (Raster.tabulate 2 1 fun _ _ => 1) 28 false
  alpha := .ok (Raster.tabulate 2 1 fun _ _ => 2 / 3)
  pixels := Raster.blankFor

/-- The patch around them is blended. -/
theorem answers_of_sane_outpost :
    Rect.Sane ⟨-268435456, 268435454, 2, 2⟩ ∧ outpost.Proper ∧
      ∃ out, blend ⟨-268435456, 268435454, 2, 2⟩ ⟨28, false, 2, 1⟩ [outpost] = .ok out ∧
        out.Fills ⟨-268435456, 268435454, 2, 2⟩ := by
  have harea : Rect.Sane ⟨-268435456, 268435454, 2, 2⟩ := by decide
  have hplacement : Rect.Sane ⟨-268435456, 268435455, 2, 1⟩ := by decide
  have hfit : Pyramid.Fitting (Raster.tabulate 2 1 fun _ _ => ⟨#v[1 / 3, 2 / 3]⟩ :
      Raster (Pixel .grayAlpha ℚ)) ⟨-268435456, 268435455, 2, 1⟩
      (Raster.tabulate 2 1 fun _ _ => (1 : ℚ)) 28 := ⟨by decide, ⟨rfl, rfl⟩, ⟨rfl, rfl⟩⟩
  have hproper : outpost.Proper := by
    refine ⟨hplacement, fun pyramid hpyramid => ⟨_, _, 2, 1, 28, false, hfit, hpyramid⟩, ?_⟩
    rintro place raw hraw
    rw [((Raster.ends_blankFor place).of_ok hraw).1]
    exact Raster.fills_zeros place
  have hsources : ∀ s ∈ [outpost], s.Proper := List.forall_mem_singleton.mpr hproper
  have hlevels : (⟨28, false, 2, 1⟩ : PatchParams).levels ≤ 28 := by decide
  obtain ⟨-, hbuild, -, hblend, -⟩ := answers_of_sane harea hlevels hsources
  refine ⟨harea, hproper, hblend.exists_ok ?_⟩
  rintro cause ⟨s, hs, hc⟩
  rw [List.mem_singleton.mp hs] at hc
  obtain ⟨pyramid, hpyramid⟩ := hbuild _ _ 2 1 _ 28 false hplacement hfit
  rcases hc with hc | hc
  · cases hpyramid.symm.trans hc
  · cases hc

end Patch

end Patchwork
