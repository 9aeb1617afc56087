import Mathlib.Data.List.Induction
import Patchwork.Proofs.Composite.Sources
import Patchwork.Proofs.Patch.Tiles

/-!
# Pieces laid over one another

A draft asks each source for the part of its pixels that lies in the patch, and lays these over one
another.  At a single point this is a fold over the pieces that cover the point: which rectangle the
patch has, and where its corner lies, drops out.

The sources are asked in whatever monad makes their images, so all this holds for any notion of
postcondition.

## Main definitions

* `Piece.layered`, `Piece.draft` — the pieces laid over one another, at a point and in a rectangle.
* `PatchSource.Shows` — a source of a patch gives the pixels of a piece.

## Main statements

* `Patch.ensures_draft` — a draft shows the pieces laid over one another.
-/

namespace Patchwork

open Outcome

variable {κ : Type} {format : Format}

namespace Rect

/-- A rectangle given relative to the corner of another. -/
def placedIn (r frame : Rect) : Rect := ⟨r.x + frame.x, r.y + frame.y, r.width, r.height⟩

end Rect

namespace Piece

/-- The piece relative to the corner of a rectangle. -/
def seenFrom (frame : Rect) (piece : Piece format κ) : Piece format κ :=
  ⟨piece.placement.seenFrom frame, piece.raster⟩

variable [Channel κ]

/-- The pieces that cover a point, each laid over those before it. -/
def layered (pieces : List (Piece format κ)) (p : Point) : Pixel format κ :=
  (pieces.filter (p ∈ ·.placement)).foldl
    (fun below piece => Pixel.layer below (piece.raster.cell piece.placement p)) 0

/-- The pieces laid over one another in a rectangle; a pixel becomes zero when some channel is no
number. -/
def draft (pieces : List (Piece format κ)) (area : Rect) : Raster (Pixel format κ) :=
  Raster.tabulate area.columns area.rows fun i j =>
    (layered pieces ⟨area.x + i, area.y + j⟩).sanitized

variable {pieces : List (Piece format κ)} {area frame : Rect} {p : Point}

theorem layered_concat (pieces : List (Piece format κ)) (piece : Piece format κ) (p : Point) :
    layered (pieces ++ [piece]) p =
      if p ∈ piece.placement then
        Pixel.layer (layered pieces p) (piece.raster.cell piece.placement p)
      else layered pieces p := by
  by_cases hp : p ∈ piece.placement
  · simp [layered, List.filter_append, hp]
  · simp [layered, List.filter_append, hp]

theorem fills_draft (pieces : List (Piece format κ)) (area : Rect) :
    (draft pieces area).Fills area :=
  Raster.fills_tabulate area _

theorem cell_draft (hp : p ∈ area) :
    (draft pieces area).cell area p = (layered pieces p).sanitized := by
  have hat : (⟨area.x + (p.x - area.x).toNat, area.y + (p.y - area.y).toNat⟩ : Point) = p := by
    rw [Rect.mem_iff] at hp
    obtain ⟨x, y⟩ := p
    simp only [Point.mk.injEq] at hp ⊢
    omega
  rw [draft, Raster.cell_tabulate hp, hat]

/-- Pieces are laid over one another in the same way wherever they are seen from. -/
theorem layered_seenFrom (pieces : List (Piece format κ)) (frame : Rect) (p : Point) :
    layered (pieces.map (seenFrom frame)) p = layered pieces ⟨p.x + frame.x, p.y + frame.y⟩ := by
  induction pieces using List.reverseRecOn with
  | nil => rfl
  | append_singleton pieces piece ih =>
    have hmem : p ∈ (piece.seenFrom frame).placement ↔
        (⟨p.x + frame.x, p.y + frame.y⟩ : Point) ∈ piece.placement := by
      simp only [seenFrom, Rect.seenFrom, Rect.mem_iff]
      omega
    have hcell : (piece.seenFrom frame).raster.cell (piece.seenFrom frame).placement p =
        piece.raster.cell piece.placement ⟨p.x + frame.x, p.y + frame.y⟩ := by
      simp only [seenFrom, Rect.seenFrom, Raster.cell]
      congr 1 <;> omega
    rw [List.map_append, List.map_singleton, layered_concat, layered_concat, ih, hcell]
    simp only [hmem]

theorem draft_seenFrom (pieces : List (Piece format κ)) (frame area : Rect) :
    draft (pieces.map (seenFrom frame)) area = draft pieces (area.placedIn frame) := by
  apply Raster.ext_cell (fills_draft _ area) (fills_draft pieces (area.placedIn frame))
  intro p hp
  have hplaced : (⟨p.x + frame.x, p.y + frame.y⟩ : Point) ∈ area.placedIn frame := by
    rw [Rect.mem_iff] at hp
    simp only [Rect.placedIn, Rect.mem_iff]
    omega
  have hcell : (draft pieces (area.placedIn frame)).cell area p =
      (draft pieces (area.placedIn frame)).cell (area.placedIn frame)
        ⟨p.x + frame.x, p.y + frame.y⟩ := by
    simp only [Rect.placedIn, Raster.cell]
    congr 1 <;> omega
  rw [cell_draft hp, layered_seenFrom, hcell, cell_draft hplaced]

theorem fills_draft_placedIn (pieces : List (Piece format κ)) (area frame : Rect) :
    (draft pieces (area.placedIn frame)).Fills area :=
  fills_draft pieces (area.placedIn frame)

/-- A pixel of a rectangle that is given relative to a frame. -/
theorem cell_draft_placedIn (hp : p ∈ area) :
    (draft pieces (area.placedIn frame)).cell area p =
      (layered pieces ⟨p.x + frame.x, p.y + frame.y⟩).sanitized := by
  rw [← draft_seenFrom, cell_draft hp, layered_seenFrom]

end Piece

/-! ## Drafts -/

variable {m : Type → Type} [Monad m] [MonadLiftT Outcome m] {E : Failure → Prop} [Channel κ]

/-- A source of a patch gives the pixels of a piece. -/
structure PatchSource.Shows (L : Logic m E) (source : PatchSource m format κ)
    (piece : Piece format κ) : Prop where
  /-- It lies where the piece lies. -/
  placement : source.placement = piece.placement
  /-- Its pixels are those of the piece. -/
  pixels : ∀ place, L.Ensures (· = piece.raster.cut place) (source.pixels place)

namespace Patch

variable (L : Logic m E) (hrange : ∀ cause, IsRange cause → E cause) {area : Rect}
  (hsize : area.Sized)

include hrange hsize

/-- One source is laid over the patch where it lies. -/
theorem ensures_overlay (params : PatchParams) {source : PatchSource m format κ}
    {piece : Piece format κ} (hsource : source.Shows L piece) {patch : Raster (Pixel format κ)}
    (hfills : patch.Fills area) :
    L.Ensures (fun r => r.Fills area ∧ ∀ q, q ∈ area → r.cell area q =
        if q ∈ piece.placement then
          Pixel.layer (patch.cell area q) (piece.raster.cell piece.placement q)
        else patch.cell area q)
      (overlay area params patch source) := by
  have hover : ∀ cause, IsOverflow cause → E cause := fun cause hc => hrange cause hc.isRange
  unfold overlay
  rw [hsource.placement]
  refine L.bind_eq (L.lift ((Rect.ends_intersect _ area).weaken hover)) ?_
  by_cases hempty : (piece.placement.meet area).IsEmpty
  · rw [if_pos hempty]
    refine L.pure ⟨hfills, ?_⟩
    intro q hq
    rw [if_neg fun hmem => Rect.isEmpty_iff.mp hempty q (Rect.mem_meet.mpr ⟨hmem, hq⟩)]
  rw [if_neg hempty]
  let overlap := piece.placement.meet area
  let place : Rect := overlap.seenFrom piece.placement
  refine L.bind_eq (L.lift ((Rect.ends_relativeTo overlap piece.placement).weaken hover)) ?_
  refine L.bind_eq (hsource.pixels place) ?_
  -- the source is asked for the overlap in its own coordinates, and answers with the piece's cells
  have hraw : (piece.raster.cut place).Fills overlap := Raster.fills_cut piece.raster place
  have hplaced : Ends E (· = Placed.mk (piece.raster.cut place) overlap params.columns params.rows
      hraw) (Placed.place (piece.raster.cut place) overlap params.columns params.rows) := by
    rw [Placed.place, dif_pos hraw]
    exact rfl
  refine L.bind_eq (L.lift hplaced) (L.lift ?_)
  refine ((Placed.ends_mergeInto _ hfills hsize Pixel.layer).weaken hover).imp ?_
  rintro r ⟨hr, hcells⟩
  refine ⟨hr, ?_⟩
  intro q hq
  rw [hcells q hq]
  by_cases hmem : q ∈ piece.placement
  · have hover : q ∈ overlap := Rect.mem_meet.mpr ⟨hmem, hq⟩
    have hcut : (piece.raster.cut place).cell overlap q = piece.raster.cell piece.placement q :=
      Raster.cell_cut hover
    rw [if_pos hmem, if_pos hover, hcut]
  · rw [if_neg hmem, if_neg fun hover => hmem (Rect.mem_meet.mp hover).1]

/-- The sources of some pieces are laid over those of others. -/
theorem ensures_overlays (params : PatchParams) {sources : List (PatchSource m format κ)}
    {pieces done : List (Piece format κ)}
    (hsources : List.Forall₂ (PatchSource.Shows L) sources pieces)
    {patch : Raster (Pixel format κ)} (hfills : patch.Fills area)
    (hcells : ∀ q, q ∈ area → patch.cell area q = Piece.layered done q) :
    L.Ensures (fun r => r.Fills area ∧
        ∀ q, q ∈ area → r.cell area q = Piece.layered (done ++ pieces) q)
      (sources.foldlM (overlay area params) patch) := by
  induction hsources generalizing done patch with
  | nil =>
    rw [List.append_nil]
    exact L.pure ⟨hfills, hcells⟩
  | @cons source piece sources pieces hsource _ ih =>
    rw [List.foldlM_cons, ← List.singleton_append, ← List.append_assoc]
    apply L.bind (ensures_overlay L hrange hsize params hsource hfills)
    rintro patch' ⟨hfills', hcells'⟩
    refine ih hfills' fun q hq => ?_
    rw [hcells' q hq, hcells q hq, Piece.layered_concat]

/-- **A draft** shows the pieces laid over one another. -/
theorem ensures_draft (params : PatchParams) {sources : List (PatchSource m format κ)}
    {pieces : List (Piece format κ)}
    (hsources : List.Forall₂ (PatchSource.Shows L) sources pieces) :
    L.Ensures (· = Piece.draft pieces area) (draft area params sources) := by
  unfold draft
  apply L.bind
    (L.lift ((Raster.ends_blankFor area).weaken fun cause hc => hrange cause (.inr hc.1)))
  rintro _ ⟨rfl, -⟩
  have hzeros : ∀ q, q ∈ area →
      (Raster.zeros area.columns area.rows).cell area q =
        Piece.layered ([] : List (Piece format κ)) q :=
    fun q _ => Raster.cell_zeros ..
  apply L.bind (ensures_overlays L hrange hsize params hsources (Raster.fills_zeros area) hzeros)
  rintro patch ⟨hfills, hcells⟩
  apply L.pure
  have hsanitized : (patch.map Pixel.sanitized).Fills area := hfills
  apply Raster.ext_cell hsanitized (Piece.fills_draft pieces area)
  intro q hq
  rw [Raster.cell_map hfills hq, hcells q hq, List.nil_append, Piece.cell_draft hq]

end Patch

end Patchwork
