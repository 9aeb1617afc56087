import Patchwork.Patch.Accumulator
import Patchwork.Proofs.Patch.Footprint
import Patchwork.Proofs.Raster.Plane

/-!
# Layers in the plane

A layer over a rectangle shows a part of a sum and of a weight that are functions on the whole
plane.  Adding a band changes these functions only where the band lies, and the image of the layers
at a point depends on nothing but the functions: the rectangles drop out.

## Main definitions

* `Layer.Shows` — the sum and weight that a layer holds over its rectangle.
* `weightedMean` — the value of a level at a point.
* `collapseFrom` — the image of the levels from one on, point by point.

## Main statements

* `Layer.ends_addLevels` — adding a source, level by level.
* `Layer.ends_collapse` — putting the levels together again.
* `collapseFrom_congr` — what the image reads of each level.
-/

namespace Patchwork

open Outcome Coordinate

variable {κ α : Type} {format : Format}

/-- Neither side is larger than a coordinate can say. -/
structure Rect.Sized (r : Rect) : Prop where
  /-- The width is a coordinate. -/
  width : r.width ≤ highest
  /-- The height is a coordinate. -/
  height : r.height ≤ highest

theorem Rect.Sized.of_subset {a b : Rect} (h : b.Sized) (ha : ¬ a.IsEmpty) (hab : a ⊆ b) :
    a.Sized := by
  obtain ⟨_, _⟩ := h
  obtain ⟨_, _, _, _⟩ := within_of_subset ha hab
  constructor <;> omega

theorem Rect.Sized.half {r : Rect} (h : r.Sized) : (half r).Sized := by
  obtain ⟨hw, hh⟩ := h
  simp only [highest] at hw hh
  by_cases he : r.IsEmpty
  · constructor <;> simp [Rect.half, he, clamped, highest]
  · rw [half_of_not_isEmpty he]
    constructor <;> simp only [highest] <;> omega

theorem Rect.Sized.half_iterate {r : Rect} (h : r.Sized) (k : Nat) : (Rect.half^[k] r).Sized := by
  induction k generalizing r with
  | zero => exact h
  | succ k ih => exact ih h.half

/-- A raster's own rectangle, moved onto the rectangle it fills, holds the same points. -/
theorem Raster.Fills.mem_moved {r : Raster α} {frame : Rect} (h : r.Fills frame)
    (hsize : frame.Sized) {p : Point} :
    p ∈ (⟨r.bounds.x + frame.x, r.bounds.y + frame.y, r.bounds.width, r.bounds.height⟩ : Rect) ↔
      p ∈ frame := by
  obtain ⟨hw, hh⟩ := hsize
  obtain ⟨hc, hr⟩ := h
  simp only [Rect.columns, Rect.rows, highest] at hw hh hc hr
  simp only [Rect.mem_iff, bounds, Rect.ofSize, Rect.clamped, ofSide, highest]
  omega

/-- Merging changes the cells where the image lies over the window, each once. -/
theorem Placed.ends_mergeInto [Cell κ α] (p : Placed α) {target : Raster α} {frame : Rect}
    (hfills : target.Fills frame) (hsize : frame.Sized) (f : α → α → α) :
    Ends IsOverflow
      (fun r => r.Fills frame ∧ ∀ q, q ∈ frame → r.cell frame q =
        if q ∈ p.frame then f (target.cell frame q) (p.raster.cell p.frame q)
        else target.cell frame q)
      (p.mergeInto target frame.x frame.y f) := by
  refine (Rect.ends_translate _ _ _).bind_eq ?_
  refine (Rect.ends_intersect _ _).bind_eq ?_
  refine ⟨Raster.fills_update hfills _ _, ?_⟩
  intro q hq
  have hx : q.x - frame.x + frame.x = q.x := by omega
  have hy : q.y - frame.y + frame.y = q.y := by omega
  rw [Raster.cell_update hfills _ _ hq]
  simp only [Rect.mem_meet, hfills.mem_moved hsize, hq, and_true, hx, hy, Raster.cell]

/-! ## Adding bands -/

variable [Channel κ]

/-- The sum and the weight that a layer holds, as functions on the plane. -/
structure Layer.Shows (layer : Layer format κ) (frame : Rect) (sum : Point → Pixel format κ)
    (weight : Point → κ) : Prop where
  /-- The layer covers the rectangle. -/
  frame_eq : layer.frame = frame
  /-- The sum fills it. -/
  sum_fills : layer.sum.Fills frame
  /-- The weight fills it. -/
  weight_fills : layer.weight.Fills frame
  /-- The cells of the sum. -/
  sum_cell : ∀ q, q ∈ frame → layer.sum.cell frame q = sum q
  /-- The cells of the weight. -/
  weight_cell : ∀ q, q ∈ frame → layer.weight.cell frame q = weight q

/-- A value of the plane with a placed image added where the image lies. -/
def Placed.plus [Cell κ α] (p : Placed α) (q : Point) (value : α) : α :=
  if q ∈ p.frame then value + p.raster.cell p.frame q else value

namespace Layer

theorem Shows.congr {layer : Layer format κ} {frame : Rect} {sum sum' : Point → Pixel format κ}
    {weight weight' : Point → κ} (h : layer.Shows frame sum weight)
    (hsum : ∀ q, q ∈ frame → sum q = sum' q) (hweight : ∀ q, q ∈ frame → weight q = weight' q) :
    layer.Shows frame sum' weight' :=
  ⟨h.frame_eq, h.sum_fills, h.weight_fills, fun q hq => (h.sum_cell q hq).trans (hsum q hq),
    fun q hq => (h.weight_cell q hq).trans (hweight q hq)⟩

theorem ends_add {layer : Layer format κ} {frame : Rect} {sum : Point → Pixel format κ}
    {weight : Point → κ} (h : layer.Shows frame sum weight) (hsize : frame.Sized)
    (level : Pyramid.Level format κ) :
    Ends IsOverflow
      (·.Shows frame (fun q => level.image.plus q (sum q)) fun q => level.mask.plus q (weight q))
      (layer.add level) := by
  obtain ⟨rfl, hsum, hweight, hsumcell, hweightcell⟩ := h
  apply (level.image.ends_mergeInto hsum hsize (· + ·)).bind
  rintro s ⟨hs, hscell⟩
  apply (level.mask.ends_mergeInto hweight hsize (· + ·)).bind
  rintro w ⟨hw, hwcell⟩
  refine ⟨rfl, hs, hw, ?_, ?_⟩
  · intro q hq
    rw [hscell q hq, hsumcell q hq, Placed.plus]
  · intro q hq
    rw [hwcell q hq, hweightcell q hq, Placed.plus]

/-- Adding the levels of a source brings each layer from what holds of it to what holds of it with
its level added. -/
theorem ends_addLevels {E : Failure → Prop} {P Q : Nat → Layer format κ → Prop}
    {layers : List (Layer format κ)} {levels : List (Pyramid.Level format κ)}
    (h : ∀ k layer, layers[k]? = some layer → P k layer)
    (hadd : ∀ k layer level, levels[k]? = some level → P k layer → Ends E (Q k) (layer.add level))
    (hskip : ∀ k layer, levels[k]? = none → P k layer → Q k layer) :
    Ends E (fun result => result.length = layers.length ∧
        ∀ k layer, result[k]? = some layer → Q k layer) (addLevels layers levels) := by
  induction layers generalizing levels P Q with
  | nil => exact ⟨rfl, fun k layer hk => by simp at hk⟩
  | cons layer layers ih =>
    cases levels with
    | nil => exact ⟨rfl, fun k layer hk => hskip k layer rfl (h k layer hk)⟩
    | cons level levels =>
      apply (hadd 0 layer level rfl (h 0 layer rfl)).bind
      intro layer' hlayer'
      refine (ih (P := fun k => P (k + 1)) (Q := fun k => Q (k + 1))
        (fun k => h (k + 1)) (fun k => hadd (k + 1)) fun k => hskip (k + 1)).bind ?_
      rintro result ⟨hlength, hresult⟩
      refine ⟨by simp [hlength], ?_⟩
      intro k layer hk
      cases k with
      | zero =>
        simp only [List.getElem?_cons_zero, Option.some.injEq] at hk
        exact hk ▸ hlayer'
      | succ k => exact hresult k layer hk

end Layer

/-! ## Putting the levels together -/

/-- The mean that a sum and a weight make; zero without weight. -/
def weightedMean (sum : Pixel format κ) (weight : κ) : Pixel format κ :=
  match Channel.ratio? 1 weight with
  | some inverse => scale sum inverse
  | none => 0

/-- The image of the levels from `k` on, of which `coarser` follow, at a point of level `k`. -/
def collapseFrom (mean : Nat → Point → Pixel format κ) : Nat → Nat → Point → Pixel format κ
  | 0, k => mean k
  | coarser + 1, k => fun q =>
    mean k q + Raster.stretchAt (collapseFrom mean coarser (k + 1)) q

/-- The image over a rectangle reads each level only over the rectangle halved to that level. -/
theorem collapseFrom_congr {mean mean' : Nat → Point → Pixel format κ} {area : Rect}
    {coarser k : Nat}
    (h : ∀ i ≤ coarser, ∀ q, q ∈ Rect.half^[i] area → mean (k + i) q = mean' (k + i) q)
    {q : Point} (hq : q ∈ area) :
    collapseFrom mean coarser k q = collapseFrom mean' coarser k q := by
  induction coarser generalizing k area q with
  | zero => exact h 0 (Nat.le_refl 0) q hq
  | succ coarser ih =>
    have hhere := h 0 (Nat.zero_le _) q hq
    simp only [collapseFrom]
    rw [Nat.add_zero] at hhere
    rw [hhere]
    congr 1
    apply Raster.stretchAt_congr
    intro r hr
    refine ih ?_ (Rect.mem_half_of_spreads hq hr)
    intro i hi s hs
    have hindex : k + 1 + i = k + (i + 1) := by omega
    rw [hindex]
    exact h (i + 1) (by omega) s hs

namespace Layer

theorem fills_normalized {layer : Layer format κ} {frame : Rect} {sum : Point → Pixel format κ}
    {weight : Point → κ} (h : layer.Shows frame sum weight) : layer.normalized.Fills frame :=
  h.sum_fills

theorem cell_normalized {layer : Layer format κ} {frame : Rect} {sum : Point → Pixel format κ}
    {weight : Point → κ} (h : layer.Shows frame sum weight) {q : Point} (hq : q ∈ frame) :
    layer.normalized.cell frame q = weightedMean (sum q) (weight q) := by
  rw [normalized, Raster.cell_zipWith h.sum_fills h.weight_fills hq, h.sum_cell q hq,
    h.weight_cell q hq]
  rfl

/-- Memory can hold the rasters that putting `levels` levels together makes. -/
def CollapseRoom (format : Format) (κ : Type) [Channel κ] (area : Rect) (levels : Nat) : Prop :=
  ∀ k, k + 1 < levels → Raster.StretchRoom (Pixel format κ) (Rect.half^[k] area)

/-- **The image of the layers** at a point is the image of their sums and weights in the plane. -/
theorem ends_collapse {area : Rect} {layers : List (Layer format κ)} {coarser k : Nat}
    {sum : Nat → Point → Pixel format κ} {weight : Nat → Point → κ}
    (hlength : layers.length = coarser + 1)
    (h : ∀ i (layer : Layer format κ), layers[i]? = some layer →
      layer.Shows (Rect.half^[i] area) (sum (k + i)) (weight (k + i))) :
    Ends (fun cause => IsOverflow cause ∨
        cause = .fault .capacity ∧ ¬ CollapseRoom format κ area (coarser + 1))
      (fun out => CollapseRoom format κ area (coarser + 1) ∧ out.Fills area ∧
        ∀ q, q ∈ area → out.cell area q =
          collapseFrom (fun i q => weightedMean (sum i q) (weight i q)) coarser k q)
      (collapse layers) := by
  induction coarser generalizing area layers k with
  | zero =>
    obtain ⟨layer, rfl⟩ := List.length_eq_one_iff.mp hlength
    have hlayer := h 0 layer rfl
    refine ⟨fun i hi => by omega, fills_normalized hlayer, ?_⟩
    intro q hq
    exact cell_normalized hlayer hq
  | succ coarser ih =>
    obtain ⟨layer, rest, rfl⟩ := List.exists_cons_of_length_eq_add_one hlength
    obtain ⟨next, rest, rfl⟩ :=
      List.exists_cons_of_length_eq_add_one (Nat.add_right_cancel hlength)
    have hlayer : layer.Shows area (sum k) (weight k) := h 0 layer rfl
    have hnext : next.Shows (Rect.half area) (sum (k + 1)) (weight (k + 1)) := h 1 next rfl
    have hroom : CollapseRoom format κ area (coarser + 1 + 1) ↔
        Raster.StretchRoom (Pixel format κ) area ∧
          CollapseRoom format κ (Rect.half area) (coarser + 1) := by
      constructor
      · exact fun hr => ⟨hr 0 (by omega), fun i hi => hr (i + 1) (by omega)⟩
      · rintro ⟨hr, hrs⟩ i hi
        cases i with
        | zero => exact hr
        | succ i => exact hrs i (by omega)
    have hrest := @ih (Rect.half area) (next :: rest) (k + 1)
      (Nat.add_right_cancel hlength) fun i layer hi => by
        have hindex : k + 1 + i = k + (i + 1) := by omega
        rw [hindex]
        exact h (i + 1) layer hi
    refine (hrest.weaken ?_).bind ?_
    · rintro cause (hc | ⟨hc, hshort⟩)
      · exact .inl hc
      · exact .inr ⟨hc, fun hr => hshort (hroom.mp hr).2⟩
    rintro below ⟨hrooms, hbelow, hcells⟩
    rw [hlayer.frame_eq, hnext.frame_eq]
    refine ((Raster.ends_expand below _ _).weaken ?_).bind ?_
    · rintro cause (hc | ⟨hc, hshort⟩)
      · exact .inl hc
      · exact .inr ⟨hc, fun hr => hshort (hroom.mp hr).1⟩
    rintro _ ⟨rfl, hstretch⟩
    refine ⟨hroom.mpr ⟨hstretch, hrooms⟩, fills_normalized hlayer, ?_⟩
    intro q hq
    have hup := Raster.fills_stretch below (Rect.half area) area
    rw [Raster.cell_zipWith (fills_normalized hlayer) hup hq, cell_normalized hlayer hq,
      Raster.cell_stretch below (Rect.half area) hq, collapseFrom]
    congr 1
    exact Raster.stretchAt_congr fun r hr => hcells r (Rect.mem_half_of_spreads hq hr)

end Layer

end Patchwork
