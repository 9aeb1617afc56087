import Patchwork.Placed
import Patchwork.Proofs.Patch.Layers
import Patchwork.Patch.Basic

/-!
# Every position looked up lies inside

The operations on rasters read zero outside a raster and change nothing there.  Where one raster is
merged into another, raised by a coverage or doubled, this is never made use of: a variant of the
operation that stops at the first position outside a raster gives the same answer.

## Main definitions

* `Raster.fetch`, `Raster.alter` — a cell read or changed, if there is one.
* `Placed.mergeStrictly`, `Patch.raiseStrictly`, `Raster.betweenStrictly` — the operations built on
  them.

## Main statements

* `Placed.mergeStrictly_eq`, `Patch.raiseStrictly_eq`, `Raster.betweenStrictly_eq`
* `Raster.lookupsInside` — the three together.
-/

namespace Patchwork

open Outcome Coordinate

variable {κ α : Type}

namespace Raster

/-- The cell at a position inside the raster. -/
def fetch [Zero α] (r : Raster α) (x y : Int) : Outcome α := do
  Outcome.require (r.Has x y) (.fault .outOfBounds)
  return r.peek x y

/-- The raster with the cell changed at a position inside it. -/
def alter (r : Raster α) (x y : Int) (f : α → α) : Outcome (Raster α) := do
  Outcome.require (r.Has x y) (.fault .outOfBounds)
  return r.modify x y f

theorem fetch_of_has [Zero α] {r : Raster α} {x y : Int} (h : r.Has x y) :
    r.fetch x y = .ok (r.peek x y) := by
  simp only [fetch, require_eq_ok_iff.mpr h]
  rfl

theorem alter_of_has {r : Raster α} {x y : Int} {f : α → α} (h : r.Has x y) :
    r.alter x y f = .ok (r.modify x y f) := by
  simp only [alter, require_eq_ok_iff.mpr h]
  rfl

/-- Changing the cells at positions that all lie inside never stops. -/
theorem foldlM_alter {f : Point → α → α} {x y : Int} {l : List Point} {r : Raster α}
    {step : Raster α → Point → Outcome (Raster α)}
    (hstep : ∀ q ∈ l, ∀ s : Raster α, s.width = r.width → s.height = r.height →
      step s q = .ok (s.modify (q.x - x) (q.y - y) (f q))) :
    l.foldlM step r =
      .ok (l.foldl (fun s q => s.modify (q.x - x) (q.y - y) (f q)) r) := by
  induction l generalizing r with
  | nil => rfl
  | cons q l ih =>
    obtain ⟨hq, hl⟩ := List.forall_mem_cons.mp hstep
    rw [List.foldlM_cons, hq r rfl rfl, List.foldl_cons]
    refine ih ?_
    intro p hp s hw hh
    exact hl p hp s (hw.trans (width_modify ..)) (hh.trans (height_modify ..))

end Raster

/-- The points of a rectangle moved by an offset. -/
theorem Rect.points_moved (r : Rect) (x y : Int) :
    (⟨r.x - x, r.y - y, r.width, r.height⟩ : Rect).points =
      r.points.map fun q => ⟨q.x - x, q.y - y⟩ := by
  simp only [points, area, columns, rows, List.map_map]
  apply List.map_congr_left
  intro k _
  simp only [Function.comp, Point.mk.injEq]
  omega

/-- An update over a rectangle given relative to a corner, point by point. -/
theorem Raster.update_moved (r : Raster α) (area : Rect) (x y : Int) (f : Int → Int → α → α) :
    r.update ⟨area.x - x, area.y - y, area.width, area.height⟩ f =
      area.points.foldl (fun s q => s.modify (q.x - x) (q.y - y) (f (q.x - x) (q.y - y))) r := by
  rw [update_eq_foldl, Rect.points_moved, List.foldl_map]

/-! ## Merging -/

namespace Placed

variable [Cell κ α]

/-- `mergeInto`, stopping at a position outside one of the rasters. -/
def mergeStrictly (p : Placed α) (target : Raster α) (x y : Int) (f : α → α → α) :
    Outcome (Raster α) := do
  let window ← target.bounds.translate x y
  let overlap ← p.frame.intersect window
  overlap.points.foldlM (fun merged q => do
    let above ← p.raster.fetch (q.x - p.frame.x) (q.y - p.frame.y)
    merged.alter (q.x - x) (q.y - y) fun cell => f cell above) target

/-- A point of the window onto the canvas is a cell of the raster behind it. -/
theorem has_of_mem_window {target : Raster α} {x y : Int} {q : Point}
    (h : q ∈ (⟨target.bounds.x + x, target.bounds.y + y, target.bounds.width,
      target.bounds.height⟩ : Rect)) : target.Has (q.x - x) (q.y - y) := by
  simp only [Rect.mem_iff, Raster.bounds, Rect.ofSize, Rect.clamped, ofSide, highest] at h
  rw [Raster.has_iff]
  omega

/-- **Merging looks up no position outside a raster.** -/
theorem mergeStrictly_eq (p : Placed α) (target : Raster α) (x y : Int) (f : α → α → α) :
    p.mergeStrictly target x y f = p.mergeInto target x y f := by
  unfold mergeStrictly mergeInto
  cases hwindow : target.bounds.translate x y with
  | error cause => rfl
  | ok window =>
    cases hoverlap : p.frame.intersect window with
    | error cause => simp only [bind, Except.bind, hoverlap]
    | ok overlap =>
      have hwindow := (Rect.ends_translate _ _ _).of_ok hwindow
      have hmeet := (Rect.ends_intersect _ _).of_ok hoverlap
      have hstep : ∀ q ∈ overlap.points, ∀ s : Raster α, s.width = target.width →
          s.height = target.height →
          (do let above ← p.raster.fetch (q.x - p.frame.x) (q.y - p.frame.y)
              s.alter (q.x - x) (q.y - y) fun cell => f cell above) =
            .ok (s.modify (q.x - x) (q.y - y) fun cell =>
              f cell (p.raster.peek (q.x - x + x - p.frame.x) (q.y - y + y - p.frame.y))) := by
        intro q hq s hw hh
        rw [Rect.mem_points, hmeet, Rect.mem_meet, hwindow] at hq
        have htarget := has_of_mem_window hq.2
        rw [Raster.has_iff, ← hw, ← hh, ← Raster.has_iff] at htarget
        rw [Raster.fetch_of_has (p.fills.has_iff_mem.mpr hq.1), Int.sub_add_cancel,
          Int.sub_add_cancel]
        exact Raster.alter_of_has htarget
      simp only [bind, Except.bind, hoverlap, pure, Except.pure]
      rw [Raster.update_moved]
      exact Raster.foldlM_alter hstep

end Placed

/-! ## Raising to a coverage -/

namespace Patch

variable [Channel κ]

/-- `raiseTo`, stopping at a position outside the raster that is raised. -/
def raiseStrictly (highest alpha : Raster κ) (placement overlap area : Rect) :
    Outcome (Raster κ) :=
  overlap.points.foldlM (fun raised q =>
    raised.alter (q.x - area.x) (q.y - area.y) fun cell =>
      Channel.larger cell (alpha.peek (q.x - placement.x) (q.y - placement.y))) highest

/-- **Raising looks up no position outside the raster that is raised.** -/
theorem raiseStrictly_eq {highest : Raster κ} {area : Rect} (h : highest.Fills area)
    (alpha : Raster κ) (placement : Rect) :
    raiseStrictly highest alpha placement (Rect.meet placement area) area =
      .ok (raiseTo highest alpha placement (Rect.meet placement area) area) := by
  have hstep : ∀ q ∈ (Rect.meet placement area).points, ∀ s : Raster κ,
      s.width = highest.width → s.height = highest.height →
      (s.alter (q.x - area.x) (q.y - area.y) fun cell =>
        Channel.larger cell (alpha.peek (q.x - placement.x) (q.y - placement.y))) =
        .ok (s.modify (q.x - area.x) (q.y - area.y) fun cell =>
          Channel.larger cell (alpha.peek (q.x - area.x + area.x - placement.x)
            (q.y - area.y + area.y - placement.y))) := by
    intro q hq s hw hh
    rw [Rect.mem_points, Rect.mem_meet] at hq
    have hhas := h.has_iff_mem.mpr hq.2
    rw [Raster.has_iff, ← hw, ← hh, ← Raster.has_iff] at hhas
    rw [Int.sub_add_cancel, Int.sub_add_cancel]
    exact Raster.alter_of_has hhas
  rw [raiseTo, Raster.update_moved]
  exact Raster.foldlM_alter hstep

end Patch

/-! ## Doubling -/

namespace Raster

variable [Channel κ] [Cell κ α]

/-- `between`, with the samples looked up. -/
def betweenStrictly (sample : Int → Outcome α) (c : Int) : Outcome α := do
  if c % 2 = 0 then
    sample (c / 2)
  else
    return scale ((← sample (c / 2)) + (← sample (c / 2 + 1))) (0.5 : κ)

/-- **Doubling looks up no row but those it has made.** -/
theorem betweenStrictly_eq (coarse : Raster α) (frame : Rect) {target : Rect} {q : Point}
    (hq : q ∈ target) :
    betweenStrictly (fun c => (coarse.stretchRows frame target).fetch (q.x - target.x)
        (c - firstCoarseRow target)) q.y =
      .ok ((coarse.stretch frame target).cell target q) := by
  obtain ⟨hi, hj⟩ := Rect.toNat_lt_of_mem hq
  have hx : target.x ≤ q.x ∧ q.x < target.x + target.width := ⟨hq.1, hq.2.1⟩
  have hy : target.y ≤ q.y ∧ q.y < target.y + target.height := ⟨hq.2.2.1, hq.2.2.2⟩
  have hcolumn : ((q.x - target.x).toNat : Int) = q.x - target.x := by omega
  have hrow : target.y + ((q.y - target.y).toNat : Int) = q.y := by omega
  have hhas : ∀ c : Int, q.y / 2 ≤ c → 2 * c - 1 ≤ q.y →
      (coarse.stretchRows frame target).Has (q.x - target.x) (c - firstCoarseRow target) := by
    intro c hc hc'
    have hrows := has_stretchRows coarse frame hi hj (by omega) (by omega : _ ≤ 2 * c + 1)
    rwa [hcolumn] at hrows
  rw [stretch, cell_tabulate hq, hcolumn, hrow]
  by_cases heven : q.y % 2 = 0
  · have hhere := hhas (q.y / 2) (by omega) (by omega)
    simp only [betweenStrictly, between, heven, if_true]
    exact fetch_of_has hhere
  · have hhere := hhas (q.y / 2) (by omega) (by omega)
    have hbelow := hhas (q.y / 2 + 1) (by omega) (by omega)
    simp only [betweenStrictly, between, heven, if_false]
    rw [fetch_of_has hhere, fetch_of_has hbelow]
    rfl

/-- The operations behind a patch give what their variants give that stop at the first position
outside a raster. -/
structure LookupsInside (format : Format) (κ : Type) [Channel κ] : Prop where
  /-- Images are merged cell by cell. -/
  image : ∀ (p : Placed (Pixel format κ)) (target : Raster (Pixel format κ)) (x y : Int)
    (f : Pixel format κ → Pixel format κ → Pixel format κ),
    p.mergeStrictly target x y f = p.mergeInto target x y f
  /-- So are masks. -/
  mask : ∀ (p : Placed κ) (target : Raster κ) (x y : Int) (f : κ → κ → κ),
    p.mergeStrictly target x y f = p.mergeInto target x y f
  /-- Coverage is raised in the common part. -/
  coverage : ∀ (highest alpha : Raster κ) (placement area : Rect), highest.Fills area →
    Patch.raiseStrictly highest alpha placement (Rect.meet placement area) area =
      .ok (Patch.raiseTo highest alpha placement (Rect.meet placement area) area)
  /-- Doubling takes means of rows that exist. -/
  doubling : ∀ (coarse : Raster (Pixel format κ)) (frame target : Rect) (q : Point), q ∈ target →
    betweenStrictly (fun c => (coarse.stretchRows frame target).fetch (q.x - target.x)
        (c - firstCoarseRow target)) q.y =
      .ok ((coarse.stretch frame target).cell target q)

theorem lookupsInside (format : Format) (κ : Type) [Channel κ] : LookupsInside format κ where
  image p := p.mergeStrictly_eq
  mask p := p.mergeStrictly_eq
  coverage _ alpha placement _ h := Patch.raiseStrictly_eq h alpha placement
  doubling coarse frame _ _ hq := betweenStrictly_eq coarse frame hq

end Raster

end Patchwork
