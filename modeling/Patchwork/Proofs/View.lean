import Patchwork.Proofs.Patch.Tiles
import Patchwork.View

/-!
# Views outside their bounds

A request may reach past the view it is made to.  The views of rasters and functions read zero
there, and cropping keeps to the window whatever the view below would read.  A map changes what is
read outside just as it changes the pixels, so the coverage of a format without alpha is one
outside the bounds as well as inside, until the next crop.

## Main definitions

* `View.Has` — the points of a view.
* `View.Reads` — every answer has the size of its request, and one value outside the view.
* `Construction` — a base view with the crops and coverages taken of it.

## Main statements

* `View.Reads.crop`, `View.Reads.map` — one more step.
* `Construction.reads_outside` — any chain of steps.
-/

namespace Patchwork

open Outcome Coordinate

variable {κ α β : Type} {m : Type → Type} {format : Format}

namespace View

/-- The point is one of the pixels of the view. -/
def Has (v : View m α) (p : Point) : Prop :=
  0 ≤ p.x ∧ p.x < v.width ∧ 0 ≤ p.y ∧ p.y < v.height

/-- Every answer fills the rectangle that was asked for, and has one value outside the view. -/
def Reads [Zero α] (v : View Outcome α) (outside : α) : Prop :=
  ∀ area : Rect, area.Sized → Ends (fun _ => True)
    (fun raster => raster.Fills area ∧
      ∀ p, p ∈ area → ¬ v.Has p → raster.cell area p = outside) (v.rasterize area)

variable [Cell κ α]

theorem reads_ofRaster (r : Raster α) : (ofRaster r : View Outcome α).Reads 0 := by
  intro area _
  refine ((Raster.ends_region r area).weaken fun _ _ => trivial).imp ?_
  rintro _ rfl
  have hfills := r.fills_cut area
  refine ⟨hfills, fun p hp hout => ?_⟩
  rw [Raster.cell, Raster.peek_cut (hfills.has_iff_mem.mpr hp)]
  apply Raster.peek_eq_zero
  intro hhas
  have hx : area.x + (p.x - area.x) = p.x := by omega
  have hy : area.y + (p.y - area.y) = p.y := by omega
  rw [hx, hy] at hhas
  exact hout hhas

theorem reads_ofFunction (width height : Nat) (f : Nat → Nat → α) :
    (ofFunction width height f : View Outcome α).Reads 0 := by
  have hany : ∀ x : Outcome Unit, Ends (fun _ => True) (fun _ => True) x := by
    rintro (_ | _) <;> trivial
  intro area _
  refine (hany _).bind fun _ _ => ?_
  generalize hraster : Raster.tabulate area.columns area.rows _ = raster
  have hreads : raster.Fills area ∧
      ∀ p, p ∈ area → ¬ (ofFunction width height f : View Outcome α).Has p →
        raster.cell area p = 0 := by
    subst hraster
    refine ⟨Raster.fills_tabulate area _, fun p hp hout => ?_⟩
    rw [Raster.cell_tabulate hp, if_neg]
    rw [Rect.mem_iff] at hp
    simp only [Has, ofFunction] at hout
    simp only [ofSide]
    omega
  by_cases hcells : area.columns ≠ 0 ∧ area.rows ≠ 0
  · rw [if_pos hcells]
    exact (hany _).bind fun _ _ => (hany _).bind fun _ _ => hreads
  · rw [if_neg hcells]
    exact hreads

/-- The part of a request that lies in a window, pasted onto zeros, gives the pixels of the part at
the moved points and zero where they leave the window. -/
theorem exists_cropped {area window : Rect} (hsize : area.Sized)
    (hempty : ¬ (Rect.meet (area.moved window.x window.y) window).IsEmpty) {part : Raster α}
    (hpart : part.Fills (Rect.meet (area.moved window.x window.y) window)) :
    ∃ out, (Raster.zeros area.columns area.rows).paste part
        ((Rect.meet (area.moved window.x window.y) window).x - (area.moved window.x window.y).x)
        ((Rect.meet (area.moved window.x window.y) window).y - (area.moved window.x window.y).y) =
          .ok out ∧
      out.Fills area ∧ ∀ p : Point, p ∈ area →
        out.cell area p = if (⟨p.x + window.x, p.y + window.y⟩ : Point) ∈ window then
          part.cell (Rect.meet (area.moved window.x window.y) window)
            ⟨p.x + window.x, p.y + window.y⟩ else 0 := by
  set shifted := area.moved window.x window.y with hshifted
  have hsize' : shifted.Sized := ⟨hsize.width, hsize.height⟩
  have hsub : Rect.meet shifted window ⊆ shifted := fun p hp => (Rect.mem_meet.mp hp).1
  obtain ⟨out, hpaste, hfills, hcells⟩ :=
    Raster.exists_paste (Raster.fills_zeros shifted) hpart hempty hsub hsize'
  refine ⟨out, hpaste, hfills, fun p hp => ?_⟩
  have hp' : (⟨p.x + window.x, p.y + window.y⟩ : Point) ∈ shifted := Rect.mem_moved.mpr hp
  have hcell : out.cell area p = out.cell shifted ⟨p.x + window.x, p.y + window.y⟩ := by
    simp only [Raster.cell, hshifted, Rect.moved]
    congr 1 <;> omega
  simp only [hcell, hcells _ hp', Rect.mem_meet, hp', true_and, Raster.cell_zeros]

/-- A crop reads zero outside its window, whatever the view below reads. -/
theorem Reads.crop {v : View Outcome α} {outside : α} (h : v.Reads outside) (window : Rect) :
    (v.crop window).Reads 0 := by
  intro area hsize
  refine Ends.bind_eq (a := area.moved window.x window.y)
    ((Rect.ends_translate _ _ _).weaken fun _ _ => trivial) ?_
  refine ((Rect.ends_intersect _ _).weaken fun _ _ => trivial).bind_eq ?_
  -- a point outside the crop is moved to one outside the window
  have hmoved : ∀ p : Point, ¬ (v.crop window).Has p →
      (⟨p.x + window.x, p.y + window.y⟩ : Point) ∉ window := by
    intro p hout hp
    obtain ⟨hx, hx', hy, hy'⟩ := hp
    simp only [Has, View.crop, Rect.columns, Rect.rows] at hx hx' hy hy' hout
    omega
  have hsize' : (area.moved window.x window.y).Sized := ⟨hsize.width, hsize.height⟩
  by_cases hinside : Rect.meet (area.moved window.x window.y) window = area.moved window.x window.y
  · rw [if_pos hinside]
    refine (h _ hsize').imp ?_
    rintro raster ⟨hfills, -⟩
    refine ⟨hfills, fun p hp hout => absurd ?_ (hmoved p hout)⟩
    exact (Rect.mem_meet.mp (hinside ▸ Rect.mem_moved.mpr hp)).2
  rw [if_neg hinside]
  refine ((Raster.ends_blankFor area).weaken fun _ _ => trivial).bind ?_
  rintro _ ⟨rfl, -⟩
  by_cases hempty : (Rect.meet (area.moved window.x window.y) window).IsEmpty
  · rw [if_pos hempty]
    exact ⟨Raster.fills_zeros area, fun p _ _ => Raster.cell_zeros ..⟩
  rw [if_neg hempty]
  have hpart : (Rect.meet (area.moved window.x window.y) window).Sized :=
    hsize'.of_subset hempty fun p hp => (Rect.mem_meet.mp hp).1
  refine (h _ hpart).bind ?_
  rintro part ⟨hpart, -⟩
  obtain ⟨out, hpaste, hfills, hcells⟩ := exists_cropped hsize hempty hpart
  rw [hpaste]
  refine ⟨hfills, fun p hp hout => ?_⟩
  rw [hcells p hp, if_neg (hmoved p hout)]

omit [Cell κ α] in
theorem Reads.map [Zero α] [Zero β] {v : View Outcome α} {outside : α} (h : v.Reads outside)
    (f : α → β) : (v.map f).Reads (f outside) := by
  intro area hsize
  refine (h area hsize).bind ?_
  rintro raster ⟨hfills, hout⟩
  refine ⟨hfills, fun p hp hp' => ?_⟩
  rw [Raster.cell_map hfills hp, hout p hp hp']

end View

/-! ## Chains of steps -/

section Coverage

variable [Channel κ]

theorem Pixel.alpha_replicate_one : (Pixel.replicate 1 : Pixel format κ).alpha = 1 := by
  cases format <;> rfl

theorem Pixel.alpha_zero_eq :
    (0 : Pixel format κ).alpha = if format.hasAlpha then 0 else 1 := by
  cases format <;> rfl

end Coverage

/-- A base view with the crops and coverages taken of it, one after the other. -/
inductive Construction (κ : Type) : Format → Type
  /-- The view of a raster. -/
  | raster {format : Format} (r : Raster (Pixel format κ)) : Construction κ format
  /-- The view of a function. -/
  | function {format : Format} (width height : Nat) (f : Nat → Nat → Pixel format κ) :
    Construction κ format
  /-- A window onto a view. -/
  | crop {format : Format} (base : Construction κ format) (window : Rect) : Construction κ format
  /-- The coverage of a view, as intensity. -/
  | alpha {format : Format} (base : Construction κ format) : Construction κ .gray

namespace Construction

variable [Channel κ]

/-- The view that is constructed. -/
def view {format : Format} : Construction κ format → View Outcome (Pixel format κ)
  | raster r => .ofRaster r
  | function width height f => .ofFunction width height f
  | crop base window => base.view.crop window
  | alpha base => base.view.alpha.map fun a => ⟨#v[a]⟩

/-- The last step is not the coverage of a format without alpha. -/
def Fades {format : Format} : Construction κ format → Bool
  | raster _ => true
  | function .. => true
  | crop .. => true
  | @alpha _ below base => below.hasAlpha && base.Fades

/-- What a construction reads outside its bounds. -/
def outside {format : Format} (c : Construction κ format) : Pixel format κ :=
  if c.Fades then 0 else Pixel.replicate 1

/-- The coverage of what is read outside. -/
theorem outside_alpha (base : Construction κ format) :
    (alpha base).outside = ⟨#v[base.outside.alpha]⟩ := by
  unfold outside
  cases hbase : base.Fades with
  | true =>
    simp only [Fades, hbase, Bool.and_true, if_true, Pixel.alpha_zero_eq]
    split <;> rfl
  | false =>
    simp only [Fades, hbase, Bool.and_false, Bool.false_eq_true, if_false,
      Pixel.alpha_replicate_one]
    rfl

/-- **Any chain of steps** answers with the size of the request and reads zero outside its bounds,
unless the last step is the coverage of a format without alpha, which reads one there. -/
theorem reads_outside (c : Construction κ format) : c.view.Reads c.outside := by
  induction c with
  | raster r => exact View.reads_ofRaster r
  | function width height f => exact View.reads_ofFunction width height f
  | crop base window ih => exact ih.crop window
  | alpha base ih =>
    rw [outside_alpha]
    exact (ih.map Pixel.alpha).map _

end Construction

end Patchwork
