import Patchwork.Proofs.Patch.Sane
import Patchwork.Proofs.View

/-!
# Chains of crops and maps

A crop passes a request on when it lies in the window, asks for a part of it when it does not, and
asks for nothing when nothing of it lies there; in a chain each step hands the next one whatever it
needs.  All the same a chain is one function of the point: move it by the origins of all windows,
look it up in the base image, and apply the maps in their order, unless one of the windows or the
image itself leaves it out.

Every request is answered unless a coordinate that is computed on the way does not exist or memory
cannot hold a raster that is made, and when that is so is stated exactly.

## Main definitions

* `View.Shows` — a view answers exactly the requests in a range, with given pixels.
* `View.Base` — a raster or a function.
* `View.Steps` — crops and maps, one after the other.
* `View.Steps.origin`, `View.Steps.Visible`, `View.Steps.through` — where a chain looks, what it
  leaves out, and what it applies.

## Main statements

* `View.Shows.crop`, `View.Shows.map` — one more step.
* `View.Steps.chains_compose` — a chain of any length.
-/

namespace Patchwork

open Outcome Coordinate

variable {κ α β γ : Type} {range : Prop}

/-! ## Computations that answer exactly in a range -/

/-- The failure of a computation outside its range. -/
def Outcome.Strays (range : Prop) (cause : Failure) : Prop := IsRange cause ∧ ¬ range

theorem Outcome.Strays.mono {wider : Prop} {cause : Failure} (h : Strays wider cause)
    (hrange : range → wider) : Strays range cause :=
  ⟨h.1, mt hrange h.2⟩

theorem Coordinate.strays_checked {v : Int} (h : range → Fits v) :
    Ends (Strays range) (fun w => w = v ∧ Fits v) (checked v) := by
  by_cases hv : Fits v
  · simp [checked, hv]
  · rw [checked, if_neg hv]
    exact ⟨.inl rfl, mt h hv⟩

theorem Raster.strays_allocate [Cell κ α] {w h : Nat} (hroom : range → Room α w h) :
    Ends (Strays range) (fun _ => Room α w h) (allocate α w h) :=
  (ends_allocate w h).weaken fun _ hc => ⟨.inr hc.1, mt hroom hc.2⟩

namespace Rect

/-- Every coordinate that the common part of two rectangles is computed from exists. -/
structure Comparable (a b : Rect) : Prop where
  /-- The column past the first one. -/
  right : Fits (a.x + a.width)
  /-- The column past the second one. -/
  right' : Fits (b.x + b.width)
  /-- The row past the first one. -/
  bottom : Fits (a.y + a.height)
  /-- The row past the second one. -/
  bottom' : Fits (b.y + b.height)
  /-- The columns in common, or by how many the rectangles miss each other. -/
  columns : Fits (min (a.x + a.width) (b.x + b.width) - max a.x b.x)
  /-- The rows in common, or by how many the rectangles miss each other. -/
  rows : Fits (min (a.y + a.height) (b.y + b.height) - max a.y b.y)

theorem strays_intersect {a b : Rect} (h : range → a.Comparable b) :
    Ends (Strays range) (fun r => r = meet a b ∧ a.Comparable b) (a.intersect b) := by
  refine (strays_checked fun hr => (h hr).right).bind ?_
  rintro _ ⟨rfl, hright⟩
  refine (strays_checked fun hr => (h hr).right').bind ?_
  rintro _ ⟨rfl, hright'⟩
  refine (strays_checked fun hr => (h hr).bottom).bind ?_
  rintro _ ⟨rfl, hbottom⟩
  refine (strays_checked fun hr => (h hr).bottom').bind ?_
  rintro _ ⟨rfl, hbottom'⟩
  refine (strays_checked fun hr => (h hr).columns).bind ?_
  rintro _ ⟨rfl, hcolumns⟩
  refine (strays_checked fun hr => (h hr).rows).bind ?_
  rintro _ ⟨rfl, hrows⟩
  exact ⟨rfl, hright, hright', hbottom, hbottom', hcolumns, hrows⟩

theorem strays_translate {r : Rect} {dx dy : Int} (hx : range → Fits (r.x + dx))
    (hy : range → Fits (r.y + dy)) :
    Ends (Strays range) (fun s => s = r.moved dx dy ∧ Fits (r.x + dx) ∧ Fits (r.y + dy))
      (r.translate dx dy) := by
  refine (strays_checked hx).bind ?_
  rintro _ ⟨rfl, hx⟩
  refine (strays_checked hy).bind ?_
  rintro _ ⟨rfl, hy⟩
  exact ⟨rfl, hx, hy⟩

theorem Sane.comparable {a b : Rect} (ha : a.Sane) (hb : b.Sane) : a.Comparable b := by
  obtain ⟨_, _, _, _, _, _⟩ := ha
  obtain ⟨_, _, _, _, _, _⟩ := hb
  simp only [saneReach] at *
  constructor <;> simp only [Fits, lowest, highest] <;> omega

theorem Sane.of_subset {a b : Rect} (ha : a.Sane) (hb : ¬ b.IsEmpty) (h : b ⊆ a) : b.Sane := by
  obtain ⟨_, _, _, _⟩ := within_of_subset hb h
  obtain ⟨_, _, _, _, _, _⟩ := ha
  simp only [IsEmpty] at hb
  constructor <;> omega

/-- The least corner. -/
def corner (r : Rect) : Point := ⟨r.x, r.y⟩

end Rect

instance : Add Point := ⟨fun p q => ⟨p.x + q.x, p.y + q.y⟩⟩

instance : Zero Point := ⟨⟨0, 0⟩⟩

theorem Point.add_zero (p : Point) : p + 0 = p :=
  congrArg₂ Point.mk (Int.add_zero _) (Int.add_zero _)

theorem Point.add_assoc (p q r : Point) : p + q + r = p + (q + r) :=
  congrArg₂ Point.mk (Int.add_assoc ..) (Int.add_assoc ..)

namespace View

/-- The answer to a request in range: as many pixels as were asked for, and the right ones. -/
structure Answer [Zero α] (range : Prop) (area : Rect) (content : Point → α)
    (raster : Raster α) : Prop where
  /-- The request is in range. -/
  range : range
  /-- The raster has its size. -/
  fills : raster.Fills area
  /-- The pixels. -/
  cell : ∀ p, p ∈ area → raster.cell area p = content p

/-- The view answers the requests in a range and no others, with the pixels of a function. -/
def Shows [Zero α] (v : View Outcome α) (range : Rect → Prop) (content : Point → α) : Prop :=
  ∀ area : Rect, area.Sized →
    Ends (Strays (range area)) (Answer (range area) area content) (v.rasterize area)

/-! ## Base images -/

/-- What a chain starts from. -/
inductive Base (α : Type)
  /-- A raster. -/
  | raster (r : Raster α)
  /-- A function of the position. -/
  | function (width height : Nat) (f : Nat → Nat → α)

namespace Base

variable [Cell κ α]

/-- The view of the base. -/
def view : Base α → View Outcome α
  | raster r => .ofRaster r
  | function width height f => .ofFunction width height f

/-- The pixel at a point of the image. -/
def value : Base α → Point → α
  | raster r, p => r.peek p.x p.y
  | function _ _ f, p => f p.x.toNat p.y.toNat

/-- The base image in the plane, zero outside its bounds.  The bounds of an image of more columns or
rows than there are coordinates end with the coordinates. -/
def content (base : Base α) (p : Point) : α := if p ∈ base.view.bounds then base.value p else 0

/-- The requests that the base answers: memory can hold the raster, and the positions that are read
exist. -/
def InRange : Base α → Rect → Prop
  | raster r, area => Raster.Room α area.columns area.rows ∧ area.Comparable r.bounds
  | function .., area => Raster.Room α area.columns area.rows ∧
      (area.columns ≠ 0 ∧ area.rows ≠ 0 →
        Fits (area.x + (area.columns - 1 : Nat)) ∧ Fits (area.y + (area.rows - 1 : Nat)))

/-- A raster is sane when its rectangle is; a function always is. -/
def Sane : Base α → Prop
  | raster r => r.bounds.Sane
  | function .. => True

theorem inRange_of_sane (hslim : Cell.Slim α) {base : Base α} {area : Rect} (harea : area.Sane)
    (hbase : base.Sane) : base.InRange area := by
  have hroom := Raster.room_of_le hslim harea.roomy.columns_le harea.roomy.rows_le
  cases base with
  | raster r => exact ⟨hroom, harea.comparable hbase⟩
  | function width height f =>
    refine ⟨hroom, fun hsome => ?_⟩
    obtain ⟨_, _, _, _, _, _⟩ := harea
    simp only [Rect.saneReach, Rect.columns, Rect.rows, Fits, lowest, highest] at *
    omega

theorem mem_bounds_iff {v : View Outcome α} {p : Point} :
    p ∈ v.bounds ↔ 0 ≤ p.x ∧ p.x < ofSide v.width ∧ 0 ≤ p.y ∧ p.y < ofSide v.height := by
  simp only [bounds, Rect.ofSize, Rect.clamped, Rect.mem_iff, ofSide, highest]
  omega

theorem shows_raster (r : Raster α) :
    (Base.raster r).view.Shows (Base.raster r).InRange (Base.raster r).content := by
  intro area hsize
  show Ends _ _ (r.region area)
  rw [Raster.region_eq r hsize.width hsize.height]
  refine (Raster.strays_allocate And.left).bind fun _ hroom => ?_
  refine (Rect.strays_intersect And.right).bind ?_
  rintro _ ⟨-, hcompare⟩
  have hfills := r.fills_cut area
  refine ⟨⟨hroom, hcompare⟩, hfills, fun p hp => ?_⟩
  have hx : area.x + (p.x - area.x) = p.x := by omega
  have hy : area.y + (p.y - area.y) = p.y := by omega
  rw [Raster.cell, Raster.peek_cut (hfills.has_iff_mem.mpr hp), hx, hy, content]
  split
  · rfl
  · next hout =>
    -- a raster may be wider than the coordinates reach, but no request can be
    apply Raster.peek_eq_zero
    rintro ⟨_, _, _, _⟩
    have := hcompare.right.2
    have := hcompare.bottom.2
    rw [Rect.mem_iff] at hp
    rw [mem_bounds_iff] at hout
    simp only [view, ofRaster, ofSide] at hout
    omega

theorem shows_function (width height : Nat) (f : Nat → Nat → α) :
    (Base.function width height f).view.Shows (Base.function width height f).InRange
      (Base.function width height f).content := by
  intro area _
  have hrun : ∀ {range : Prop} {start : Int} {count : Nat},
      (range → Fits (start + (count - 1 : Nat))) → count ≠ 0 →
      Ends (Strays range) (fun _ => Fits (start + (count - 1 : Nat)))
        (Coordinate.run start count) :=
    fun hfits hcount => (ends_require _ _).mono
      (fun _ hc => ⟨.inl hc.1, fun hr => hc.2 (.inr (hfits hr))⟩) fun _ h => h.resolve_left hcount
  refine (Raster.strays_allocate And.left).bind fun _ hroom => ?_
  generalize hraster : Raster.tabulate area.columns area.rows _ = raster
  have hcells : raster.Fills area ∧
      ∀ p, p ∈ area → raster.cell area p = (Base.function width height f).content p := by
    subst hraster
    refine ⟨Raster.fills_tabulate area _, fun p hp => ?_⟩
    have hx : area.x + ((p.x - area.x).toNat : Int) = p.x := by
      rw [Rect.mem_iff] at hp
      omega
    have hy : area.y + ((p.y - area.y).toNat : Int) = p.y := by
      rw [Rect.mem_iff] at hp
      omega
    simp only [Raster.cell_tabulate hp, hx, hy, content, mem_bounds_iff]
    rfl
  by_cases hempty : area.columns ≠ 0 ∧ area.rows ≠ 0
  · rw [if_pos hempty]
    refine (hrun (fun hr => (hr.2 hempty).1) hempty.1).bind fun _ hcolumns => ?_
    refine (hrun (fun hr => (hr.2 hempty).2) hempty.2).bind fun _ hrows => ?_
    exact ⟨⟨hroom, fun _ => ⟨hcolumns, hrows⟩⟩, hcells.1, hcells.2⟩
  · rw [if_neg hempty]
    exact ⟨⟨hroom, fun hsome => absurd hsome hempty⟩, hcells.1, hcells.2⟩

theorem shows (base : Base α) : base.view.Shows base.InRange base.content := by
  cases base with
  | raster r => exact shows_raster r
  | function width height f => exact shows_function width height f

end Base

/-! ## One more step -/

/-- The requests that a crop answers, when `below` are those of the view under it: the request can
be moved to the window, and what is then asked for is in range. -/
structure CropRange (α : Type) [Cell κ α] (below : Rect → Prop) (window request : Rect) : Prop where
  /-- The near column of the moved request. -/
  column : Fits (request.x + window.x)
  /-- The near row. -/
  row : Fits (request.y + window.y)
  /-- The moved request can be compared with the window. -/
  comparable : (request.moved window.x window.y).Comparable window
  /-- A request inside the window is passed on. -/
  whole : Rect.meet (request.moved window.x window.y) window = request.moved window.x window.y →
    below (request.moved window.x window.y)
  /-- For any other a raster is made. -/
  room : Rect.meet (request.moved window.x window.y) window ≠ request.moved window.x window.y →
    Raster.Room α request.columns request.rows
  /-- It needs the pixels in the window, if there are any. -/
  part : Rect.meet (request.moved window.x window.y) window ≠ request.moved window.x window.y →
    ¬ (Rect.meet (request.moved window.x window.y) window).IsEmpty →
      below (Rect.meet (request.moved window.x window.y) window)

variable [Cell κ α]

/-- A crop looks at the moved point, if it lies in the window. -/
theorem Shows.crop {v : View Outcome α} {below : Rect → Prop} {content : Point → α}
    (h : v.Shows below content) (window : Rect) :
    (v.crop window).Shows (CropRange α below window) fun p =>
      if p + window.corner ∈ window then content (p + window.corner) else 0 := by
  intro area hsize
  refine (Rect.strays_translate CropRange.column CropRange.row).bind ?_
  rintro _ ⟨rfl, hcolumn, hrow⟩
  refine (Rect.strays_intersect CropRange.comparable).bind ?_
  rintro _ ⟨rfl, hcompare⟩
  have hsize' : (area.moved window.x window.y).Sized := ⟨hsize.width, hsize.height⟩
  have hmoved : ∀ p, p ∈ area → p + window.corner ∈ area.moved window.x window.y := fun _ =>
    Rect.mem_moved.mpr
  by_cases hinside : Rect.meet (area.moved window.x window.y) window = area.moved window.x window.y
  · rw [if_pos hinside]
    refine (h _ hsize').mono (fun _ hc => hc.mono fun hr => hr.whole hinside) ?_
    rintro raster ⟨hrange, hfills, hcells⟩
    refine ⟨⟨hcolumn, hrow, hcompare, fun _ => hrange, absurd hinside, absurd hinside⟩, hfills,
      fun p hp => ?_⟩
    have hwindow : p + window.corner ∈ window := (Rect.mem_meet.mp (hinside ▸ hmoved p hp)).2
    rw [if_pos hwindow, ← hcells _ (hmoved p hp)]
    simp only [Raster.cell, Rect.moved]
    congr 1
    · exact (Int.add_sub_add_right ..).symm
    · exact (Int.add_sub_add_right ..).symm
  rw [if_neg hinside]
  refine Ends.bind (P := fun empty => empty = Raster.zeros area.columns area.rows ∧
    Raster.Room α area.columns area.rows) ?_ ?_
  · exact (Raster.ends_blankFor area).weaken fun _ hc =>
      ⟨.inr hc.1, fun hr => hc.2 (hr.room hinside)⟩
  rintro _ ⟨rfl, hroom⟩
  by_cases hempty : (Rect.meet (area.moved window.x window.y) window).IsEmpty
  · rw [if_pos hempty]
    refine ⟨⟨hcolumn, hrow, hcompare, fun hr => absurd hr hinside, fun _ => hroom,
      fun _ hne => absurd hempty hne⟩, Raster.fills_zeros area, fun p hp => ?_⟩
    have hout : p + window.corner ∉ window := fun hp' =>
      Rect.not_mem_of_isEmpty hempty _ (Rect.mem_meet.mpr ⟨hmoved p hp, hp'⟩)
    rw [if_neg hout, Raster.cell_zeros]
  rw [if_neg hempty]
  have hpart : (Rect.meet (area.moved window.x window.y) window).Sized :=
    hsize'.of_subset hempty fun p hp => (Rect.mem_meet.mp hp).1
  refine Ends.bind ((h _ hpart).weaken fun _ hc => hc.mono fun hr => hr.part hinside hempty) ?_
  rintro part ⟨hrange, hfills, hcells⟩
  obtain ⟨out, hpaste, hfills', hcells'⟩ := exists_cropped hsize hempty hfills
  rw [hpaste]
  refine ⟨⟨hcolumn, hrow, hcompare, fun hr => absurd hr hinside, fun _ => hroom,
    fun _ _ => hrange⟩, hfills', fun p hp => ?_⟩
  rw [hcells' p hp]
  by_cases hwindow : p + window.corner ∈ window
  · rw [if_pos hwindow, ← hcells _ (Rect.mem_meet.mpr ⟨hmoved p hp, hwindow⟩)]
    exact if_pos hwindow
  · rw [if_neg hwindow]
    exact if_neg hwindow

omit [Cell κ α] in
/-- A map is applied to what the view below shows. -/
theorem Shows.map [Zero α] [Zero β] {v : View Outcome α} {range : Rect → Prop}
    {content : Point → α} (h : v.Shows range content) (f : α → β) :
    (v.map f).Shows range fun p => f (content p) := by
  intro area hsize
  refine (h area hsize).bind ?_
  rintro raster ⟨hrange, hfills, hcells⟩
  refine ⟨hrange, hfills, fun p hp => ?_⟩
  rw [Raster.cell_map hfills hp, hcells p hp]

/-! ## Chains -/

/-- Crops and maps, one after the other, from cells of one type to cells of another. -/
inductive Steps (κ α : Type) [Cell κ α] : (β : Type) → [Cell κ β] → Type 1
  /-- No step yet. -/
  | none : Steps κ α α
  /-- A window onto the view so far. -/
  | crop {β : Type} [Cell κ β] (before : Steps κ α β) (window : Rect) : Steps κ α β
  /-- Every pixel changed by a function that keeps zero. -/
  | map {β γ : Type} [Cell κ β] [Cell κ γ] (before : Steps κ α β) (f : β → γ) (zero : f 0 = 0) :
    Steps κ α γ

namespace Steps

variable [Cell κ β]

/-- The view after the steps. -/
def view {β : Type} [Cell κ β] (base : Base α) : Steps κ α β → View Outcome β
  | none => base.view
  | crop before window => (before.view base).crop window
  | map before f _ => (before.view base).map f

/-- The sum of the origins of all windows: where in the base image the last view begins. -/
def origin {β : Type} [Cell κ β] : Steps κ α β → Point
  | none => 0
  | crop before window => window.corner + before.origin
  | map before _ _ => before.origin

/-- The point lies in every window, each in the view that it was cut from. -/
def Visible {β : Type} [Cell κ β] : Steps κ α β → Point → Prop
  | none, _ => True
  | crop before window, p => p + window.corner ∈ window ∧ before.Visible (p + window.corner)
  | map before _ _, p => before.Visible p

/-- The maps in their order. -/
def through {β : Type} [Cell κ β] : Steps κ α β → α → β
  | none => id
  | crop before _ => before.through
  | map before f _ => f ∘ before.through

/-- The requests that the last view answers. -/
def InRange {β : Type} [Cell κ β] (base : Base α) : Steps κ α β → Rect → Prop
  | none => base.InRange
  | @crop _ _ _ β _ before window => CropRange β (before.InRange base) window
  | map before _ _ => before.InRange base

instance decidableVisible {β : Type} [Cell κ β] :
    (steps : Steps κ α β) → (p : Point) → Decidable (steps.Visible p)
  | none, _ => isTrue trivial
  | crop before window, p =>
    have := decidableVisible before (p + window.corner)
    inferInstanceAs (Decidable (_ ∧ _))
  | map before _ _, p => decidableVisible before p

/-- The pixel that a chain makes of the base image. -/
def content (base : Base α) (steps : Steps κ α β) (p : Point) : β :=
  if steps.Visible p ∧ p + steps.origin ∈ base.view.bounds then
    steps.through (base.value (p + steps.origin))
  else 0

theorem content_none (base : Base α) : (none : Steps κ α α).content base = base.content := by
  funext p
  simp [content, Base.content, Visible, origin, through, Point.add_zero]

theorem content_crop (base : Base α) (before : Steps κ α β) (window : Rect) (p : Point) :
    (before.crop window).content base p =
      if p + window.corner ∈ window then before.content base (p + window.corner) else 0 := by
  by_cases hp : p + window.corner ∈ window <;>
    simp [content, Visible, origin, through, ← Point.add_assoc, hp]

theorem content_map [Cell κ γ] (base : Base α) (before : Steps κ α β) (f : β → γ)
    (hf : f 0 = 0) (p : Point) : (before.map f hf).content base p = f (before.content base p) := by
  simp only [content, Visible, origin, through, apply_ite f, hf]
  rfl

/-- A chain shows its content. -/
theorem shows (base : Base α) (steps : Steps κ α β) :
    (steps.view base).Shows (steps.InRange base) (steps.content base) := by
  induction steps with
  | none => exact content_none base ▸ base.shows
  | crop before window ih =>
    rw [funext (content_crop base before window)]
    exact ih.crop window
  | map before f hf ih =>
    rw [funext (content_map base before f hf)]
    exact ih.map f

/-- The request is sane in every view of the chain, and so are the windows. -/
def Sane {β : Type} [Cell κ β] (base : Base α) : Steps κ α β → Rect → Prop
  | none, area => area.Sane ∧ base.Sane
  | crop before window, area => Cell.Slim β ∧ area.Sane ∧ window.Sane ∧
      before.Sane base (area.moved window.x window.y)
  | map before _ _, area => before.Sane base area

variable {base : Base α} {steps : Steps κ α β} {area part : Rect}

theorem Sane.request (h : steps.Sane base area) : area.Sane := by
  induction steps with
  | none => exact h.1
  | crop before window _ => exact h.2.1
  | map before f hf ih => exact ih h

/-- A part of a request is no harder. -/
theorem Sane.of_subset (h : steps.Sane base area) (hne : ¬ part.IsEmpty) (hpart : part ⊆ area) :
    steps.Sane base part := by
  induction steps generalizing area part with
  | none => exact ⟨h.1.of_subset hne hpart, h.2⟩
  | crop before window ih =>
    obtain ⟨hslim, harea, hwindow, hbefore⟩ := h
    exact ⟨hslim, harea.of_subset hne hpart, hwindow,
      ih hbefore hne (Rect.moved_subset_moved hpart)⟩
  | map before f hf ih => exact ih h hne hpart

/-- Sane requests are in range. -/
theorem inRange_of_sane (hslim : Cell.Slim α) (h : steps.Sane base area) :
    steps.InRange base area := by
  induction steps generalizing area with
  | none => exact Base.inRange_of_sane hslim h.1 h.2
  | crop before window ih =>
    obtain ⟨hslim', harea, hwindow, hbefore⟩ := h
    have hroom := Raster.room_of_le hslim' harea.roomy.columns_le harea.roomy.rows_le
    have hcompare := hbefore.request.comparable hwindow
    refine ⟨?_, ?_, hcompare, fun _ => ih hbefore, fun _ => hroom, fun _ hne =>
      ih (hbefore.of_subset hne fun p hp => (Rect.mem_meet.mp hp).1)⟩
    · obtain ⟨_, _, _, _, _, _⟩ := harea
      obtain ⟨_, _, _, _, _, _⟩ := hwindow
      simp only [Rect.saneReach, Fits, lowest, highest] at *
      omega
    · obtain ⟨_, _, _, _, _, _⟩ := harea
      obtain ⟨_, _, _, _, _, _⟩ := hwindow
      simp only [Rect.saneReach, Fits, lowest, highest] at *
      omega
  | map before f hf ih => exact ih h

/-- **Chains compose.**  A request to a chain of crops and maps is answered exactly when everything
that is computed for it is in range, and the answer has the size of the request.  The pixel at a
point comes from the base image, from as far on as the origins of all windows add up to, changed by
all maps in their order; where a window or the image leaves the point out it is zero. -/
theorem chains_compose (base : Base α) (steps : Steps κ α β) (request : Rect)
    (hsize : request.Sized) :
    (steps.InRange base request → ∃ raster, (steps.view base).rasterize request = .ok raster ∧
      raster.Fills request ∧ ∀ p, p ∈ request → raster.cell request p =
        if steps.Visible p ∧ p + steps.origin ∈ base.view.bounds then
          steps.through (base.value (p + steps.origin)) else 0) ∧
    (¬ steps.InRange base request → ∃ cause, IsRange cause ∧
      (steps.view base).rasterize request = .error cause) := by
  have hshows := steps.shows base request hsize
  cases hanswer : (steps.view base).rasterize request with
  | ok raster =>
    obtain ⟨hrange, hfills, hcells⟩ := hshows.of_ok hanswer
    exact ⟨fun _ => ⟨raster, rfl, hfills, hcells⟩, absurd hrange⟩
  | error cause =>
    obtain ⟨hcause, hrange⟩ := hshows.of_error hanswer
    exact ⟨fun hr => absurd hr hrange, fun _ => ⟨cause, hcause, rfl⟩⟩

/-- Four by three pixels of which the right half covers nothing. -/
def quarters : Base (Pixel .grayAlpha Float32) :=
  .raster (Raster.tabulate 4 3 fun x _ => if x < 2 then ⟨#v[0.75, 1]⟩ else 0)

/-- The coverage of a window that reaches past the image, and a window that reaches past that. -/
def windows : Steps Float32 (Pixel .grayAlpha Float32) Float32 :=
  ((none.crop ⟨1, 1, 5, 2⟩).map Pixel.alpha rfl).crop ⟨-1, 0, 4, 3⟩

/-- A request that reaches past both. -/
theorem chains_compose_windows : ∃ raster,
    (windows.view quarters).rasterize ⟨-1, -1, 7, 5⟩ = .ok raster ∧
    raster.Fills ⟨-1, -1, 7, 5⟩ ∧ ∀ p, p ∈ (⟨-1, -1, 7, 5⟩ : Rect) →
      raster.cell ⟨-1, -1, 7, 5⟩ p =
        if windows.Visible p ∧ p + windows.origin ∈ quarters.view.bounds then
          windows.through (quarters.value (p + windows.origin)) else 0 :=
  (chains_compose quarters windows ⟨-1, -1, 7, 5⟩ ⟨by decide, by decide⟩).1
    (inRange_of_sane Pixel.slim ⟨Channel.slim, by decide, by decide, Pixel.slim, by decide,
      by decide, by decide, show Rect.Sane ⟨0, 0, 4, 3⟩ by decide⟩)

/-- The second window begins on the left edge of the image, one row down. -/
example : windows.origin = ⟨0, 1⟩ ∧ windows.Visible ⟨1, 0⟩ ∧ ¬ windows.Visible ⟨0, 0⟩ := by decide

end Steps

end View

end Patchwork
