/-!
# Rectangles of pixels

A `Rect` is the set of pixels `[x, x + width) × [y, y + height)` of a shared integer frame.  The
fields are plain integers; that every computed coordinate stays within 32 bits is the business of
`Patchwork.Rect.Algebra`.

## Main definitions

* `Rect` — a corner and a size.
* `Rect.clamped` — a rectangle whose negative sizes become zero.
* `Rect.IsEmpty` — no pixel lies inside.
* `p ∈ r` — membership of a point.
* `Rect.text`, `Rect.describe` — the two ways a rectangle is written in messages.
-/

namespace Patchwork

/-- The pixels `[x, x + width) × [y, y + height)`. -/
structure Rect where
  /-- Leftmost column. -/
  x : Int
  /-- Topmost row. -/
  y : Int
  /-- Number of columns; none when negative. -/
  width : Int
  /-- Number of rows; none when negative. -/
  height : Int
  deriving DecidableEq, Inhabited

/-- A pixel position. -/
structure Point where
  /-- Column. -/
  x : Int
  /-- Row. -/
  y : Int
  deriving DecidableEq, Inhabited

namespace Rect

/-- The rectangle at the origin without pixels. -/
def none : Rect := ⟨0, 0, 0, 0⟩

/-- A corner with a size, negative sizes read as zero. -/
def clamped (x y width height : Int) : Rect :=
  ⟨x, y, max width 0, max height 0⟩

/-- A point lies in a rectangle when both its coordinates lie in the half-open ranges. -/
instance : Membership Point Rect where
  mem r p := r.x ≤ p.x ∧ p.x < r.x + r.width ∧ r.y ≤ p.y ∧ p.y < r.y + r.height

theorem mem_iff {r : Rect} {p : Point} :
    p ∈ r ↔ r.x ≤ p.x ∧ p.x < r.x + r.width ∧ r.y ≤ p.y ∧ p.y < r.y + r.height :=
  Iff.rfl

instance (p : Point) (r : Rect) : Decidable (p ∈ r) :=
  decidable_of_iff _ mem_iff.symm

/-- No pixel lies inside. -/
def IsEmpty (r : Rect) : Prop := r.width ≤ 0 ∨ r.height ≤ 0

instance (r : Rect) : Decidable r.IsEmpty :=
  inferInstanceAs (Decidable (_ ∨ _))

theorem not_mem_of_isEmpty {r : Rect} (h : r.IsEmpty) (p : Point) : p ∉ r := by
  intro hp
  rw [mem_iff] at hp
  rcases h with h | h <;> omega

/-- Number of columns a raster of this rectangle has. -/
def columns (r : Rect) : Nat := r.width.toNat

/-- Number of rows a raster of this rectangle has. -/
def rows (r : Rect) : Nat := r.height.toNat

theorem isEmpty_iff_sides {r : Rect} : r.IsEmpty ↔ r.columns = 0 ∨ r.rows = 0 := by
  simp only [IsEmpty, columns, rows]
  omega

/-- Counted from the corner, a point inside has its column and row in range. -/
theorem toNat_lt_of_mem {r : Rect} {p : Point} (h : p ∈ r) :
    (p.x - r.x).toNat < r.columns ∧ (p.y - r.y).toNat < r.rows := by
  rw [mem_iff] at h
  simp only [columns, rows]
  omega

/-- Number of pixels inside. -/
def area (r : Rect) : Nat := r.columns * r.rows

/-- The short form used inside messages: corner, then size. -/
def text (r : Rect) : String :=
  s!"({r.x}, {r.y}) {r.width}x{r.height}"

/-- The long form, every field by name. -/
def describe (r : Rect) : String :=
  s!"PixelBox \x7b x: {r.x}, y: {r.y}, width: {r.width}, height: {r.height} \x7d"

end Rect

end Patchwork
