import Mathlib.Algebra.BigOperators.Group.Finset.Sigma
import Mathlib.Algebra.BigOperators.Ring.Finset
import Mathlib.Tactic.NormNum
import Mathlib.Tactic.Ring
import Patchwork.Proofs.Raster.Halving

/-!
# Blurring in exact arithmetic

Over the rationals a blurred and halved raster is, in every channel, one function of the plane: the
weighted samples of the fine plane around twice the coarse point.  All points where that function is
not zero lie in the halved rectangle, so halving drops nothing: each fine sample goes with half its
value to an even position or with a quarter each to two odd ones, in both directions.

## Main definitions

* `shrinkAt` — the blur sampled at a coarse point.
* `Cell.Readable` — cells that are read as families of rational numbers.
* `places`, `Rect.total` — the sum of a function over the points of a rectangle.
* `Raster.Halves` — what halving makes of a function on the plane.

## Main statements

* `Raster.read_cell_shrink` — `Raster.shrink` is `shrinkAt` on its rectangle.
* `total_shrinkAt` — the blur keeps a quarter of the sum.
* `Raster.halving_keeps_all` — the two together, for the checked operation.
-/

namespace Patchwork

open Outcome Channel
open Rect (half)

variable {format : Format}

/-! ## The blur of a function -/

/-- The blur of a function on the plane, sampled at a coarse point. -/
def shrinkAt (f : Point → ℚ) (r : Point) : ℚ :=
  Raster.blurred (fun y => Raster.blurred (fun x => f ⟨x, y⟩) (2 * r.x)) (2 * r.y)

theorem blurred_eq (f : Int → ℚ) (c : Int) :
    Raster.blurred f c = f (c - 1) / 4 + f c / 2 + f (c + 1) / 4 := by
  have hvalue : Raster.blurred f c =
      0 + f (c - 1) * (0.25 : ℚ) + f c * (0.5 : ℚ) + f (c + 1) * (0.25 : ℚ) := rfl
  rw [hvalue]
  norm_num
  ring

theorem blurred_shift (f : Int → ℚ) (c a : Int) :
    Raster.blurred f (c - a) = Raster.blurred (fun i => f (i - a)) c := by
  have hbefore : c - a - 1 = c - 1 - a := by omega
  have hafter : c - a + 1 = c + 1 - a := by omega
  rw [blurred_eq, blurred_eq, hbefore, hafter]

theorem blurred_zero {f : Int → ℚ} (h : ∀ i, f i = 0) (c : Int) : Raster.blurred f c = 0 := by
  rw [blurred_eq, h, h, h]
  norm_num

theorem blurred_nonneg {f : Int → ℚ} (h : ∀ i, 0 ≤ f i) (c : Int) : 0 ≤ Raster.blurred f c := by
  rw [blurred_eq]
  have := h (c - 1)
  have := h c
  have := h (c + 1)
  linarith

/-- A blur is positive next to a positive sample. -/
theorem blurred_pos {f : Int → ℚ} (h : ∀ i, 0 ≤ f i) {i c : Int} (hi : 0 < f i) (hlow : c - 1 ≤ i)
    (hhigh : i ≤ c + 1) : 0 < Raster.blurred f c := by
  rw [blurred_eq]
  have hbefore := h (c - 1)
  have hhere := h c
  have hafter := h (c + 1)
  obtain rfl | rfl | rfl : i = c - 1 ∨ i = c ∨ i = c + 1 := by omega
  · linarith
  · linarith
  · linarith

theorem shrinkAt_nonneg {f : Point → ℚ} (h : ∀ q, 0 ≤ f q) (r : Point) : 0 ≤ shrinkAt f r :=
  blurred_nonneg (fun _ => blurred_nonneg (fun _ => h _) _) _

/-- A coarse point that spreads to a positive fine one is positive. -/
theorem shrinkAt_pos {f : Point → ℚ} (h : ∀ q, 0 ≤ f q) {q r : Point} (hq : 0 < f q)
    (hspreads : r.Spreads q) : 0 < shrinkAt f r := by
  obtain ⟨hleft, hright, htop, hbottom⟩ := hspreads
  have hrow : 0 < Raster.blurred (fun x => f ⟨x, q.y⟩) (2 * r.x) :=
    blurred_pos (fun _ => h _) hq hleft hright
  exact blurred_pos (fun _ => blurred_nonneg (fun _ => h _) _) hrow htop hbottom

/-! ## Reading cells as numbers -/

/-- Cells that are read as families of rational numbers, along with sums and multiples. -/
class Cell.Readable (α : Type) [Cell ℚ α] where
  /-- How many numbers a cell holds. -/
  channels : Nat
  /-- One of them. -/
  read : Fin channels → α → ℚ
  /-- Zero holds zeros. -/
  read_zero (i : Fin channels) : read i 0 = 0
  /-- A sum is read as the sum. -/
  read_add (i : Fin channels) (a b : α) : read i (a + b) = read i a + read i b
  /-- A multiple is read as the multiple. -/
  read_scale (i : Fin channels) (a : α) (s : ℚ) : read i (scale a s) = read i a * s
  /-- A cell takes no more memory than four channels. -/
  slim : Cell.Slim α

open Cell (Readable)
open Cell.Readable (read)

namespace Pixel

variable {i : Nat} {hi : i < format.channels}

theorem getElem_zero : (0 : Pixel format ℚ).channels[i] = 0 := Vector.getElem_replicate _

theorem getElem_add (p q : Pixel format ℚ) :
    (p + q).channels[i] = p.channels[i] + q.channels[i] := Vector.getElem_zipWith _

theorem getElem_sub (p q : Pixel format ℚ) :
    (p - q).channels[i] = p.channels[i] - q.channels[i] := Vector.getElem_zipWith _

theorem getElem_scale (p : Pixel format ℚ) (s : ℚ) :
    (scale p s).channels[i] = p.channels[i] * s := Vector.getElem_map _ _

end Pixel

/-- A pixel is read channel by channel. -/
instance : Readable (Pixel format ℚ) where
  channels := format.channels
  read i p := p.channels[i]
  read_zero _ := Pixel.getElem_zero
  read_add i p q := show (p + q).channels[i] = p.channels[i] + q.channels[i] from
    Pixel.getElem_add p q
  read_scale i p s := show (scale p s).channels[i] = p.channels[i] * s from
    Pixel.getElem_scale p s
  slim := Pixel.slim

/-- A value of a plane is read as it is. -/
instance : Readable ℚ where
  channels := 1
  read _ v := v
  read_zero _ := rfl
  read_add _ _ _ := rfl
  read_scale _ _ _ := rfl
  slim := Channel.slim

namespace Raster

variable {α : Type} [Cell ℚ α] [Readable α] {source : Raster α} {frame : Rect}

theorem read_blurred (i : Fin (Readable.channels α)) (sample : Int → α) (c : Int) :
    read i (blurred sample c) = blurred (fun j => read i (sample j)) c := by
  simp only [blurred, Readable.read_add, Readable.read_scale, Readable.read_zero]
  rfl

/-- The halved raster at a point is the blur of the plane; the rows that it lacks are zero. -/
theorem read_cell_shrink (hfills : source.Fills frame) (i : Fin (Readable.channels α)) {p : Point}
    (hp : p ∈ half frame) :
    read i ((source.shrink frame (half frame)).cell (half frame) p) =
      shrinkAt (fun q => read i (source.cell frame q)) p := by
  have hx : (half frame).x + ((p.x - (half frame).x).toNat : Int) = p.x := by
    rw [Rect.mem_iff] at hp
    omega
  have hy : (half frame).y + ((p.y - (half frame).y).toNat : Int) = p.y := by
    rw [Rect.mem_iff] at hp
    omega
  rw [shrink, cell_tabulate hp, hy, read_blurred, blurred_shift, shrinkAt]
  congr 1
  funext y
  have hcolumn : (p.x - (half frame).x).toNat < (half frame).columns := by
    rw [Rect.mem_iff] at hp
    simp only [Rect.columns]
    omega
  by_cases hhas : (source.shrinkRows frame (half frame)).Has
      ((p.x - (half frame).x).toNat : Int) (y - frame.y)
  · have hrow := hhas.2.2.1
    rw [shrinkRows] at hhas ⊢
    rw [peek_tabulate_int hhas, Int.toNat_natCast, hx, Int.toNat_of_nonneg hrow, read_blurred,
      blurred_shift]
    rfl
  · rw [peek_eq_zero hhas, Readable.read_zero, blurred_zero]
    intro x
    rw [cell_eq_zero hfills, Readable.read_zero]
    refine fun hmem => hhas ?_
    rw [Rect.mem_iff] at hmem
    simp only at hmem
    refine ⟨Int.natCast_nonneg _, ?_, by omega, ?_⟩
    · rw [shrinkRows, width_tabulate]
      omega
    · rw [shrinkRows, height_tabulate, Rect.rows]
      omega

end Raster

/-! ## Sums over rectangles -/

/-- The whole numbers from `a` to below `b`. -/
def places (a b : Int) : Finset Int := (Finset.range (b - a).toNat).image fun i : Nat => a + i

theorem mem_places {a b x : Int} : x ∈ places a b ↔ a ≤ x ∧ x < b := by
  simp only [places, Finset.mem_image, Finset.mem_range]
  constructor
  · rintro ⟨i, hi, rfl⟩
    omega
  · intro hx
    exact ⟨(x - a).toNat, by omega, by omega⟩

theorem places_eq_empty {a b : Int} (h : b ≤ a) : places a b = ∅ :=
  Finset.eq_empty_of_forall_notMem fun x hx => by
    rw [mem_places] at hx
    omega

theorem sum_places_succ {a b : Int} (h : a ≤ b) (f : Int → ℚ) :
    ∑ x ∈ places a (b + 1), f x = ∑ x ∈ places a b, f x + f b := by
  have hlast : places a (b + 1) = insert b (places a b) := by
    ext x
    rw [Finset.mem_insert, mem_places, mem_places]
    omega
  have hnew : b ∉ places a b := by
    rw [mem_places]
    omega
  rw [hlast, Finset.sum_insert hnew, add_comm]

/-- The sum of a function over the points of a rectangle. -/
def Rect.total (r : Rect) (f : Point → ℚ) : ℚ :=
  ∑ y ∈ places r.y (r.y + r.height), ∑ x ∈ places r.x (r.x + r.width), f ⟨x, y⟩

theorem Rect.total_congr {r : Rect} {f g : Point → ℚ} (h : ∀ p ∈ r, f p = g p) :
    r.total f = r.total g := by
  refine Finset.sum_congr rfl fun y hy => Finset.sum_congr rfl fun x hx => h _ ?_
  rw [mem_places] at hx hy
  exact Rect.mem_iff.mpr ⟨hx.1, hx.2, hy.1, hy.2⟩

theorem Rect.total_of_isEmpty {r : Rect} (h : r.IsEmpty) (f : Point → ℚ) : r.total f = 0 := by
  rcases h with h | h
  · simp [total, places_eq_empty (by omega : r.x + r.width ≤ r.x)]
  · simp [total, places_eq_empty (by omega : r.y + r.height ≤ r.y)]

/-- Blurs at even positions add up to half the samples in between, but for the ends. -/
theorem sum_blurred (f : Int → ℚ) (a : Int) (n : Nat) :
    2 * ∑ c ∈ places a (a + n), Raster.blurred f (2 * c) =
      ∑ x ∈ places (2 * a) (2 * (a + n)), f x +
        f (2 * a - 1) / 2 - f (2 * (a + n) - 1) / 2 := by
  induction n with
  | zero => simp [places_eq_empty]
  | succ n ih =>
    have hcoarse : a + ((n + 1 : Nat) : Int) = a + n + 1 := by omega
    have hfine : 2 * (a + n + 1) = 2 * (a + n) + 1 + 1 := by omega
    have hlast : 2 * (a + n) + 1 + 1 - 1 = 2 * (a + n) + 1 := by omega
    rw [hcoarse, sum_places_succ (by omega), mul_add, ih, hfine, sum_places_succ (by omega),
      sum_places_succ (by omega), hlast, blurred_eq]
    ring

/-- A function that is zero outside a range of coordinates is blurred to one whose samples at the
halved coordinates add up to half as much. -/
theorem sum_blurred_half {f : Int → ℚ} {a b : Int} (hab : a ≤ b)
    (hzero : ∀ x, x < a ∨ b ≤ x → f x = 0) :
    2 * ∑ c ∈ places (a / 2) (b / 2 + 1), Raster.blurred f (2 * c) =
      ∑ x ∈ places a b, f x := by
  obtain ⟨n, hn⟩ : ∃ n : Nat, b / 2 + 1 = a / 2 + n := ⟨(b / 2 + 1 - a / 2).toNat, by omega⟩
  have hsub : places a b ⊆ places (2 * (a / 2)) (2 * (a / 2 + n)) := fun x hx => by
    rw [mem_places] at hx ⊢
    omega
  rw [hn, sum_blurred, hzero _ (.inl (by omega)), hzero _ (.inr (by omega)),
    ← Finset.sum_subset hsub fun x _ hx => hzero x (by rw [mem_places] at hx; omega)]
  ring

/-- Nothing is blurred into points outside the halved rectangle. -/
theorem shrinkAt_eq_zero {f : Point → ℚ} {r : Rect} (hzero : ∀ p, p ∉ r → f p = 0) {p : Point}
    (hp : p ∉ half r) : shrinkAt f p = 0 := by
  have hfar : ∀ i j : Int, -1 ≤ i → i ≤ 1 → -1 ≤ j → j ≤ 1 → f ⟨2 * p.x + i, 2 * p.y + j⟩ = 0 :=
    fun i j _ _ _ _ => hzero _ fun hmem => hp <| Rect.mem_half_of_spreads hmem <| by
      simp only [Point.Spreads]
      omega
  have hrow : ∀ j : Int, -1 ≤ j → j ≤ 1 →
      Raster.blurred (fun x => f ⟨x, 2 * p.y + j⟩) (2 * p.x) = 0 := fun j hlow hhigh => by
    have hbefore := hfar (-1) j (by omega) (by omega) hlow hhigh
    have hhere := hfar 0 j (by omega) (by omega) hlow hhigh
    have hafter := hfar 1 j (by omega) (by omega) hlow hhigh
    rw [Int.add_zero] at hhere
    rw [blurred_eq, hhere, hafter, Int.sub_eq_add_neg, hbefore]
    norm_num
  have hbefore := hrow (-1) (by omega) (by omega)
  have hhere := hrow 0 (by omega) (by omega)
  have hafter := hrow 1 (by omega) (by omega)
  rw [Int.add_zero] at hhere
  rw [shrinkAt, blurred_eq, hhere, hafter, Int.sub_eq_add_neg, hbefore]
  norm_num

/-- The right and lower ends of a halved rectangle. -/
theorem Rect.ends_half {r : Rect} (h : ¬ r.IsEmpty) :
    (half r).x + (half r).width = (r.x + r.width) / 2 + 1 ∧
      (half r).y + (half r).height = (r.y + r.height) / 2 + 1 := by
  rw [half_of_not_isEmpty h]
  simp only
  omega

/-- **The blur keeps a quarter of the sum**, all of it in the halved rectangle. -/
theorem total_shrinkAt {f : Point → ℚ} {r : Rect} (hzero : ∀ p, p ∉ r → f p = 0) :
    4 * (half r).total (shrinkAt f) = r.total f := by
  by_cases he : r.IsEmpty
  · rw [Rect.total_of_isEmpty he, Rect.total_of_isEmpty (Rect.half_of_isEmpty he), mul_zero]
  have hsides : 0 < r.width ∧ 0 < r.height := by
    simp only [Rect.IsEmpty] at he
    omega
  have hleft : (half r).x = r.x / 2 := by rw [Rect.half_of_not_isEmpty he]
  have htop : (half r).y = r.y / 2 := by rw [Rect.half_of_not_isEmpty he]
  obtain ⟨hright, hbottom⟩ := Rect.ends_half he
  have hrow : ∀ y : Int, 2 * ∑ X ∈ places (r.x / 2) ((r.x + r.width) / 2 + 1),
      Raster.blurred (fun x => f ⟨x, y⟩) (2 * X) = ∑ x ∈ places r.x (r.x + r.width),
        f ⟨x, y⟩ := fun y => sum_blurred_half (by omega) fun x hx => hzero _ fun hmem => by
    rw [Rect.mem_iff] at hmem
    simp only at hmem
    omega
  -- the samples of a coarse column outside the rows of the rectangle are blurs of zeros
  have hcolumn : ∀ X : Int, 2 * ∑ Y ∈ places (r.y / 2) ((r.y + r.height) / 2 + 1),
      shrinkAt f ⟨X, Y⟩ = ∑ y ∈ places r.y (r.y + r.height),
        Raster.blurred (fun x => f ⟨x, y⟩) (2 * X) := by
    intro X
    have hblank : ∀ y : Int, y < r.y ∨ r.y + r.height ≤ y →
        Raster.blurred (fun x => f ⟨x, y⟩) (2 * X) = 0 := by
      refine fun y hy => blurred_zero (fun x => hzero _ fun hmem => ?_) _
      rw [Rect.mem_iff] at hmem
      simp only at hmem
      omega
    have hrows : r.y ≤ r.y + r.height := by omega
    simp only [shrinkAt]
    exact sum_blurred_half hrows hblank
  calc 4 * (half r).total (shrinkAt f)
      = 2 * ∑ X ∈ places (r.x / 2) ((r.x + r.width) / 2 + 1),
          2 * ∑ Y ∈ places (r.y / 2) ((r.y + r.height) / 2 + 1), shrinkAt f ⟨X, Y⟩ := by
        rw [Rect.total, hright, hbottom, hleft, htop, Finset.sum_comm, ← Finset.mul_sum]
        ring
    _ = ∑ y ∈ places r.y (r.y + r.height),
          2 * ∑ X ∈ places (r.x / 2) ((r.x + r.width) / 2 + 1),
            Raster.blurred (fun x => f ⟨x, y⟩) (2 * X) := by
        rw [Finset.sum_congr rfl fun X _ => hcolumn X, Finset.sum_comm, Finset.mul_sum]
    _ = r.total f := by rw [Rect.total, Finset.sum_congr rfl fun y _ => hrow y]

/-! ## Halving -/

namespace Raster

/-- The weight of a sample so far from the middle of the blur. -/
def tap (i : Int) : ℚ := if i = 0 then 1 / 2 else 1 / 4

/-- What halving makes of a function on the plane that is zero outside `frame`. -/
structure Halves (frame : Rect) (fine : Point → ℚ) (area : Rect) (coarse : Point → ℚ) : Prop where
  /-- The weighted samples around twice a point are the coarse sample there, and zero where none
  is. -/
  sample : ∀ p, ∑ j ∈ {-1, 0, 1}, ∑ i ∈ {-1, 0, 1},
    tap i * tap j * fine ⟨2 * p.x + i, 2 * p.y + j⟩ = if p ∈ area then coarse p else 0
  /-- A quarter of the sum is left. -/
  total : 4 * area.total coarse = frame.total fine

theorem sum_taps (f : Int → ℚ) (c : Int) :
    ∑ i ∈ {-1, 0, 1}, tap i * f (c + i) = blurred f c := by
  have hbefore : c + -1 = c - 1 := by omega
  rw [Finset.sum_insert (by decide), Finset.sum_insert (by decide), Finset.sum_singleton,
    blurred_eq, hbefore, Int.add_zero, tap, tap, tap, if_neg (by decide), if_pos rfl,
    if_neg (by decide)]
  ring

/-- The weighted samples around twice a point are the blur there. -/
theorem sum_taps_eq_shrinkAt (f : Point → ℚ) (p : Point) :
    ∑ j ∈ {-1, 0, 1}, ∑ i ∈ {-1, 0, 1}, tap i * tap j * f ⟨2 * p.x + i, 2 * p.y + j⟩ =
      shrinkAt f p := by
  rw [shrinkAt, ← sum_taps]
  refine Finset.sum_congr rfl fun j _ => ?_
  rw [← sum_taps, Finset.mul_sum]
  exact Finset.sum_congr rfl fun i _ => by ring

variable {α : Type} [Cell ℚ α] [Readable α]

/-- **Halving loses nothing.**  A raster that covers a rectangle is halved unless a coordinate is
out of range or memory is short, which a blurrable raster excludes.  The halved raster covers the
reduced rectangle.  In each channel its samples are the weighted samples of the raster around twice
the point, zero outside the raster; where there is no coarse sample these add up to zero, and the
coarse samples add up to a quarter of the fine ones. -/
theorem halving_keeps_all (source : Raster α) (frame : Rect) (hfills : source.Fills frame) :
    Ends (fun cause => IsRange cause ∧ ¬ Blurrable α frame)
      (fun (coarse, area) => frame.reduced = .ok area ∧ coarse.Fills area ∧
        ∀ i, Halves frame (fun q => read i (source.cell frame q))
          area fun q => read i (coarse.cell area q))
      (source.reduce frame) := by
  have hframe : Ends (fun cause => IsRange cause ∧ ¬ Blurrable α frame)
      (fun area => frame.reduced = .ok area) (coarseFrame α frame) := by
    have hrange := ends_coarseFrame_reduced (α := α) frame
    cases hcoarse : coarseFrame α frame with
    | ok area => exact hrange.of_ok hcoarse
    | error cause =>
      refine ⟨hrange.of_error hcoarse, fun hblur => ?_⟩
      have hanswer := (hblur.answers_coarseFrame (E := fun _ => False) Readable.slim).eq_ok
      rw [hcoarse] at hanswer
      cases hanswer
  refine hframe.bind fun area harea => ?_
  obtain rfl := (Rect.ends_reduced frame).of_ok harea
  have hcoarse : (source.shrink frame (half frame)).Fills (half frame) := ⟨rfl, rfl⟩
  have hzero : ∀ i p, p ∉ frame → read i (source.cell frame p) = 0 := fun i p hp => by
    rw [cell_eq_zero hfills hp, Readable.read_zero]
  refine ⟨harea, hcoarse, fun i => ⟨fun p => ?_, ?_⟩⟩
  · refine (sum_taps_eq_shrinkAt (fun q => read i (source.cell frame q)) p).trans ?_
    split
    · next hp => exact (read_cell_shrink hfills i hp).symm
    · next hp => exact shrinkAt_eq_zero (hzero i) hp
  · rw [← total_shrinkAt (hzero i)]
    congr 1
    exact Rect.total_congr fun p hp => read_cell_shrink hfills i hp

/-- A raster of three by two samples, left of and below the origin by odd amounts. -/
theorem halving_keeps_all_odd :
    (tabulate 3 2 fun x y => (x + 3 * y : ℚ)).Fills ⟨-3, 1, 3, 2⟩ ∧
      Ends (fun _ => False) (fun (coarse, area) => area = ⟨-2, 0, 3, 2⟩ ∧ coarse.Fills area ∧
          4 * area.total (coarse.cell area) = 15)
        ((tabulate 3 2 fun x y => (x + 3 * y : ℚ)).reduce ⟨-3, 1, 3, 2⟩) := by
  have hfills : (tabulate 3 2 fun x y => (x + 3 * y : ℚ)).Fills ⟨-3, 1, 3, 2⟩ := ⟨rfl, rfl⟩
  refine ⟨hfills, (halving_keeps_all _ _ hfills).mono (fun cause h => ?_) ?_⟩
  · have hroom : Room ℚ 3 2 := Nat.le_of_ble_eq_true rfl
    exact h.2 ⟨hroom, fun _ => by constructor <;> decide⟩
  · rintro ⟨coarse, area⟩ ⟨harea, hcoarse, hhalves⟩
    have hhalf : Rect.reduced ⟨-3, 1, 3, 2⟩ = .ok ⟨-2, 0, 3, 2⟩ := by decide
    obtain rfl : ⟨-2, 0, 3, 2⟩ = area := Except.ok.inj (hhalf.symm.trans harea)
    exact ⟨rfl, hcoarse, (hhalves 0).total.trans (by decide +kernel)⟩

end Raster

end Patchwork
