import Patchwork.Proofs.Channel.Whole
import Patchwork.Proofs.Grassfire

/-!
# The distance to the nearest gap

Both sweeps work in place: a step reads values that the same sweep has already replaced.  What a
sweep has reached is described point by point.  After the first sweep a point holds its distance to
the nearest gap among those that are neither right of it nor below it; the step is that such a gap,
unless it is the point itself, is also behind the left or the upper neighbour.  After the second
sweep it holds the distance to the nearest gap of all, since a gap that is not behind the point is
nearer to its right or lower neighbour.

## Main definitions

* `Grassfire.Gap`, `Grassfire.steps` — where the fire starts, and how far it has to go.
* `Grassfire.Nearest`, `Grassfire.NearestBack` — the least distance to a gap, and to one behind.
* `Grassfire.Filled`, `Grassfire.Sweep` — a plane in the making, and the order of the points.

## Main statements

* `Grassfire.NearestBack.step`, `Grassfire.NearestBack.step_nearest` — one point on.
* `Grassfire.exists_nearest` — what the plane holds in the end.
* `Grassfire.measures_nearest_gap` — in single precision, without rounding.
-/

namespace Patchwork.Grassfire

open Channel Raster Outcome

/-! ## Sweeps -/

/-- A fold keeps an invariant of the part done so far, when each step does.  The step may use where
in the list it stands. -/
theorem foldl_split {β γ : Type} {f : β → γ → β} {I : List γ → β → Prop} {l : List γ} {b : β}
    (h0 : I [] b) (hstep : ∀ done c rest b, done ++ c :: rest = l → I done b →
      I (done ++ [c]) (f b c)) : I l (l.foldl f b) := by
  suffices h : ∀ (rest done : List γ) (b : β), done ++ rest = l → I done b →
      I l (rest.foldl f b) from h l [] b rfl h0
  intro rest
  induction rest with
  | nil =>
    rintro done b rfl hb
    rwa [List.append_nil]
  | cons c rest ih =>
    rintro done b rfl hb
    exact ih (done ++ [c]) _ (by simp) (hstep done c rest b rfl hb)

/-- The point comes first when a grid is read row by row. -/
def Before (p q : Point) : Prop := p.y < q.y ∨ p.y = q.y ∧ p.x < q.x

theorem Before.asymm {p q : Point} (h : Before p q) : ¬ Before q p := by
  simp only [Before] at *
  omega

/-- Positions are listed row by row. -/
theorem pairwise_positions (width height : Nat) : (positions width height).Pairwise Before := by
  rw [positions, List.pairwise_map]
  refine List.pairwise_lt_range.imp ?_
  intro k l hkl
  have hrow : k / width ≤ l / width := Nat.div_le_div_right hkl.le
  have hk := Nat.div_add_mod k width
  have hl := Nat.div_add_mod l width
  rcases hrow.lt_or_eq with hlt | heq
  · exact .inl (Int.ofNat_lt.mpr hlt)
  · refine .inr ⟨Int.ofNat_inj.mpr heq, Int.ofNat_lt.mpr ?_⟩
    rw [heq] at hk
    omega

section Sweep

variable {κ : Type} {alpha : Raster κ} {done rest : List Point} {p q : Point}

/-- The points of a plane in an order. -/
structure Sweep (alpha : Raster κ) (Precedes : Point → Point → Prop) (cells : List Point) :
    Prop where
  /-- They are listed in this order. -/
  sorted : cells.Pairwise Precedes
  /-- The order has no circles. -/
  asymm : ∀ p q, Precedes p q → ¬ Precedes q p
  /-- Every point of the plane is listed. -/
  mem_iff : ∀ p : Point, p ∈ cells ↔ alpha.Has p.x p.y

namespace Sweep

variable {Precedes : Point → Point → Prop} {cells : List Point}

theorem has (S : Sweep alpha Precedes (done ++ p :: rest)) : alpha.Has p.x p.y :=
  (S.mem_iff p).mp (by simp)

theorem not_mem_done (S : Sweep alpha Precedes (done ++ p :: rest)) : p ∉ done := by
  intro hp
  have hself := (List.pairwise_append.mp S.sorted).2.2 p hp p List.mem_cons_self
  exact S.asymm p p hself hself

/-- What precedes a point of the plane stands before it in the list. -/
theorem mem_done (S : Sweep alpha Precedes (done ++ p :: rest)) (hq : alpha.Has q.x q.y)
    (h : Precedes q p) : q ∈ done := by
  rcases List.mem_append.mp ((S.mem_iff q).mpr hq) with hq | hq
  · exact hq
  rcases List.mem_cons.mp hq with rfl | hq
  · exact absurd h (S.asymm _ _ h)
  · have hafter := (List.pairwise_cons.mp (List.pairwise_append.mp S.sorted).2.1).1 q hq
    exact absurd h (S.asymm _ _ hafter)

end Sweep

theorem sweep_positions (alpha : Raster κ) :
    Sweep alpha Before (positions alpha.width alpha.height) :=
  ⟨pairwise_positions _ _, fun _ _ => Before.asymm, fun _ => mem_positions⟩

theorem sweep_reverse (alpha : Raster κ) :
    Sweep alpha (fun p q => Before q p) (positions alpha.width alpha.height).reverse :=
  ⟨List.pairwise_reverse.mpr (pairwise_positions _ _), fun _ _ => Before.asymm,
    fun _ => List.mem_reverse.trans mem_positions⟩

end Sweep

/-! ## Distances -/

section Distance

variable {κ : Type} [Channel κ] {alpha : Raster κ} {p q : Point} {k m n : Nat}

/-- The point lies outside the plane, or has no coverage. -/
def Gap (alpha : Raster κ) (q : Point) : Prop := ¬ alpha.Has q.x q.y ∨ alpha.peek q.x q.y ≤ 0

/-- Horizontal and vertical steps from one point to another. -/
def steps (p q : Point) : Nat := (p.x - q.x).natAbs + (p.y - q.y).natAbs

/-- The least number of steps from a point to a gap. -/
def Nearest (alpha : Raster κ) (p : Point) : Nat → Prop :=
  IsLeast {d | ∃ q, Gap alpha q ∧ steps p q = d}

/-- The least number of steps to a gap that is neither right of the point nor below it. -/
def NearestBack (alpha : Raster κ) (p : Point) : Nat → Prop :=
  IsLeast {d | ∃ q, Gap alpha q ∧ q.x ≤ p.x ∧ q.y ≤ p.y ∧ steps p q = d}

theorem eq_of_steps_eq_zero (h : steps p q = 0) : p = q := by
  cases p
  cases q
  simp only [steps, Point.mk.injEq] at *
  omega

@[simp] theorem steps_self (p : Point) : steps p p = 0 := by
  simp [steps]

theorem Gap.nearest (h : Gap alpha p) : Nearest alpha p 0 :=
  ⟨⟨p, h, steps_self p⟩, fun _ _ => Nat.zero_le _⟩

theorem Gap.nearestBack (h : Gap alpha p) : NearestBack alpha p 0 :=
  ⟨⟨p, h, le_rfl, le_rfl, steps_self p⟩, fun _ _ => Nat.zero_le _⟩

/-- Only gaps are no step away from one. -/
theorem NearestBack.eq_zero_iff (h : NearestBack alpha p n) : n = 0 ↔ Gap alpha p := by
  constructor
  · rintro rfl
    obtain ⟨q, hq, -, -, hsteps⟩ := h.1
    rwa [eq_of_steps_eq_zero hsteps]
  · exact fun hgap => h.unique hgap.nearestBack

/-- A point that is no gap is one step further from the gaps behind it than the nearer of its left
and upper neighbours. -/
theorem NearestBack.step (hp : ¬ Gap alpha p) (hleft : NearestBack alpha ⟨p.x - 1, p.y⟩ m)
    (hup : NearestBack alpha ⟨p.x, p.y - 1⟩ n) : NearestBack alpha p (min m n + 1) := by
  constructor
  · rcases le_total m n with hle | hle
    · obtain ⟨q, hq, hx, hy, hsteps⟩ := hleft.1
      simp only [steps] at hx hy hsteps
      exact ⟨q, hq, by omega, by omega, by simp only [steps]; omega⟩
    · obtain ⟨q, hq, hx, hy, hsteps⟩ := hup.1
      simp only [steps] at hx hy hsteps
      exact ⟨q, hq, by omega, by omega, by simp only [steps]; omega⟩
  · rintro _ ⟨q, hq, hx, hy, rfl⟩
    -- the gap is another point, so it is still behind one of the neighbours
    have hne : ¬ (q.x = p.x ∧ q.y = p.y) := by
      rintro ⟨hx, hy⟩
      exact hp (show Gap alpha p by cases p; cases q; simp_all)
    by_cases hcolumn : q.x ≤ p.x - 1
    · have hm := hleft.2 ⟨q, hq, hcolumn, hy, rfl⟩
      simp only [steps] at hm ⊢
      omega
    · have hn := hup.2 ⟨q, hq, hx, by simp only; omega, rfl⟩
      simp only [steps] at hn ⊢
      omega

/-- The nearest gap of all lies behind the point, or is nearer to its right or lower neighbour. -/
theorem NearestBack.step_nearest (hback : NearestBack alpha p k)
    (hright : Nearest alpha ⟨p.x + 1, p.y⟩ m)
    (hbelow : Nearest alpha ⟨p.x, p.y + 1⟩ n) :
    Nearest alpha p (min (min k (m + 1)) (n + 1)) := by
  have hleast : ∀ q, Gap alpha q → min (min k (m + 1)) (n + 1) ≤ steps p q := by
    intro q hq
    by_cases hahead : p.x < q.x
    · have hm := hright.2 ⟨q, hq, rfl⟩
      simp only [steps] at hm ⊢
      omega
    by_cases hunder : p.y < q.y
    · have hn := hbelow.2 ⟨q, hq, rfl⟩
      simp only [steps] at hn ⊢
      omega
    · have hk := hback.2 ⟨q, hq, by omega, by omega, rfl⟩
      omega
  -- one of the three gaps is no further away than that
  obtain ⟨q, hq, hsteps⟩ : ∃ q, Gap alpha q ∧ steps p q ≤ min (min k (m + 1)) (n + 1) := by
    obtain ⟨q, hq, -, -, hk⟩ := hback.1
    obtain ⟨q', hq', hm⟩ := hright.1
    obtain ⟨q'', hq'', hn⟩ := hbelow.1
    by_cases hleft : k ≤ min (m + 1) (n + 1)
    · exact ⟨q, hq, by omega⟩
    by_cases hmiddle : m ≤ n
    · exact ⟨q', hq', by simp only [steps] at hm ⊢; omega⟩
    · exact ⟨q'', hq'', by simp only [steps] at hn ⊢; omega⟩
  refine ⟨⟨q, hq, le_antisymm hsteps (hleast q hq)⟩, ?_⟩
  rintro _ ⟨q, hq, rfl⟩
  exact hleast q hq

/-- The left border is not far. -/
theorem NearestBack.le (h : NearestBack alpha p n) (hp : -1 ≤ p.x) : (n : Int) ≤ p.x + 1 := by
  have hgap : Gap alpha ⟨-1, p.y⟩ := .inl fun hhas => absurd hhas.1 (by simp)
  have hn := h.2 ⟨_, hgap, hp, le_rfl, rfl⟩
  simp only [steps] at hn
  omega

/-- Nor is the right border. -/
theorem Nearest.le (h : Nearest alpha p n) (hp : p.x ≤ alpha.width) :
    (n : Int) ≤ alpha.width - p.x := by
  have hgap : Gap alpha ⟨alpha.width, p.y⟩ := .inl fun hhas => absurd hhas.2.1 (lt_irrefl _)
  have hn := h.2 ⟨_, hgap, rfl⟩
  simp only [steps] at hn
  omega

end Distance

/-! ## Planes in the making -/

section Plane

variable {κ : Type} [Channel κ] [Integral κ] {alpha plane : Raster κ} {done rest : List Point}
  {p q : Point} {n : Nat} {old new : Point → Nat → Prop}

/-- A plane of whole numbers, of one kind at the points that are done and of another at the rest. -/
structure Filled (alpha : Raster κ) (old new : Point → Nat → Prop) (done : List Point)
    (plane : Raster κ) : Prop where
  /-- The planes have the same columns. -/
  width_eq : plane.width = alpha.width
  /-- The planes have the same rows. -/
  height_eq : plane.height = alpha.height
  /-- The points that are done. -/
  cell_done : ∀ p ∈ done, ∃ n, new p n ∧ plane.peek p.x p.y = whole n
  /-- The others. -/
  cell_rest : ∀ p, p ∉ done → ∃ n, old p n ∧ plane.peek p.x p.y = whole n

theorem Filled.has_iff (h : Filled alpha old new done plane) {x y : Int} :
    plane.Has x y ↔ alpha.Has x y := by
  rw [Raster.has_iff, Raster.has_iff, h.width_eq, h.height_eq]

/-- A point that needs no change. -/
theorem Filled.keep (h : Filled alpha old new done plane) (hn : new p n)
    (hcell : plane.peek p.x p.y = whole n) : Filled alpha old new (done ++ [p]) plane := by
  refine ⟨h.width_eq, h.height_eq, ?_, ?_⟩
  · intro q hq
    rcases List.mem_append.mp hq with hq | hq
    · exact h.cell_done q hq
    · rw [List.mem_singleton.mp hq]
      exact ⟨n, hn, hcell⟩
  · intro q hq
    exact h.cell_rest q fun hdone => hq (List.mem_append_left _ hdone)

/-- A point that gets its number. -/
theorem Filled.write (h : Filled alpha old new done plane) (hhas : alpha.Has p.x p.y)
    (hn : new p n) :
    Filled alpha old new (done ++ [p]) (plane.modify p.x p.y fun _ => whole n) := by
  have hcell : ∀ q : Point, (plane.modify p.x p.y fun _ => whole n).peek q.x q.y =
      if q = p then whole n else plane.peek q.x q.y := by
    intro q
    have hpoint : q.x = p.x ∧ q.y = p.y ↔ q = p := by
      cases p
      cases q
      simp
    rw [peek_modify]
    simp only [h.has_iff.mpr hhas, true_and, hpoint]
  refine ⟨(width_modify ..).trans h.width_eq, (height_modify ..).trans h.height_eq, ?_, ?_⟩
  · intro q hq
    rw [hcell]
    split
    · next heq => exact ⟨n, heq ▸ hn, rfl⟩
    · next hne =>
      refine h.cell_done q ((List.mem_append.mp hq).resolve_right ?_)
      exact fun hq => hne (List.mem_singleton.mp hq)
  · intro q hq
    rw [hcell, if_neg fun heq => hq (List.mem_append_right _ (List.mem_singleton.mpr heq))]
    exact h.cell_rest q fun hdone => hq (List.mem_append_left _ hdone)

/-- A point that precedes the next one has its number, and so has a point outside. -/
theorem Sweep.exists_whole {Precedes : Point → Point → Prop}
    (S : Sweep alpha Precedes (done ++ p :: rest))
    (h : Filled alpha old new done plane) (hgap : ∀ q, Gap alpha q → new q 0)
    (hq : Precedes q p) : ∃ n, new q n ∧ plane.peek q.x q.y = whole n := by
  by_cases hhas : alpha.Has q.x q.y
  · exact h.cell_done q (S.mem_done hhas hq)
  · refine ⟨0, hgap q (.inl hhas), ?_⟩
    rw [peek_eq_zero fun h' => hhas (h.has_iff.mp h'), Integral.whole_zero]

/-- The sweep from the top left, one point on. -/
theorem Filled.kindle (hexact : Exact κ (alpha.width + alpha.height))
    (S : Sweep alpha Before (done ++ p :: rest))
    (h : Filled alpha (fun _ n => n = 0) (NearestBack alpha) done plane) :
    Filled alpha (fun _ n => n = 0) (NearestBack alpha) (done ++ [p])
      (Grassfire.kindle alpha plane p) := by
  have hhas := S.has
  obtain ⟨hx, hx', hy, hy'⟩ := id hhas
  unfold Grassfire.kindle
  by_cases hinvalid : alpha.peek p.x p.y ≤ 0
  · rw [if_pos hinvalid]
    obtain ⟨n, rfl, hcell⟩ := h.cell_rest p S.not_mem_done
    exact h.keep (Gap.nearestBack (.inr hinvalid)) hcell
  rw [if_neg hinvalid]
  obtain ⟨m, hm, hleft⟩ := S.exists_whole (q := ⟨p.x - 1, p.y⟩) h (fun _ => Gap.nearestBack)
    (.inr ⟨rfl, by simp only; omega⟩)
  obtain ⟨n, hn, hup⟩ := S.exists_whole (q := ⟨p.x, p.y - 1⟩) h (fun _ => Gap.nearestBack)
    (.inl (by simp only; omega))
  have hgap : ¬ Gap alpha p := not_or.mpr ⟨not_not.mpr hhas, hinvalid⟩
  have hnext := NearestBack.step hgap hm hn
  have hm' := hm.le (by simp only; omega)
  have hn' := hn.le (by simp only; omega)
  simp only at hleft hup hm' hn'
  have hexact' : ∀ i ≤ alpha.width + alpha.height, Exact κ i := fun _ hi =>
    Integral.exact_of_le hi hexact
  have hvalue : smaller (plane.peek (p.x - 1) p.y) (plane.peek p.x (p.y - 1)) + 1 =
      whole (min m n + 1) := by
    rw [hleft, hup, smaller_whole (hexact' _ (by omega)) (hexact' _ (by omega)),
      Integral.whole_succ (hexact' _ (by omega))]
  simp only [hvalue]
  exact h.write hhas (NearestBack.step hgap hm hn)

/-- The sweep from the bottom right, one point on. -/
theorem Filled.spread (hexact : Exact κ (alpha.width + alpha.height))
    (S : Sweep alpha (fun p q => Before q p) (done ++ p :: rest))
    (h : Filled alpha (NearestBack alpha) (Nearest alpha) done plane) :
    Filled alpha (NearestBack alpha) (Nearest alpha) (done ++ [p])
      (Grassfire.spread plane p) := by
  have hhas := S.has
  obtain ⟨hx, hx', hy, hy'⟩ := id hhas
  obtain ⟨k, hk, hcell⟩ := h.cell_rest p S.not_mem_done
  have hk' := hk.le (by omega)
  have hexact' : ∀ i ≤ alpha.width + alpha.height, Exact κ i := fun _ hi =>
    Integral.exact_of_le hi hexact
  unfold Grassfire.spread
  rw [hcell]
  by_cases hzero : k = 0
  · rw [if_pos ((Integral.whole_beq_zero_iff (hexact' k (by omega))).mpr hzero)]
    exact h.keep (hk.eq_zero_iff.mp hzero).nearest (hzero ▸ hcell)
  rw [if_neg (mt (Integral.whole_beq_zero_iff (hexact' k (by omega))).mp hzero)]
  obtain ⟨m, hm, hright⟩ := S.exists_whole (q := ⟨p.x + 1, p.y⟩) h (fun _ => Gap.nearest)
    (.inr ⟨rfl, by simp only; omega⟩)
  obtain ⟨n, hn, hbelow⟩ := S.exists_whole (q := ⟨p.x, p.y + 1⟩) h (fun _ => Gap.nearest)
    (.inl (by simp only; omega))
  have hm' := hm.le (by simp only; omega)
  have hn' := hn.le (by simp only; omega)
  simp only at hright hbelow hm' hn'
  have hvalue : smaller (smaller (whole k) (plane.peek (p.x + 1) p.y + 1))
      (plane.peek p.x (p.y + 1) + 1) = whole (min (min k (m + 1)) (n + 1)) := by
    rw [hright, hbelow, Integral.whole_succ (hexact' _ (by omega)),
      Integral.whole_succ (hexact' _ (by omega)),
      smaller_whole (hexact' _ (by omega)) (hexact' _ (by omega)),
      smaller_whole (hexact' _ (by omega)) (hexact' _ (by omega))]
  simp only [hvalue]
  exact h.write hhas (hk.step_nearest hm hn)

/-- The plane after both sweeps. -/
theorem filled_distances (hexact : Exact κ (alpha.width + alpha.height)) :
    Filled alpha (NearestBack alpha) (Nearest alpha) (positions alpha.width alpha.height).reverse
      (distances alpha) := by
  have hstart : Filled alpha (fun _ n => n = 0) (NearestBack alpha) []
      (Raster.zeros alpha.width alpha.height) := by
    refine ⟨rfl, rfl, List.forall_mem_nil _, fun p _ => ⟨0, rfl, ?_⟩⟩
    rw [peek_zeros, Integral.whole_zero]
  have hswept := foldl_split hstart fun done p rest plane hsplit h =>
    have S : Sweep alpha Before (done ++ p :: rest) := hsplit ▸ sweep_positions alpha
    h.kindle hexact S
  -- between the sweeps every point counts as one that is not done
  have hturn : Filled alpha (NearestBack alpha) (Nearest alpha) []
      ((positions alpha.width alpha.height).foldl (kindle alpha)
        (Raster.zeros alpha.width alpha.height)) := by
    refine ⟨hswept.width_eq, hswept.height_eq, List.forall_mem_nil _, fun p _ => ?_⟩
    by_cases hp : p ∈ positions alpha.width alpha.height
    · exact hswept.cell_done p hp
    · obtain ⟨n, rfl, hcell⟩ := hswept.cell_rest p hp
      exact ⟨0, Gap.nearestBack (.inl (mt mem_positions.mpr hp)), hcell⟩
  exact foldl_split hturn fun done p rest plane hsplit h =>
    have S : Sweep alpha (fun p q => Before q p) (done ++ p :: rest) :=
      hsplit ▸ sweep_reverse alpha
    h.spread hexact S

/-- Each cell of the plane is the distance to the nearest gap. -/
theorem exists_nearest (hexact : Exact κ (alpha.width + alpha.height)) (p : Point) :
    ∃ n, Nearest alpha p n ∧ (distances alpha).peek p.x p.y = whole n := by
  have hfilled := filled_distances hexact
  by_cases hp : p ∈ (positions alpha.width alpha.height).reverse
  · exact hfilled.cell_done p hp
  · have hhas : ¬ alpha.Has p.x p.y := fun h =>
      hp (List.mem_reverse.mpr (mem_positions.mpr h))
    refine ⟨0, Gap.nearest (.inl hhas), ?_⟩
    rw [peek_eq_zero fun h => hhas (hfilled.has_iff.mp h), Integral.whole_zero]

end Plane

/-- **Every valid pixel gets its distance to the nearest gap**, counted in horizontal and vertical
steps, where everything outside the plane is a gap; the others get zero.  Up to sides of 24 bits
together the distances are whole numbers that single precision holds exactly. -/
theorem measures_nearest_gap {alpha : Raster Float32}
    (hsize : alpha.width + alpha.height < 2 ^ 24) :
    ∃ plane, grassfire alpha = .ok plane ∧ plane.width = alpha.width ∧
      plane.height = alpha.height ∧ ∀ p : Point, alpha.Has p.x p.y →
        (alpha.peek p.x p.y ≤ 0 → plane.peek p.x p.y = 0) ∧
        (¬ alpha.peek p.x p.y ≤ 0 → ∃ n : Nat,
          IsLeast {d | ∃ q, (¬ alpha.Has q.x q.y ∨ alpha.peek q.x q.y ≤ 0) ∧ steps p q = d} n ∧
            plane.peek p.x p.y = Single.whole n ∧
            Single.value (plane.peek p.x p.y) = some (n : ℚ)) := by
  have hroom : Raster.allocate Float32 alpha.width alpha.height = .ok () := by
    have harea : alpha.width * alpha.height ≤ 2 ^ 24 * 2 ^ 24 :=
      Nat.mul_le_mul (by omega) (by omega)
    exact require_eq_ok_iff.mpr (show 4 * (alpha.width * alpha.height) ≤ blockMax by
      simp only [blockMax]
      omega)
  have hexact : Exact Float32 (alpha.width + alpha.height) := hsize
  have hfilled := filled_distances hexact
  refine ⟨distances alpha, ?_, hfilled.width_eq, hfilled.height_eq, fun p hp => ?_⟩
  · rw [grassfire, hroom]
    rfl
  obtain ⟨n, hn, hcell⟩ := exists_nearest hexact p
  constructor
  · intro hinvalid
    rw [hcell, hn.unique (Gap.nearest (.inr hinvalid))]
    rfl
  · intro _
    have hbound := hn.le hp.2.1.le
    have hp' := hp.1
    exact ⟨n, hn, hcell, hcell ▸ Single.value_whole (by omega)⟩

/-- Five by five pixels with a hole left of the middle. -/
def pond : Raster Float32 := tabulate 5 5 fun x y => if x = 1 ∧ y = 2 then 0 else 1

/-- Right of the middle the hole and the border are equally far. -/
theorem measures_nearest_gap_pond : pond.width + pond.height < 2 ^ 24 ∧
    ∃ plane, grassfire pond = .ok plane ∧ plane.peek 3 2 = Single.whole 2 ∧
      Single.value (plane.peek 3 2) = some 2 ∧ plane.peek 1 2 = 0 := by
  have hsize : pond.width + pond.height < 2 ^ 24 := by decide
  obtain ⟨plane, hplane, -, -, hcells⟩ := measures_nearest_gap hsize
  obtain ⟨n, ⟨⟨q, hq, hsteps⟩, hleast⟩, hcell, hvalue⟩ :=
    (hcells ⟨3, 2⟩ (by decide)).2 (by decide +kernel)
  have hhole : n ≤ 2 := hleast ⟨⟨1, 2⟩, .inr (by decide +kernel), by decide⟩
  have hvalid : ∀ q ∈ ([⟨3, 2⟩, ⟨2, 2⟩, ⟨4, 2⟩, ⟨3, 1⟩, ⟨3, 3⟩] : List Point),
      ¬ (¬ pond.Has q.x q.y ∨ pond.peek q.x q.y ≤ 0) := by decide +kernel
  have hfar : 2 ≤ n := by
    by_contra hnear
    refine hvalid q ?_ hq
    cases q
    simp only [steps] at hsteps
    simp only [List.mem_cons, Point.mk.injEq, List.not_mem_nil]
    omega
  obtain rfl : n = 2 := by omega
  exact ⟨hsize, plane, hplane, hcell, hvalue, (hcells ⟨1, 2⟩ (by decide)).1 (by decide +kernel)⟩

end Patchwork.Grassfire
