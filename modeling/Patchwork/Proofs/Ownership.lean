import Patchwork.Ownership
import Patchwork.Proofs.Grassfire
import Patchwork.Proofs.Logic
import Patchwork.Proofs.Raster.Plane

/-!
# Who owns a pixel

A mask starts as its source's own distance plane, and every rival clears the pixels it takes.  What
is left depends on the order of the rivals no more: a pixel stays exactly when the source is deep
there and no source that covers it takes it.

## Main definitions

* `Ownership.Owns` — a source owns a point.
* `Ownership.IsMask` — a mask is one where its source owns and zero elsewhere.

## Main statements

* `Ownership.ensures_mask` — the mask of a source, in any monad.
* `Ownership.exists_owner`, `Ownership.Owns.eq` — a point has exactly one owner, or none.
-/

namespace Patchwork.Ownership

open Channel Outcome

variable {κ : Type} [Channel κ] [Counting κ] {placements : List Rect} {planes : Nat → Raster κ}

/-- The depth of a source at a point of the shared frame. -/
def depth (placements : List Rect) (planes : Nat → Raster κ) (index : Nat) (p : Point) : κ :=
  match placements[index]? with
  | some placement => (planes index).cell placement p
  | none => 0

omit [Counting κ] in
theorem depth_eq {index : Nat} {placement : Rect} (h : placements[index]? = some placement)
    (p : Point) : depth placements planes index p = (planes index).cell placement p := by
  simp only [depth, h]

/-- A source is deep at a point, and no other source that covers the point takes it. -/
def Owns (placements : List Rect) (planes : Nat → Raster κ) (index : Nat) (p : Point) : Prop :=
  0 < depth placements planes index p ∧
    ∀ other its, placements[other]? = some its → p ∈ its → other ≠ index →
      ¬ Takes other index (depth placements planes other p) (depth placements planes index p)

/-- The mask of a source: one where the source owns the point, zero elsewhere. -/
structure IsMask (placements : List Rect) (planes : Nat → Raster κ) (index : Nat)
    (placement : Rect) (mask : Raster κ) : Prop where
  /-- The depths of the source fill its place. -/
  deep : (planes index).Fills placement
  /-- The mask has the size of its source. -/
  fills : mask.Fills placement
  /-- What the source owns. -/
  one : ∀ p, p ∈ placement → Owns placements planes index p → mask.cell placement p = 1
  /-- What it does not own. -/
  zero : ∀ p, p ∈ placement → ¬ Owns placements planes index p → mask.cell placement p = 0

omit [Counting κ] in
/-- A mask has no other values. -/
theorem IsMask.binary {index : Nat} {placement : Rect} {mask : Raster κ}
    (h : IsMask placements planes index placement mask) (x y : Int) :
    mask.peek x y = 0 ∨ mask.peek x y = 1 := by
  have hx : placement.x + x - placement.x = x := by omega
  have hy : placement.y + y - placement.y = y := by omega
  have hcell : mask.cell placement ⟨placement.x + x, placement.y + y⟩ = mask.peek x y := by
    simp only [Raster.cell, hx, hy]
  rw [← hcell]
  by_cases hp : (⟨placement.x + x, placement.y + y⟩ : Point) ∈ placement
  · by_cases howns : Owns placements planes index ⟨placement.x + x, placement.y + y⟩
    · exact .inr (h.one _ hp howns)
    · exact .inl (h.zero _ hp howns)
  · exact .inl (Raster.cell_eq_zero h.fills hp)

omit [Counting κ] in
/-- There is one mask. -/
theorem IsMask.unique {index : Nat} {placement : Rect} {mask other : Raster κ}
    (h : IsMask placements planes index placement mask)
    (h' : IsMask placements planes index placement other) : mask = other := by
  apply Raster.ext_cell h.fills h'.fills
  intro p hp
  by_cases howns : Owns placements planes index p
  · rw [h.one p hp howns, h'.one p hp howns]
  · rw [h.zero p hp howns, h'.zero p hp howns]

/-! ## Clearing what rivals take -/

section Mask

variable {m : Type → Type} [Monad m] [MonadLiftT Outcome m] {E : Failure → Prop} (L : Logic m E)

/-- A mask from which the rivals so far have taken their pixels. -/
structure Contested (planes : Nat → Raster κ) (index : Nat) (placement : Rect)
    (done : List (Rect × Nat)) (mask : Raster κ) : Prop where
  /-- The mask has the size of its source. -/
  fills : mask.Fills placement
  /-- A pixel that a rival takes is cleared. -/
  taken : ∀ p, p ∈ placement →
    (∃ rival ∈ done, rival.2 ≠ index ∧ p ∈ rival.1 ∧
      Takes rival.2 index ((planes rival.2).cell rival.1 p) ((planes index).cell placement p)) →
    mask.cell placement p = 0
  /-- Any other keeps its depth. -/
  kept : ∀ p, p ∈ placement →
    (∀ rival ∈ done, rival.2 ≠ index → p ∈ rival.1 →
      ¬ Takes rival.2 index ((planes rival.2).cell rival.1 p) ((planes index).cell placement p)) →
    mask.cell placement p = (planes index).cell placement p

omit [Counting κ] in
/-- A rival that takes nothing. -/
theorem Contested.skip {index : Nat} {placement : Rect} {done : List (Rect × Nat)}
    {mask : Raster κ} (h : Contested planes index placement done mask) {rival : Rect × Nat}
    (hskip : rival.2 = index ∨ ¬ placement.Meets rival.1) :
    Contested planes index placement (done ++ [rival]) mask := by
  refine ⟨h.fills, fun p hp ⟨other, hother, hne, hmem, htakes⟩ => ?_, ?_⟩
  · rcases List.mem_append.mp hother with hother | hother
    · exact h.taken p hp ⟨other, hother, hne, hmem, htakes⟩
    · rw [List.mem_singleton.mp hother] at hne hmem
      rcases hskip with hskip | hskip
      · exact absurd hskip hne
      · exact absurd ⟨p, hp, hmem⟩ hskip
  · intro p hp hnone
    exact h.kept p hp fun other hother => hnone other (List.mem_append_left _ hother)

omit [Counting κ] in
/-- A rival clears what it takes. -/
theorem Contested.yield {index : Nat} {placement : Rect} {done : List (Rect × Nat)}
    {mask : Raster κ} (h : Contested planes index placement done mask) {rival : Rect × Nat}
    (hne : rival.2 ≠ index) :
    Contested planes index placement (done ++ [rival])
      (Ownership.yield mask (planes index) (planes rival.2) index rival.2 placement rival.1
        (placement.meet rival.1)) := by
  obtain ⟨its, other⟩ := rival
  have hcell : ∀ p, p ∈ placement →
      (Ownership.yield mask (planes index) (planes other) index other placement its
        (placement.meet its)).cell placement p =
      if p ∈ its then
        if Takes other index ((planes other).cell its p) ((planes index).cell placement p) then 0
        else mask.cell placement p
      else mask.cell placement p := by
    intro p hp
    have hx : p.x - placement.x + placement.x = p.x := by omega
    have hy : p.y - placement.y + placement.y = p.y := by omega
    rw [Ownership.yield, Raster.cell_update h.fills _ _ hp]
    simp only [Rect.mem_meet, hp, true_and, hx, hy, Raster.cell]
    rfl
  refine ⟨Raster.fills_update h.fills _ _, ?_, ?_⟩
  · intro p hp htaken
    rw [hcell p hp]
    by_cases hmine : p ∈ its ∧ Takes other index ((planes other).cell its p)
        ((planes index).cell placement p)
    · rw [if_pos hmine.1, if_pos hmine.2]
    · have hbefore : mask.cell placement p = 0 := by
        obtain ⟨rival, hrival, hne', hmem, htakes⟩ := htaken
        rcases List.mem_append.mp hrival with hrival | hrival
        · exact h.taken p hp ⟨rival, hrival, hne', hmem, htakes⟩
        · rw [List.mem_singleton.mp hrival] at hmem htakes
          exact absurd ⟨hmem, htakes⟩ hmine
      rw [hbefore]
      split
      · split <;> rfl
      · rfl
  · intro p hp hnone
    rw [hcell p hp, h.kept p hp fun rival hrival => hnone rival (List.mem_append_left _ hrival)]
    have hlast := hnone ⟨its, other⟩ (by simp) hne
    split
    · next hmem => rw [if_neg (hlast hmem)]
    · rfl

omit [Channel κ] [Counting κ] in
theorem ends_checkPlane {index : Nat} {placement : Rect} {plane : Raster κ}
    (hfit : plane.Fills placement ∨ ∀ problem, E (.problem problem)) :
    Ends E (fun _ => plane.Fills placement) (checkPlane index placement plane) := by
  unfold checkPlane
  by_cases h : plane.Fills placement
  · rw [if_pos h]
    exact h
  · rw [if_neg h]
    exact hfit.elim (absurd · h) fun hall => hall _

omit [Counting κ] in
/-- Dealing with one rival. -/
theorem ensures_contest {plane : Nat → m (Raster κ)} (hover : ∀ cause, IsOverflow cause → E cause)
    {index : Nat} {placement : Rect} {done : List (Rect × Nat)} {rival : Rect × Nat}
    (hplane : L.Ensures (· = planes rival.2) (plane rival.2))
    (hfit : (planes rival.2).Fills rival.1 ∨ ∀ cause, E cause) {mask : Raster κ}
    (h : Contested planes index placement done mask) :
    L.Ensures (Contested planes index placement (done ++ [rival]))
      (contest plane index placement (planes index) mask rival) := by
  obtain ⟨its, other⟩ := rival
  by_cases hself : other = index
  · simp only [contest]
    rw [if_pos hself]
    exact L.pure (h.skip (.inl hself))
  simp only [contest]
  rw [if_neg hself]
  refine L.bind_eq (L.lift ((Rect.ends_intersects placement its).weaken hover)) ?_
  by_cases hmeets : placement.Meets its
  · simp only [hmeets, decide_true, Bool.not_true, Bool.false_eq_true, if_false]
    refine L.bind_eq hplane ?_
    apply L.bind (L.lift (ends_checkPlane (hfit.imp_right fun hall _ => hall _)))
    intro _ _
    refine L.bind_eq (L.lift ((Rect.ends_intersect placement its).weaken hover)) ?_
    have hne : Prod.snd (its, other) ≠ index := hself
    exact L.pure (h.yield hne)
  · simp only [hmeets, decide_false, Bool.not_false, if_true]
    exact L.pure (h.skip (.inr hmeets))

/-- **The mask of a source** is one on what the source owns and zero elsewhere. -/
theorem ensures_mask {plane : Nat → m (Raster κ)} (hover : ∀ cause, IsOverflow cause → E cause)
    (hplane : ∀ i its, placements[i]? = some its → L.Ensures (· = planes i) (plane i))
    (hfit : ∀ i its, placements[i]? = some its → (planes i).Fills its ∨ ∀ cause, E cause)
    {index : Nat} {placement : Rect} (hindex : placements[index]? = some placement) :
    L.Ensures (IsMask placements planes index placement) (mask index placements plane) := by
  unfold mask
  simp only [hindex]
  refine L.bind_eq (hplane index placement hindex) ?_
  apply L.bind (L.lift (ends_checkPlane ((hfit index placement hindex).imp_right fun hall _ =>
    hall _)))
  intro _ hfills
  have hstart : Contested planes index placement [] (planes index) :=
    ⟨hfills, by simp, fun _ _ _ => rfl⟩
  have hfold := L.foldlM (f := contest plane index placement (planes index))
    (I := Contested planes index placement) (l := placements.zipIdx) hstart
    fun done rival mask hrival hmask => by
      have hits := List.mem_zipIdx_iff_getElem?.mp hrival
      exact ensures_contest L hover (hplane _ _ hits) (hfit _ _ hits) hmask
  refine L.bind hfold fun kept hkept => L.pure ?_
  have hmap : (kept.map fun v => if 0 < v then (1 : κ) else 0).Fills placement := hkept.fills
  refine ⟨hfills, hmap, ?_, ?_⟩
  · intro p hp howns
    rw [Raster.cell_map hkept.fills hp, hkept.kept p hp ?_, if_pos]
    · rw [← depth_eq hindex]
      exact howns.1
    · intro rival hrival hne hmem
      have hits := List.mem_zipIdx_iff_getElem?.mp hrival
      rw [← depth_eq hits, ← depth_eq hindex]
      exact howns.2 _ _ hits hmem hne
  · intro p hp hnot
    rw [Raster.cell_map hkept.fills hp]
    by_cases htaken : ∃ rival ∈ placements.zipIdx, rival.2 ≠ index ∧ p ∈ rival.1 ∧
        Takes rival.2 index ((planes rival.2).cell rival.1 p) ((planes index).cell placement p)
    · rw [hkept.taken p hp htaken, if_neg (Counting.lt_irrefl Counting.zero)]
    · have hnone : ∀ rival ∈ placements.zipIdx, rival.2 ≠ index → p ∈ rival.1 →
          ¬ Takes rival.2 index ((planes rival.2).cell rival.1 p)
            ((planes index).cell placement p) :=
        fun rival hrival hne hmem htakes => htaken ⟨rival, hrival, hne, hmem, htakes⟩
      rw [hkept.kept p hp hnone, if_neg]
      intro hpos
      refine hnot ⟨by rwa [depth_eq hindex], ?_⟩
      intro other its hits hmem hne
      rw [depth_eq hits, depth_eq hindex]
      exact hnone ⟨its, other⟩ (List.mem_zipIdx_iff_getElem?.mpr hits) hne hmem

end Mask

/-! ## One owner -/

/-- The sources that cover a point, and the depth of each is a count. -/
structure Counted (placements : List Rect) (planes : Nat → Raster κ) : Prop where
  /-- Every depth is a count. -/
  count : ∀ index p, Count (depth placements planes index p)

variable {index other : Nat} {p : Point}

/-- Of two sources one takes the point from the other. -/
theorem Counted.takes_or_takes (h : Counted placements planes) (p : Point) (hne : other ≠ index) :
    Takes other index (depth placements planes other p) (depth placements planes index p) ∨
      Takes index other (depth placements planes index p) (depth placements planes other p) := by
  have hmine := h.count index p
  have htheirs := h.count other p
  by_cases hlt : depth placements planes index p < depth placements planes other p
  · exact .inl (.inl hlt)
  by_cases hgt : depth placements planes other p < depth placements planes index p
  · exact .inr (.inl hgt)
  rcases Nat.lt_or_gt_of_ne hne with hbefore | hafter
  · exact .inl (.inr ⟨(Counting.beq_iff htheirs hmine).mpr ⟨hgt, hlt⟩, hbefore⟩)
  · exact .inr (.inr ⟨(Counting.beq_iff hmine htheirs).mpr ⟨hlt, hgt⟩, hafter⟩)

/-- A point has at most one owner. -/
theorem Owns.eq (h : Counted placements planes) {placement its : Rect}
    (hindex : placements[index]? = some placement) (hother : placements[other]? = some its)
    (hp : p ∈ placement) (hp' : p ∈ its) (howns : Owns placements planes index p)
    (howns' : Owns placements planes other p) : other = index := by
  by_contra hne
  rcases h.takes_or_takes p hne with htakes | htakes
  · exact howns.2 other its hother hp' hne htakes
  · exact howns'.2 index placement hindex hp (Ne.symm hne) htakes

/-- A source that takes a point from a deep one is deep. -/
theorem Counted.pos_of_takes (h : Counted placements planes)
    (htakes : Takes other index (depth placements planes other p)
      (depth placements planes index p))
    (hpos : 0 < depth placements planes index p) : 0 < depth placements planes other p := by
  have hmine := h.count index p
  have htheirs := h.count other p
  rcases htakes with hlt | ⟨heq, -⟩
  · exact Counting.lt_trans Counting.zero hmine htheirs hpos hlt
  · refine (Counting.lt_or_lt Counting.zero htheirs hmine hpos).resolve_right ?_
    exact ((Counting.beq_iff htheirs hmine).mp heq).1

theorem not_takes_self (h : Counted placements planes) :
    ¬ Takes index index (depth placements planes index p) (depth placements planes index p) := by
  rintro (hlt | ⟨-, hlt⟩)
  · exact Counting.lt_irrefl (h.count index p) hlt
  · exact Nat.lt_irrefl index hlt

/-- Taking a point is transitive. -/
theorem Counted.takes_trans (h : Counted placements planes) {third : Nat}
    (h1 : Takes third other (depth placements planes third p) (depth placements planes other p))
    (h2 : Takes other index (depth placements planes other p) (depth placements planes index p)) :
    Takes third index (depth placements planes third p) (depth placements planes index p) := by
  have hindex := h.count index p
  have hother := h.count other p
  have hthird := h.count third p
  rcases h1 with h1 | ⟨heq1, hlt1⟩
  · rcases h2 with h2 | ⟨heq2, -⟩
    · exact .inl (Counting.lt_trans hindex hother hthird h2 h1)
    · have hsame := (Counting.beq_iff hother hindex).mp heq2
      exact .inl ((Counting.lt_or_lt hother hindex hthird h1).resolve_left hsame.1)
  · have hsame := (Counting.beq_iff hthird hother).mp heq1
    rcases h2 with h2 | ⟨heq2, hlt2⟩
    · exact .inl ((Counting.lt_or_lt hindex hthird hother h2).resolve_right hsame.1)
    · have hsame' := (Counting.beq_iff hother hindex).mp heq2
      refine .inr ⟨(Counting.beq_iff hthird hindex).mpr ⟨?_, ?_⟩, Nat.lt_trans hlt1 hlt2⟩
      · intro hlt
        exact (Counting.lt_or_lt hthird hother hindex hlt).elim hsame.1 hsame'.1
      · intro hlt
        exact (Counting.lt_or_lt hindex hother hthird hlt).elim hsame'.2 hsame.2

/-- Among some sources there is one from which none of them takes the point. -/
theorem Counted.exists_untaken (h : Counted placements planes) (p : Point) {l : List Nat}
    (hl : l ≠ []) :
    ∃ owner ∈ l, ∀ rival ∈ l,
      ¬ Takes rival owner (depth placements planes rival p) (depth placements planes owner p) := by
  induction l with
  | nil => exact absurd rfl hl
  | cons first l ih =>
    by_cases hempty : l = []
    · subst hempty
      exact ⟨first, by simp, by simpa using not_takes_self h⟩
    obtain ⟨owner, howner, hnone⟩ := ih hempty
    by_cases htakes : Takes first owner (depth placements planes first p)
        (depth placements planes owner p)
    · refine ⟨first, by simp, ?_⟩
      intro rival hrival htaken
      rcases List.mem_cons.mp hrival with rfl | hrival
      · exact not_takes_self h htaken
      · exact hnone rival hrival (h.takes_trans htaken htakes)
    · refine ⟨owner, List.mem_cons_of_mem _ howner, ?_⟩
      intro rival hrival
      rcases List.mem_cons.mp hrival with rfl | hrival
      · exact htakes
      · exact hnone rival hrival

/-- A point that lies deep in some source has an owner. -/
theorem Counted.exists_owner (h : Counted placements planes) {placement : Rect}
    (hindex : placements[index]? = some placement) (hp : p ∈ placement)
    (hdeep : 0 < depth placements planes index p) :
    ∃ owner its, placements[owner]? = some its ∧ p ∈ its ∧ Owns placements planes owner p := by
  -- the sources that cover the point
  let covering := (List.range placements.length).filter fun i =>
    ∃ its, placements[i]? = some its ∧ p ∈ its
  have hmem : ∀ i, i ∈ covering ↔ ∃ its, placements[i]? = some its ∧ p ∈ its := by
    intro i
    simp only [covering, List.mem_filter, List.mem_range, decide_eq_true_eq]
    exact ⟨fun hi => hi.2, fun hi => ⟨(List.getElem?_eq_some_iff.mp hi.choose_spec.1).1, hi⟩⟩
  have hcovers : index ∈ covering := (hmem index).mpr ⟨placement, hindex, hp⟩
  obtain ⟨owner, howner, hnone⟩ := h.exists_untaken p (List.ne_nil_of_mem hcovers)
  obtain ⟨its, hits, hpits⟩ := (hmem owner).mp howner
  refine ⟨owner, its, hits, hpits, ?_, fun rival its' hits' hp' _ =>
    hnone rival ((hmem rival).mpr ⟨its', hits', hp'⟩)⟩
  by_cases hsame : index = owner
  · exact hsame ▸ hdeep
  · exact h.pos_of_takes ((h.takes_or_takes p hsame).resolve_left (hnone index hcovers)) hdeep

end Patchwork.Ownership
