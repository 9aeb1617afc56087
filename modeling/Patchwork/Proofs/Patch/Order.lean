import Patchwork.Proofs.Patch.Exact

/-!
# The order of the sources

A blend adds the bands of its sources up and keeps the largest of their coverages.  Over the
rationals neither depends on the order, so it does not matter in which order the sources are given,
nor which of them are asked first because their pyramids are at hand.  Whether a patch can be made
at all does not depend on it either: a step looks only at the size of what it changes.

## Main definitions

* `Outcome.Swaps` — two steps that may change places.
* `PatchSource.unflagged` — a source whatever is at hand.

## Main statements

* `Patch.blend_perm` — a blend of the same sources in another order.
-/

namespace Patchwork

open Outcome Channel

variable {format : Format}

/-! ## Steps that may change places -/

namespace Outcome

variable {β γ : Type}

/-- What the first step and then the second one give, they give in the other order, too. -/
def Swaps (f g : β → Outcome β) : Prop :=
  ∀ b r, f b >>= g = .ok r → g b >>= f = .ok r

theorem Swaps.refl (f : β → Outcome β) : Swaps f f := fun _ _ => id

/-- A fold of such steps may be done in any order. -/
theorem foldlM_perm {f : β → γ → Outcome β} (hswaps : ∀ c d, Swaps (f · c) (f · d))
    {l l' : List γ} (hperm : l.Perm l') {b r : β} (h : l.foldlM f b = .ok r) :
    l'.foldlM f b = .ok r := by
  induction hperm generalizing b with
  | nil => exact h
  | cons c _ ih =>
    rw [List.foldlM_cons] at h ⊢
    obtain ⟨b', hb', h⟩ := bind_eq_ok_iff.mp h
    exact bind_eq_ok_iff.mpr ⟨b', hb', ih h⟩
  | swap c d l =>
    simp only [List.foldlM_cons] at h ⊢
    obtain ⟨b₁, hb₁, h⟩ := bind_eq_ok_iff.mp h
    obtain ⟨b₂, hb₂, h⟩ := bind_eq_ok_iff.mp h
    obtain ⟨b₁', hb₁', hb₂'⟩ :=
      bind_eq_ok_iff.mp (hswaps d c b b₂ (bind_eq_ok_iff.mpr ⟨b₁, hb₁, hb₂⟩))
    exact bind_eq_ok_iff.mpr ⟨b₁', hb₁', bind_eq_ok_iff.mpr ⟨b₂, hb₂', h⟩⟩
  | trans _ _ ih ih' => exact ih' (ih h)

end Outcome

/-! ## Merging images -/

/-- Changes of the cells that may change places, cell by cell. -/
theorem Raster.update_update_comm {α : Type} [Zero α] {f g : Int → Int → α → α}
    (h : ∀ x y cell, f x y (g x y cell) = g x y (f x y cell)) (r : Raster α) (a b : Rect) :
    (r.update a f).update b g = (r.update b g).update a f := by
  refine ext_peek (by simp) (by simp) fun x y _ => ?_
  simp only [peek_update, has_iff, width_update, height_update]
  split_ifs <;> simp_all

namespace Placed

variable {κ α : Type} [Channel κ] [Cell κ α] {x y : Int} {f : α → α → α}

omit [Channel κ] in
/-- A merge that succeeds is an update, of any raster of that size. -/
theorem mergeInto_eq_ok {p : Placed α} {target r : Raster α}
    (h : p.mergeInto target x y f = .ok r) :
    ∃ (area : Rect) (value : Int → Int → α), ∀ other : Raster α,
      other.width = target.width → other.height = target.height →
      p.mergeInto other x y f = .ok (other.update area fun i j cell => f cell (value i j)) := by
  unfold mergeInto at h
  obtain ⟨window, hwindow, h⟩ := bind_eq_ok_iff.mp h
  obtain ⟨overlap, hoverlap, -⟩ := bind_eq_ok_iff.mp h
  refine ⟨⟨overlap.x - x, overlap.y - y, overlap.width, overlap.height⟩,
    fun i j => p.raster.peek (i + x - p.frame.x) (j + y - p.frame.y), ?_⟩
  intro other hwidth hheight
  have hbounds : other.bounds = target.bounds := by rw [Raster.bounds, hwidth, hheight]; rfl
  unfold mergeInto
  rw [hbounds]
  exact bind_eq_ok_iff.mpr ⟨window, hwindow, bind_eq_ok_iff.mpr ⟨overlap, hoverlap, rfl⟩⟩

omit [Channel κ] in
/-- Two images may be merged into a raster in either order. -/
theorem swaps_mergeInto (hf : ∀ a b c, f (f a b) c = f (f a c) b) (p q : Placed α) (x y : Int) :
    Swaps (p.mergeInto · x y f) (q.mergeInto · x y f) := by
  intro target r h
  obtain ⟨middle, hp, hq⟩ := bind_eq_ok_iff.mp h
  obtain ⟨a, value, hmerge⟩ := mergeInto_eq_ok hp
  obtain ⟨b, other, hmerge'⟩ := mergeInto_eq_ok hq
  obtain rfl := Except.ok.inj (hp.symm.trans (hmerge target rfl rfl))
  obtain rfl := Except.ok.inj (hq.symm.trans (hmerge' _ rfl rfl))
  refine bind_eq_ok_iff.mpr ⟨_, hmerge' target (by simp) (by simp), ?_⟩
  rw [Raster.update_update_comm fun i j cell => hf cell (other i j) (value i j)]
  exact hmerge _ (by simp) (by simp)

end Placed

/-! ## Adding sources up -/

theorem Pixel.add_swap (p q r : Pixel format ℚ) : p + q + r = p + r + q := by
  apply ext_getElem
  intro i hi
  simp only [channels_add, Vector.getElem_zipWith]
  exact add_right_comm (p.channels[i] : ℚ) q.channels[i] r.channels[i]

namespace Layer

theorem add_eq_ok {layer r : Layer format ℚ} {level : Pyramid.Level format ℚ} :
    layer.add level = .ok r ↔ ∃ sum weight,
      level.image.addInto layer.sum layer.frame.x layer.frame.y = .ok sum ∧
      level.mask.addInto layer.weight layer.frame.x layer.frame.y = .ok weight ∧
      r = ⟨layer.frame, sum, weight⟩ := by
  constructor
  · intro h
    obtain ⟨sum, hsum, h⟩ := bind_eq_ok_iff.mp h
    obtain ⟨weight, hweight, h⟩ := bind_eq_ok_iff.mp h
    exact ⟨sum, weight, hsum, hweight, (Except.ok.inj h).symm⟩
  · rintro ⟨sum, weight, hsum, hweight, rfl⟩
    exact bind_eq_ok_iff.mpr ⟨sum, hsum, bind_eq_ok_iff.mpr ⟨weight, hweight, rfl⟩⟩

theorem addLevels_cons_eq_ok {layer : Layer format ℚ} {layers r : List (Layer format ℚ)}
    {level : Pyramid.Level format ℚ} {levels : List (Pyramid.Level format ℚ)} :
    addLevels (layer :: layers) (level :: levels) = .ok r ↔ ∃ first rest,
      layer.add level = .ok first ∧ addLevels layers levels = .ok rest ∧ r = first :: rest := by
  constructor
  · intro h
    obtain ⟨first, hfirst, h⟩ := bind_eq_ok_iff.mp h
    obtain ⟨rest, hrest, h⟩ := bind_eq_ok_iff.mp h
    exact ⟨first, rest, hfirst, hrest, (Except.ok.inj h).symm⟩
  · rintro ⟨first, rest, hfirst, hrest, rfl⟩
    exact bind_eq_ok_iff.mpr ⟨first, hfirst, bind_eq_ok_iff.mpr ⟨rest, hrest, rfl⟩⟩

theorem addLevels_nil (layers : List (Layer format ℚ)) : addLevels layers [] = .ok layers := by
  cases layers <;> rfl

/-- Two bands may be added to a level in either order. -/
theorem swaps_add (a b : Pyramid.Level format ℚ) :
    Swaps (fun layer : Layer format ℚ => layer.add a) (·.add b) := by
  intro layer r h
  obtain ⟨middle, ha, hb⟩ := bind_eq_ok_iff.mp h
  obtain ⟨sum, weight, hsum, hweight, rfl⟩ := add_eq_ok.mp ha
  obtain ⟨sum', weight', hsum', hweight', rfl⟩ := add_eq_ok.mp hb
  obtain ⟨first, hfirst, hsum'⟩ := bind_eq_ok_iff.mp
    (Placed.swaps_mergeInto Pixel.add_swap a.image b.image layer.frame.x layer.frame.y
      layer.sum sum' (bind_eq_ok_iff.mpr ⟨sum, hsum, hsum'⟩))
  obtain ⟨second, hsecond, hweight'⟩ := bind_eq_ok_iff.mp
    (Placed.swaps_mergeInto (add_right_comm : ∀ u v w : ℚ, u + v + w = u + w + v)
      a.mask b.mask layer.frame.x layer.frame.y layer.weight weight'
      (bind_eq_ok_iff.mpr ⟨weight, hweight, hweight'⟩))
  exact bind_eq_ok_iff.mpr ⟨⟨layer.frame, first, second⟩,
    add_eq_ok.mpr ⟨first, second, hfirst, hsecond, rfl⟩,
    add_eq_ok.mpr ⟨sum', weight', hsum', hweight', rfl⟩⟩

/-- Two sources may be added in either order. -/
theorem swaps_addLevels (as bs : List (Pyramid.Level format ℚ)) :
    Swaps (fun layers : List (Layer format ℚ) => addLevels layers as) (addLevels · bs) := by
  intro layers r h
  induction layers generalizing as bs r with
  | nil => exact h
  | cons layer layers ih =>
    cases as with
    | nil =>
      obtain ⟨middle, hmiddle, h⟩ := bind_eq_ok_iff.mp h
      obtain rfl := Except.ok.inj ((addLevels_nil _).symm.trans hmiddle)
      exact bind_eq_ok_iff.mpr ⟨r, h, addLevels_nil r⟩
    | cons a as =>
      cases bs with
      | nil =>
        obtain ⟨middle, hmiddle, h⟩ := bind_eq_ok_iff.mp h
        obtain rfl := Except.ok.inj ((addLevels_nil middle).symm.trans h)
        exact bind_eq_ok_iff.mpr ⟨_, addLevels_nil _, hmiddle⟩
      | cons b bs =>
        obtain ⟨middle, hmiddle, h⟩ := bind_eq_ok_iff.mp h
        obtain ⟨first, rest, hfirst, hrest, rfl⟩ := addLevels_cons_eq_ok.mp hmiddle
        obtain ⟨first', rest', hfirst', hrest', rfl⟩ := addLevels_cons_eq_ok.mp h
        obtain ⟨one, hone, hfirst'⟩ := bind_eq_ok_iff.mp
          (swaps_add a b layer first' (bind_eq_ok_iff.mpr ⟨first, hfirst, hfirst'⟩))
        obtain ⟨others, hothers, hrest'⟩ := bind_eq_ok_iff.mp
          (ih as bs rest' (bind_eq_ok_iff.mpr ⟨rest, hrest, hrest'⟩))
        exact bind_eq_ok_iff.mpr ⟨one :: others,
          addLevels_cons_eq_ok.mpr ⟨one, others, hone, hothers, rfl⟩,
          addLevels_cons_eq_ok.mpr ⟨first', rest', hfirst', hrest', rfl⟩⟩

end Layer

/-! ## Blending -/

/-- The source, whether its pyramid is at hand or not. -/
def PatchSource.unflagged {m : Type → Type} {κ : Type} (s : PatchSource m format κ) :
    PatchSource m format κ :=
  { s with resident := false }

namespace Patch

/-- Add the bands of one source. -/
def addSource (layers : List (Layer format ℚ)) (source : PatchSource Outcome format ℚ) :
    Outcome (List (Layer format ℚ)) := do
  Layer.addPyramid layers (← source.pyramid)

theorem swaps_addSource (s t : PatchSource Outcome format ℚ) :
    Swaps (addSource · s) (addSource · t) := by
  intro layers r h
  obtain ⟨middle, hmiddle, h⟩ := bind_eq_ok_iff.mp h
  obtain ⟨p, hp, hmiddle⟩ := bind_eq_ok_iff.mp hmiddle
  obtain ⟨q, hq, h⟩ := bind_eq_ok_iff.mp h
  obtain ⟨first, hfirst, h⟩ := bind_eq_ok_iff.mp
    (Layer.swaps_addLevels p.levels q.levels layers r (bind_eq_ok_iff.mpr ⟨middle, hmiddle, h⟩))
  exact bind_eq_ok_iff.mpr ⟨first, bind_eq_ok_iff.mpr ⟨q, hq, hfirst⟩,
    bind_eq_ok_iff.mpr ⟨p, hp, h⟩⟩

/-- Taking coverage into account, where it succeeds, is an update of any raster. -/
theorem raiseBySource_eq_ok {area : Rect} {highest r : Raster ℚ}
    {s : PatchSource Outcome format ℚ} (h : raiseBySource area highest s = .ok r) :
    ∃ (overlap : Rect) (value : Int → Int → ℚ), ∀ other : Raster ℚ,
      raiseBySource area other s =
        .ok (other.update overlap fun i j cell => larger cell (value i j)) := by
  unfold raiseBySource at h ⊢
  obtain ⟨meets, hmeets, h⟩ := bind_eq_ok_iff.mp h
  cases meets with
  | false => exact ⟨Rect.none, fun _ _ => 0, fun _ => bind_eq_ok_iff.mpr ⟨false, hmeets, rfl⟩⟩
  | true =>
    obtain ⟨alpha, halpha, h⟩ := bind_eq_ok_iff.mp h
    obtain ⟨overlap, hoverlap, -⟩ := bind_eq_ok_iff.mp h
    exact ⟨_, _, fun _ => bind_eq_ok_iff.mpr ⟨true, hmeets, bind_eq_ok_iff.mpr ⟨alpha, halpha,
      bind_eq_ok_iff.mpr ⟨overlap, hoverlap, rfl⟩⟩⟩⟩

theorem swaps_raiseBySource (area : Rect) (s t : PatchSource Outcome format ℚ) :
    Swaps (raiseBySource area · s) (raiseBySource area · t) := by
  intro highest r h
  obtain ⟨middle, hs, ht⟩ := bind_eq_ok_iff.mp h
  obtain ⟨a, value, hraise⟩ := raiseBySource_eq_ok hs
  obtain ⟨b, other, hraise'⟩ := raiseBySource_eq_ok ht
  obtain rfl := Except.ok.inj (hs.symm.trans (hraise highest))
  obtain rfl := Except.ok.inj (ht.symm.trans (hraise' _))
  refine bind_eq_ok_iff.mpr ⟨_, hraise' highest, ?_⟩
  have hlarger : ∀ i j (cell : ℚ), larger (larger cell (value i j)) (other i j) =
      larger (larger cell (other i j)) (value i j) := by
    intro i j cell
    rw [larger_eq_max, larger_eq_max, larger_eq_max, larger_eq_max, max_right_comm]
  rw [Raster.update_update_comm fun i j cell => (hlarger i j cell).symm]
  exact hraise _

/-- Selecting succeeds when all sources can be compared with the rectangle. -/
theorem near_eq_ok_iff {m : Type → Type} {κ : Type}
    {sources touching : List (PatchSource m format κ)} {target : Rect} :
    near sources target = .ok touching ↔
      (∀ s ∈ sources, ∃ meets, s.placement.intersects target = .ok meets) ∧
        touching = sources.filter fun s => decide (s.placement.Meets target) := by
  induction sources generalizing touching with
  | nil =>
    have hnone : near ([] : List (PatchSource m format κ)) target = .ok [] := rfl
    simp [hnone, eq_comm]
  | cons s sources ih =>
    rw [List.forall_mem_cons]
    cases hs : s.placement.intersects target with
    | error cause =>
      have hcons : near (s :: sources) target = .error cause := by
        rw [near, List.filterMapM_cons, hs]
        rfl
      rw [hcons]
      exact ⟨nofun, fun h => nomatch h.1.1⟩
    | ok meets =>
      obtain rfl := (Rect.ends_intersects _ _).of_ok hs
      by_cases hmeets : s.placement.Meets target
      · have hcons : near (s :: sources) target = (do return s :: (← near sources target)) := by
          rw [near, List.filterMapM_cons, hs, decide_eq_true hmeets]
          rfl
        rw [hcons, List.filter_cons_of_pos (by simpa using hmeets)]
        constructor
        · intro h
          obtain ⟨rest, hrest, h⟩ := bind_eq_ok_iff.mp h
          obtain ⟨hall, rfl⟩ := ih.mp hrest
          exact ⟨⟨⟨_, rfl⟩, hall⟩, (Except.ok.inj h).symm⟩
        · rintro ⟨⟨-, hall⟩, rfl⟩
          exact bind_eq_ok_iff.mpr ⟨_, ih.mpr ⟨hall, rfl⟩, rfl⟩
      · have hcons : near (s :: sources) target = near sources target := by
          rw [near, List.filterMapM_cons, hs, decide_eq_false hmeets]
          rfl
        rw [hcons, List.filter_cons_of_neg (by simpa using hmeets), ih]
        exact and_congr_left' (and_iff_right ⟨_, rfl⟩).symm

section Permuted

variable {m : Type → Type} {κ : Type} {sources sources' : List (PatchSource m format κ)}

theorem filter_unflagged (sources : List (PatchSource m format κ)) (target : Rect) :
    (sources.filter fun s => decide (s.placement.Meets target)).map PatchSource.unflagged =
      (sources.map PatchSource.unflagged).filter fun s => decide (s.placement.Meets target) := by
  rw [List.filter_map]
  rfl

theorem residentFirst_perm (sources : List (PatchSource m format κ)) :
    (residentFirst sources).Perm sources :=
  List.filter_append_perm _ sources

/-- The same sources are selected. -/
theorem near_perm (hperm : (sources.map PatchSource.unflagged).Perm
    (sources'.map PatchSource.unflagged)) {target : Rect}
    {touching : List (PatchSource m format κ)} (h : near sources target = .ok touching) :
    ∃ touching', near sources' target = .ok touching' ∧
      ((residentFirst touching).map PatchSource.unflagged).Perm
        ((residentFirst touching').map PatchSource.unflagged) := by
  obtain ⟨hall, rfl⟩ := near_eq_ok_iff.mp h
  refine ⟨_, near_eq_ok_iff.mpr ⟨?_, rfl⟩, ?_⟩
  · intro s hs
    obtain ⟨t, ht, heq⟩ := List.mem_map.mp (hperm.mem_iff.mpr (List.mem_map_of_mem hs))
    have hplacement : t.unflagged.placement = s.unflagged.placement :=
      congrArg PatchSource.placement heq
    exact (hplacement ▸ hall t ht :)
  · refine ((residentFirst_perm _).map _).trans (.trans ?_ ((residentFirst_perm _).map _).symm)
    rw [filter_unflagged, filter_unflagged]
    exact hperm.filter _

end Permuted

/-- A fold whose steps may change places does not depend on what is at hand. -/
theorem foldlM_unflagged {β : Type} {f : β → PatchSource Outcome format ℚ → Outcome β}
    (hflag : ∀ b s, f b s.unflagged = f b s) (hswaps : ∀ s t, Swaps (f · s) (f · t))
    {selected selected' : List (PatchSource Outcome format ℚ)}
    (hperm : (selected.map PatchSource.unflagged).Perm (selected'.map PatchSource.unflagged))
    {b r : β} (h : selected.foldlM f b = .ok r) : selected'.foldlM f b = .ok r := by
  have hmap : ∀ (l : List (PatchSource Outcome format ℚ)),
      (l.map PatchSource.unflagged).foldlM f b = l.foldlM f b := by
    intro l
    rw [List.foldlM_map]
    simp only [hflag]
  rw [← hmap] at h ⊢
  exact foldlM_perm hswaps hperm h

/-- **The order of the sources does not matter**, nor what is at hand of them. -/
theorem blend_perm {sources sources' : List (PatchSource Outcome format ℚ)}
    (hperm : (sources.map PatchSource.unflagged).Perm (sources'.map PatchSource.unflagged))
    {area : Rect} {params : PatchParams} {out : Raster (Pixel format ℚ)}
    (h : blend area params sources = .ok out) : blend area params sources' = .ok out := by
  unfold blend at h ⊢
  obtain ⟨frames, hframes, h⟩ := bind_eq_ok_iff.mp h
  obtain ⟨padded, hpadded, h⟩ := bind_eq_ok_iff.mp h
  obtain ⟨touching, htouching, h⟩ := bind_eq_ok_iff.mp h
  obtain ⟨blanks, hblanks, h⟩ := bind_eq_ok_iff.mp h
  obtain ⟨layers, hlayers, h⟩ := bind_eq_ok_iff.mp h
  obtain ⟨mixed, hmixed, h⟩ := bind_eq_ok_iff.mp h
  obtain ⟨touching', htouching', hselected⟩ := near_perm hperm htouching
  refine bind_eq_ok_iff.mpr ⟨frames, hframes, bind_eq_ok_iff.mpr ⟨padded, hpadded,
    bind_eq_ok_iff.mpr ⟨touching', htouching', bind_eq_ok_iff.mpr ⟨blanks, hblanks,
    bind_eq_ok_iff.mpr ⟨layers, ?_, bind_eq_ok_iff.mpr ⟨mixed, hmixed, ?_⟩⟩⟩⟩⟩⟩
  · exact foldlM_unflagged (fun _ _ => rfl) swaps_addSource hselected hlayers
  · split at h
    · next hfill =>
      rw [if_pos hfill]
      exact h
    · next hfill =>
      rw [if_neg hfill]
      obtain ⟨nothing, hnothing, h⟩ := bind_eq_ok_iff.mp h
      obtain ⟨highest, hhighest, h⟩ := bind_eq_ok_iff.mp h
      exact bind_eq_ok_iff.mpr ⟨nothing, hnothing, bind_eq_ok_iff.mpr ⟨highest,
        foldlM_unflagged (fun _ _ => rfl) (swaps_raiseBySource area) hselected hhighest, h⟩⟩

end Patch

end Patchwork
