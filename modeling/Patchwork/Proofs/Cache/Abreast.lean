import Mathlib.Data.List.Forall2
import Patchwork.Proofs.Cache.Pool

/-!
# Stores that go abreast

Two stores can do the same work with the coordinates of everything moved.  Step by step their
recipes ask for the same values, look at the same places and change their worlds in the same way;
one world is always what a fixed function makes of the other.  What the caches keep, count and evict
depends on none of this, so it stays equal.

Coordinates have an end on each side, and a recipe that reaches it in one store need not reach it in
the other.  From there on nothing is claimed.  Such an overflow is a fault, which no recipe
survives, so it is the answer of the whole run.

## Main definitions

* `Outcome.Abreast`, `Recipe.Abreast` — two outcomes or recipes that belong together, unless a
  coordinate overflows in one of them.
* `Recipe.blind` — recipes that go abreast with themselves.
* `Store.Abreast` — two stores with such recipes, equal but for their worlds.

## Main statements

* `Recipe.Abreast.run`, `Catalogue.Abreast.visit` — running recipes, asking for values.
* `Store.Abreast.perform`, `Store.Abreast.insert` — the stores afterwards.
-/

namespace Patchwork

variable {α β γ δ : Type}

/-- Both are refusals or both are faults. -/
def Failure.SameKind : Failure → Failure → Prop
  | .problem _, .problem _ => True
  | .fault _, .fault _ => True
  | _, _ => False

theorem Failure.SameKind.refl (cause : Failure) : cause.SameKind cause := by
  cases cause <;> trivial

namespace Outcome

/-- Both answer or both fail, with answers or causes that belong together, or a coordinate overflows
in one of them. -/
inductive Abreast (E : Failure → Failure → Prop) (R : α → β → Prop) : Outcome α → Outcome β → Prop
  /-- Both answer. -/
  | ok {a : α} {b : β} (h : R a b) : Abreast E R (.ok a) (.ok b)
  /-- Both fail. -/
  | error {cause cause' : Failure} (h : E cause cause') : Abreast E R (.error cause) (.error cause')
  /-- The first overflows. -/
  | overflow_left (y : Outcome β) : Abreast E R (.error (.fault .overflow)) y
  /-- The second overflows. -/
  | overflow_right (x : Outcome α) : Abreast E R x (.error (.fault .overflow))

namespace Abreast

variable {E : Failure → Failure → Prop} {R : α → β → Prop} {S : γ → δ → Prop} {x : Outcome α}
  {y : Outcome β}

theorem bind {f : α → Outcome γ} {g : β → Outcome δ} (h : Abreast E R x y)
    (hf : ∀ a b, R a b → Abreast E S (f a) (g b)) : Abreast E S (x >>= f) (y >>= g) := by
  cases h with
  | ok h => exact hf _ _ h
  | error h => exact .error h
  | overflow_left y => exact .overflow_left _
  | overflow_right x => exact .overflow_right _

/-- A refusal under conditions that belong together. -/
theorem guard {p q : Prop} [Decidable p] [Decidable q] (hpq : q ↔ p) {cause cause' : Failure}
    (hcause : E cause cause') {f : Unit → Outcome α} {g : Unit → Outcome β}
    (hf : ¬ p → Abreast E R (f ()) (g ())) :
    Abreast E R (if p then (.error cause : Outcome Unit) >>= f else f ())
      (if q then (.error cause' : Outcome Unit) >>= g else g ()) := by
  by_cases hp : p
  · rw [if_pos hp, if_pos (hpq.mpr hp)]
    exact .error hcause
  · rw [if_neg hp, if_neg (fun hq => hp (hpq.mp hq))]
    exact hf hp

/-- Outcomes that are known but for an overflow. -/
theorem of_ends {P : α → Prop} {Q : β → Prop} (hx : Ends IsOverflow P x) (hy : Ends IsOverflow Q y)
    (hR : ∀ a b, P a → Q b → R a b) : Abreast E R x y := by
  cases x with
  | error cause =>
    obtain rfl : cause = .fault .overflow := hx
    exact .overflow_left y
  | ok a =>
    cases y with
    | error cause =>
      obtain rfl : cause = .fault .overflow := hy
      exact .overflow_right _
    | ok b => exact .ok (hR a b hx hy)

theorem refl (hE : ∀ cause, E cause cause) (x : Outcome α) : Abreast E Eq x x := by
  cases x with
  | ok a => exact .ok rfl
  | error cause => exact .error (hE cause)

end Abreast

end Outcome

namespace Cache

variable {ω V : Type}

/-! ## Recipes -/

namespace Recipe

/-- The recipes take the same steps, one in any world and the other in what `move` makes of it,
until they answer or fail together or a coordinate overflows in one of them. -/
inductive Abreast (move : ω → ω) (E : Failure → Failure → Prop) (R : α → β → Prop) :
    Recipe ω V α → Recipe ω V β → Prop
  | done {a : α} {b : β} (h : R a b) : Abreast move E R (.done a) (.done b)
  | stop {cause cause' : Failure} (h : E cause cause') :
      Abreast move E R (.stop cause) (.stop cause')
  | overflow_left (r : Recipe ω V β) : Abreast move E R (.stop (.fault .overflow)) r
  | overflow_right (r : Recipe ω V α) : Abreast move E R r (.stop (.fault .overflow))
  | access {h : Handle} {next : Except Problem V → Recipe ω V α}
      {next' : Except Problem V → Recipe ω V β}
      (hnext : ∀ answer, Abreast move E R (next answer) (next' answer)) :
      Abreast move E R (.access h next) (.access h next')
  | lower {h : Handle} {next : Recipe ω V α} {next' : Recipe ω V β}
      (hnext : Abreast move E R next next') : Abreast move E R (.lower h next) (.lower h next')
  | inspect {h : Handle} {next : Status → Recipe ω V α} {next' : Status → Recipe ω V β}
      (hnext : ∀ status, Abreast move E R (next status) (next' status)) :
      Abreast move E R (.inspect h next) (.inspect h next')
  | read {next : ω → Recipe ω V α} {next' : ω → Recipe ω V β}
      (hnext : ∀ w, Abreast move E R (next w) (next' (move w))) :
      Abreast move E R (.read next) (.read next')
  | write {change change' : ω → ω} {next : Recipe ω V α} {next' : Recipe ω V β}
      (hchange : ∀ w, change' (move w) = move (change w)) (hnext : Abreast move E R next next') :
      Abreast move E R (.write change next) (.write change' next')

namespace Abreast

variable {move : ω → ω} {E E' : Failure → Failure → Prop} {R R' : α → β → Prop} {S : γ → δ → Prop}
  {r : Recipe ω V α} {r' : Recipe ω V β}

theorem mono (h : Abreast move E R r r') (hE : ∀ c d, E c d → E' c d)
    (hR : ∀ a b, R a b → R' a b) : Abreast move E' R' r r' := by
  induction h with
  | done h => exact .done (hR _ _ h)
  | stop h => exact .stop (hE _ _ h)
  | overflow_left r => exact .overflow_left r
  | overflow_right r => exact .overflow_right r
  | access _ ih => exact .access ih
  | lower _ ih => exact .lower ih
  | inspect _ ih => exact .inspect ih
  | read _ ih => exact .read ih
  | write hchange _ ih => exact .write hchange ih

/-- One recipe after another. -/
theorem bind {f : α → Recipe ω V γ} {g : β → Recipe ω V δ} (h : Abreast move E R r r')
    (hf : ∀ a b, R a b → Abreast move E S (f a) (g b)) : Abreast move E S (r >>= f) (r' >>= g) := by
  simp only [bind_eq_bind]
  induction h with
  | done h => exact hf _ _ h
  | stop h => exact .stop h
  | overflow_left r => exact .overflow_left _
  | overflow_right r => exact .overflow_right _
  | access _ ih => exact .access ih
  | lower _ ih => exact .lower ih
  | inspect _ ih => exact .inspect ih
  | read _ ih => exact .read ih
  | write hchange _ ih => exact .write hchange ih

/-- A step with one answer. -/
theorem bind_eq {r r' : Recipe ω V α} {f : α → Recipe ω V γ} {g : α → Recipe ω V δ}
    (h : Abreast move E Eq r r') (hf : ∀ a, Abreast move E S (f a) (g a)) :
    Abreast move E S (r >>= f) (r' >>= g) :=
  h.bind fun a _ hab => hab ▸ hf a

theorem lift {x : Outcome α} {y : Outcome β} (h : Outcome.Abreast E R x y) :
    Abreast move E R (ofOutcome x : Recipe ω V α) (ofOutcome y) := by
  cases h with
  | ok h => exact .done h
  | error h => exact .stop h
  | overflow_left y => exact .overflow_left _
  | overflow_right x => exact .overflow_right _

theorem fetch (hE : ∀ cause, E cause cause) (h : Handle) :
    Abreast move E Eq (Recipe.fetch h : Recipe ω V V) (Recipe.fetch h) := by
  refine .access fun answer => ?_
  cases answer with
  | ok value => exact .done rfl
  | error cause => exact .stop (hE _)

theorem demote (h : Handle) :
    Abreast move E Eq (Recipe.demote h : Recipe ω V Unit) (Recipe.demote h) := .lower (.done rfl)

theorem statusOf (h : Handle) :
    Abreast move E Eq (Recipe.statusOf h : Recipe ω V Status) (Recipe.statusOf h) :=
  .inspect fun _ => .done rfl

theorem observe {part : ω → α} {part' : ω → β} (hpart : ∀ w, R (part w) (part' (move w))) :
    Abreast move E R (Recipe.observe part : Recipe ω V α) (Recipe.observe part') :=
  .read fun w => .done (hpart w)

theorem amend {change change' : ω → ω} (hchange : ∀ w, change' (move w) = move (change w)) :
    Abreast move E Eq (Recipe.amend change : Recipe ω V Unit) (Recipe.amend change') :=
  .write hchange (.done rfl)

theorem act {operation : ω → Outcome α × ω} {operation' : ω → Outcome β × ω}
    (hanswer : ∀ w, Outcome.Abreast E R (operation w).1 (operation' (move w)).1)
    (hworld : ∀ w, (operation' (move w)).2 = move (operation w).2) :
    Abreast move E R (Recipe.act operation : Recipe ω V α) (Recipe.act operation') :=
  .read fun w => .write (fun _ => hworld w) (.lift (hanswer w))

/-- A refusal under conditions that belong together. -/
theorem guard {p q : Prop} [Decidable p] [Decidable q] (hpq : q ↔ p) {cause cause' : Failure}
    (hcause : E cause cause') {f : Unit → Recipe ω V α} {g : Unit → Recipe ω V β}
    (hf : ¬ p → Abreast move E R (f ()) (g ())) :
    Abreast move E R
      (if p then (liftM (.error cause : Outcome Unit) : Recipe ω V Unit) >>= f else f ())
      (if q then (liftM (.error cause' : Outcome Unit) : Recipe ω V Unit) >>= g else g ()) := by
  by_cases hp : p
  · rw [if_pos hp, if_pos (hpq.mpr hp)]
    exact .stop hcause
  · rw [if_neg hp, if_neg (fun hq => hp (hpq.mp hq))]
    exact hf hp

/-- Folds over lists that belong together, whose steps do. -/
theorem foldlM {ι κ : Type} {T : ι → κ → Prop} {f : α → ι → Recipe ω V α}
    {g : β → κ → Recipe ω V β} {l : List ι} {l' : List κ} {a : α} {b : β}
    (hl : List.Forall₂ T l l') (h0 : R a b)
    (hstep : ∀ i j a b, T i j → R a b → Abreast move E R (f a i) (g b j)) :
    Abreast move E R (l.foldlM f a) (l'.foldlM g b) := by
  induction hl generalizing a b with
  | nil => exact .done h0
  | cons hij _ ih =>
    rw [List.foldlM_cons, List.foldlM_cons]
    exact (hstep _ _ a b hij h0).bind fun _ _ => ih

/-- A recipe for each of two lists that belong together. -/
theorem mapM {ι κ : Type} {f : ι → Recipe ω V α} {g : κ → Recipe ω V β} {l : List ι} {l' : List κ}
    (hl : List.Forall₂ (fun i j => Abreast move E R (f i) (g j)) l l') :
    Abreast move E (List.Forall₂ R) (l.mapM f) (l'.mapM g) := by
  induction hl with
  | nil => exact .done .nil
  | cons hij _ ih =>
    rw [List.mapM_cons, List.mapM_cons]
    exact hij.bind fun _ _ hab => ih.bind fun _ _ hrest => .done (.cons hab hrest)

/-- A step for each of two lists that belong together. -/
theorem forM {ι κ : Type} {f : ι → Recipe ω V PUnit} {g : κ → Recipe ω V PUnit} {l : List ι}
    {l' : List κ} (hl : List.Forall₂ (fun i j => Abreast move E Eq (f i) (g j)) l l') :
    Abreast move E Eq (l.forM f) (l'.forM g) := by
  induction hl with
  | nil => exact .done rfl
  | cons hij _ ih => exact hij.bind_eq fun _ => ih

/-! ### Side by side -/

variable {tasks : List (Recipe ω V α)} {tasks' : List (Recipe ω V β)}

/-- The recipes go on to the same request: by induction over the steps before it. -/
theorem toRequest (hE : ∀ c d, E c d → c.SameKind d) (h : Abreast move E R r r') :
    Abreast move E (Abreast move E R) r.toRequest r'.toRequest := by
  induction h with
  | done h => exact .done (.done h)
  | @stop cause cause' h =>
    have hkind := hE _ _ h
    cases cause with
    | problem problem =>
      cases cause' with
      | problem problem' => exact Abreast.done (R := Abreast move E R) (.stop h)
      | fault fault' => exact hkind.elim
    | fault fault =>
      cases cause' with
      | problem problem' => exact hkind.elim
      | fault fault' => exact .stop h
  | overflow_left r => exact .overflow_left _
  | overflow_right r => exact .overflow_right _
  | access hnext => exact .done (.access hnext)
  | lower _ ih => exact .lower ih
  | inspect _ ih => exact .inspect ih
  | read _ ih => exact .read ih
  | write hchange _ ih => exact .write hchange ih

theorem turn (hE : ∀ c d, E c d → c.SameKind d) (h : Abreast move E R r r') :
    Abreast move E (Abreast move E R) r.turn r'.turn := by
  cases h with
  | overflow_left r => exact .overflow_left _
  | overflow_right r => exact .overflow_right _
  | access hnext => exact .access fun answer => .done (hnext answer)
  | done h => exact (Abreast.done h).toRequest hE
  | stop h => exact (Abreast.stop h).toRequest hE
  | lower hnext => exact (Abreast.lower hnext).toRequest hE
  | inspect hnext => exact (Abreast.inspect hnext).toRequest hE
  | read hnext => exact (Abreast.read hnext).toRequest hE
  | write hchange hnext => exact (Abreast.write hchange hnext).toRequest hE

theorem takeTurn (hE : ∀ c d, E c d → c.SameKind d)
    (h : List.Forall₂ (Abreast move E R) tasks tasks') (index : Nat) :
    Abreast move E (List.Forall₂ (Abreast move E R)) (Recipe.takeTurn tasks index)
      (Recipe.takeTurn tasks' index) := by
  unfold Recipe.takeTurn
  obtain ⟨hnone, hnone'⟩ | ⟨task, task', hsome, hsome', hboth, hset⟩ := forall₂_at h index
  · rw [hnone, hnone']
    exact .done h
  · rw [hsome, hsome']
    exact (hboth.turn hE).bind fun left left' hleft => .done (hset left left' hleft)

/-- **Side by side** tasks go abreast under the same schedule.  The refusal that counts belongs to
tasks at the same place. -/
theorem pool (hE : ∀ c d, E c d → c.SameKind d) (schedule : Schedule)
    (h : List.Forall₂ (Abreast move E R) tasks tasks') :
    Abreast move E (List.Forall₂ R) (Recipe.pool schedule tasks) (Recipe.pool schedule tasks') := by
  refine Abreast.bind (.foldlM (List.forall₂_same.mpr fun _ _ => rfl) h ?_) fun tasks tasks' h => ?_
  · rintro index _ tasks tasks' rfl h
    exact takeTurn hE h index
  · obtain ⟨hnone, hnone'⟩ | ⟨task, task', hsome, hsome', hboth, -⟩ :=
      forall₂_at h schedule.blamed
    · rw [hnone, hnone']
      exact .mapM h
    · rw [hsome, hsome']
      cases hboth with
      | stop hcause => exact .stop hcause
      | overflow_left r => exact .overflow_left _
      | overflow_right r => exact .overflow_right _
      | _ => exact .mapM h

end Abreast

/-- The recipe goes abreast with itself: it does not see what `move` changes. -/
def Blind (move : ω → ω) (r : Recipe ω V α) : Prop := Abreast move Eq Eq r r

/-- The postconditions of recipes that go abreast with themselves. -/
def blind (move : ω → ω) : Logic (Recipe ω V) fun _ => True where
  Ensures P r := Abreast move Eq (fun a b => a = b ∧ P a) r r
  pure h := .done ⟨rfl, h⟩
  bind h hf := h.bind fun a _ hab => hab.1 ▸ hf a hab.2
  lift {α P x} h := by
    refine .lift ?_
    cases x with
    | ok a => exact .ok ⟨rfl, h⟩
    | error cause => exact .error rfl

/-- A recipe goes abreast with itself when nothing is asked of its answer. -/
theorem Blind.of_ensures {move : ω → ω} {P : α → Prop} {r : Recipe ω V α}
    (h : (blind move).Ensures P r) : r.Blind move :=
  h.mono (fun _ _ => id) fun _ _ hab => hab.1

theorem Blind.ensures {move : ω → ω} {r : Recipe ω V α} (h : r.Blind move) :
    (blind move).Ensures (fun _ => True) r :=
  h.mono (fun _ _ => id) fun _ _ hab => ⟨hab, trivial⟩

end Recipe

/-! ## Runs -/

/-- The shelf in what `move` makes of its world. -/
def Shelf.along (move : ω → ω) (s : Shelf ω V) : Shelf ω V := { s with world := move s.world }

/-- The shelves that belong together. -/
abbrev Shelf.Abreast (move : ω → ω) (s t : Shelf ω V) : Prop := t = s.along move

/-- Two runs end together, with answers and states that belong together, or a coordinate overflows
in one of them. -/
inductive Ended (E : Failure → Failure → Prop) (R : α → β → Prop) (S : γ → δ → Prop) :
    Outcome α × γ → Outcome β × δ → Prop
  | ok {a : α} {b : β} {s : γ} {t : δ} (h : R a b) (hs : S s t) : Ended E R S (.ok a, s) (.ok b, t)
  | error {cause cause' : Failure} {s : γ} {t : δ} (h : E cause cause') (hs : S s t) :
      Ended E R S (.error cause, s) (.error cause', t)
  | overflow_left (s : γ) (y : Outcome β × δ) : Ended E R S (.error (.fault .overflow), s) y
  | overflow_right (x : Outcome α × γ) (t : δ) : Ended E R S x (.error (.fault .overflow), t)

/-- The entries are equal but for their recipes, which go abreast. -/
def Entry.Abreast (move : ω → ω) (e e' : Entry ω V) : Prop :=
  ∃ recipe, e' = { e with recipe } ∧ e.recipe.Abreast move Eq Eq recipe

/-- Entry by entry. -/
def Catalogue.Abreast (move : ω → ω) (d d' : Catalogue ω V) : Prop :=
  ∀ i : Nat, Option.Rel (Entry.Abreast move) d[i]? d'[i]?

section Runs

variable {move : ω → ω} {d d' : Catalogue ω V} {E : Failure → Failure → Prop} {R : α → β → Prop}

theorem Shelf.evict_along (s : Shelf ω V) (handles : List Handle) :
    (s.along move).evict handles = (s.evict handles).along move := by
  induction handles generalizing s with
  | nil => rfl
  | cons h rest ih => exact ih (s.setValue h none)

/-- Keeping a value has nothing to do with the world, nor with its recipe. -/
theorem Shelf.ended_keep (s : Shelf ω V) (h : Handle) (entry : Entry ω V) (recipe : Recipe ω V V)
    (value : V) :
    Ended Eq Eq (Shelf.Abreast move) (s.keep h entry value)
      ((s.along move).keep h { entry with recipe } value) := by
  have hledger : ((s.along move).setValue h (some value)).ledger? entry.cache =
      (s.setValue h (some value)).ledger? entry.cache := rfl
  simp only [Shelf.keep, hledger]
  cases (s.setValue h (some value)).ledger? entry.cache with
  | none => exact .ok rfl rfl
  | some ledger =>
    dsimp only
    cases (ledger.generated.enroll h entry.size).1 with
    | none => exact .error rfl rfl
    | some leaving =>
      exact .ok rfl (Shelf.evict_along ((s.setValue h (some value)).account entry.cache fun _ =>
        (ledger.generated.enroll h entry.size).2) leaving)

namespace Catalogue.Abreast

/-- At a place both have an entry or neither has. -/
theorem cases_at (hd : Catalogue.Abreast move d d') (i : Nat) :
    (d[i]? = none ∧ d'[i]? = none) ∨
      ∃ entry recipe, d[i]? = some entry ∧ d'[i]? = some { entry with recipe } ∧
        entry.recipe.Abreast move Eq Eq recipe := by
  have hentry := hd i
  generalize d[i]? = x at *
  generalize d'[i]? = y at *
  cases hentry with
  | none => exact .inl ⟨rfl, rfl⟩
  | @some entry _ hentry =>
    obtain ⟨recipe, rfl, hrecipe⟩ := hentry
    exact .inr ⟨entry, recipe, rfl, rfl, hrecipe⟩

/-- A handle has an entry in both or in neither. -/
theorem cases_handle (hd : Catalogue.Abreast move d d') (h : Handle) :
    (d.entry? h = none ∧ d'.entry? h = none) ∨
      ∃ entry recipe, d.entry? h = some entry ∧ d'.entry? h = some { entry with recipe } ∧
        entry.recipe.Abreast move Eq Eq recipe := by
  unfold Catalogue.entry?
  obtain ⟨hnone, hnone'⟩ | ⟨entry, recipe, hsome, hsome', hrecipe⟩ := hd.cases_at h.index
  · rw [hnone, hnone']
    exact .inl ⟨rfl, rfl⟩
  · rw [hsome, hsome', Option.filter_some, Option.filter_some]
    dsimp only
    split
    · exact .inr ⟨entry, recipe, rfl, rfl, hrecipe⟩
    · exact .inl ⟨rfl, rfl⟩

theorem status (hd : Catalogue.Abreast move d d') (s : Shelf ω V) (h : Handle) :
    d'.status (s.along move) h = d.status s h := by
  unfold Catalogue.status
  obtain ⟨hnone, hnone'⟩ | ⟨entry, recipe, hsome, hsome', -⟩ := hd.cases_handle h
  · rw [hnone, hnone']
  · rw [hsome, hsome']
    rfl

theorem demote (hd : Catalogue.Abreast move d d') (s : Shelf ω V) (h : Handle) :
    d'.demote (s.along move) h = (d.demote s h).along move := by
  unfold Catalogue.demote
  obtain ⟨hnone, hnone'⟩ | ⟨entry, recipe, hsome, hsome', -⟩ := hd.cases_handle h
  · rw [hnone, hnone']
  · rw [hsome, hsome']
    rfl

end Catalogue.Abreast

/-- Recipes that go abreast end together when the requests for values do. -/
theorem Recipe.Abreast.run (hd : Catalogue.Abreast move d d') (hE : ∀ cause, E cause cause)
    {visit visit' : Handle → Shelf ω V → Outcome V × Shelf ω V}
    (hvisit : ∀ h s, Ended Eq Eq (Shelf.Abreast move) (visit h s) (visit' h (s.along move)))
    {r : Recipe ω V α} {r' : Recipe ω V β} (h : r.Abreast move E R r') (s : Shelf ω V) :
    Ended E R (Shelf.Abreast move) (r.run d visit s) (r'.run d' visit' (s.along move)) := by
  induction h generalizing s with
  | done h => exact .ok h rfl
  | stop h => exact .error h rfl
  | overflow_left r => exact .overflow_left _ _
  | overflow_right r => exact .overflow_right _ _
  | @access h next next' _ ih =>
    have hanswer := hvisit h s
    simp only [Recipe.run]
    generalize visit h s = x at *
    generalize visit' h (s.along move) = y at *
    cases hanswer with
    | ok hvalue hs =>
      obtain rfl := hvalue
      obtain rfl := hs
      exact ih _ _
    | @error cause cause' _ _ hcause hs =>
      obtain rfl := hcause
      obtain rfl := hs
      cases cause with
      | problem cause => exact ih _ _
      | fault cause => exact .error (hE _) rfl
    | overflow_left => exact .overflow_left _ _
    | overflow_right => exact .overflow_right _ _
  | @lower h next next' _ ih =>
    simp only [Recipe.run, hd.demote]
    exact ih _
  | inspect _ ih =>
    simp only [Recipe.run, hd.status]
    exact ih _ s
  | read _ ih => exact ih s.world s
  | @write change change' _ _ hchange _ ih =>
    have hworld : { s.along move with world := change' (s.along move).world } =
        Shelf.along move { s with world := change s.world } :=
      congrArg (Shelf.mk s.values s.ledgers) (hchange s.world)
    simp only [Recipe.run, hworld]
    exact ih _

/-- **Requests end together.** -/
theorem Catalogue.Abreast.visit (hd : Catalogue.Abreast move d d') (depth : Nat)
    (busy : List Handle) (h : Handle) (s : Shelf ω V) :
    Ended Eq Eq (Shelf.Abreast move) (d.visit depth busy h s)
      (d'.visit depth busy h (s.along move)) := by
  induction depth using Nat.strongRecOn generalizing busy h s with
  | ind depth ih =>
    unfold Catalogue.visit
    obtain ⟨hnone, hnone'⟩ | ⟨entry, recipe, hsome, hsome', hrecipe⟩ := hd.cases_handle h
    · rw [hnone, hnone']
      exact .error rfl rfl
    · rw [hsome, hsome']
      dsimp only
      by_cases hbusy : h ∈ busy
      · simp only [if_pos hbusy]
        exact .error rfl rfl
      · simp only [if_neg hbusy]
        have hvalue : (s.along move).value? h = s.value? h := rfl
        rw [hvalue]
        cases s.value? h with
        | some value => exact .ok rfl rfl
        | none =>
          cases depth with
          | zero => exact .error rfl rfl
          | succ depth =>
            have hrun := hrecipe.run hd (fun _ => rfl) (fun other s =>
              ih depth (Nat.lt_succ_self depth) (h :: busy) other s) s
            dsimp only
            generalize entry.recipe.run d _ s = x at *
            generalize recipe.run d' _ (s.along move) = y at *
            cases hrun with
            | @ok value _ s _ heq hs =>
              obtain rfl := heq
              obtain rfl := hs
              exact Shelf.ended_keep s h entry recipe value
            | error hcause hs => exact .error hcause hs
            | overflow_left => exact .overflow_left _ _
            | overflow_right => exact .overflow_right _ _

end Runs

/-! ## Stores -/

namespace Store

/-- The stores differ in their worlds and in recipes that go abreast. -/
structure Abreast (move : ω → ω) (s t : Store ω V) : Prop where
  /-- The recipes go abreast. -/
  catalogue : Catalogue.Abreast move s.catalogue t.catalogue
  /-- The worlds belong together, and all else is equal. -/
  shelf : t.shelf = s.shelf.along move

namespace Abreast

variable {move : ω → ω} {s t : Store ω V} {E : Failure → Failure → Prop} {R : α → β → Prop}

/-- A store whose recipes do not see what is moved, and where nothing is. -/
theorem refl (hblind : ∀ entry ∈ s.catalogue, entry.recipe.Blind move)
    (hworld : move s.world = s.world) : s.Abreast move s := by
  refine ⟨fun i => ?_, congrArg (Shelf.mk s.shelf.values s.shelf.ledgers) hworld.symm⟩
  cases hentry : s.catalogue[i]? with
  | none => exact .none
  | some entry => exact .some ⟨entry.recipe, rfl, hblind entry (Array.mem_of_getElem? hentry)⟩

theorem world (h : s.Abreast move t) : t.world = move s.world := congrArg Shelf.world h.shelf

/-- Values at the same place belong to the same cache. -/
theorem caches (h : s.Abreast move t) :
    t.catalogue.map (·.cache) = s.catalogue.map (·.cache) := by
  refine Array.ext_getElem? fun i => ?_
  rw [Array.getElem?_map, Array.getElem?_map]
  obtain ⟨hnone, hnone'⟩ | ⟨entry, recipe, hsome, hsome', -⟩ := h.catalogue.cases_at i
  · rw [hnone, hnone']
  · rw [hsome, hsome']
    rfl

theorem size (h : s.Abreast move t) : t.catalogue.size = s.catalogue.size := by
  simpa using congrArg Array.size h.caches

/-- **Recipes that go abreast end together**, and leave stores that do. -/
theorem perform (h : s.Abreast move t) (hE : ∀ cause, E cause cause) {r : Recipe ω V α}
    {r' : Recipe ω V β} (hr : r.Abreast move E R r') :
    Ended E R (Store.Abreast move) (s.perform r) (t.perform r') := by
  have hrun := hr.run h.catalogue hE (h.catalogue.visit s.catalogue.size []) s.shelf
  unfold Store.perform
  rw [h.size, h.shelf]
  generalize r.run s.catalogue _ s.shelf = x at *
  generalize r'.run t.catalogue _ (s.shelf.along move) = y at *
  cases hrun with
  | ok hR hs => exact .ok hR ⟨h.catalogue, hs⟩
  | error hcause hs => exact .error hcause ⟨h.catalogue, hs⟩
  | overflow_left => exact .overflow_left _ _
  | overflow_right => exact .overflow_right _ _

theorem retain (h : s.Abreast move t) (handle : Handle) :
    (s.retain handle).Abreast move (t.retain handle) := by
  refine ⟨fun i => ?_, h.shelf⟩
  simp only [Store.retain, Array.getElem?_modify]
  split
  · obtain ⟨hnone, hnone'⟩ | ⟨entry, recipe, hsome, hsome', hrecipe⟩ := h.catalogue.cases_at i
    · rw [hnone, hnone']
      exact .none
    · rw [hsome, hsome']
      exact .some ⟨recipe, rfl, hrecipe⟩
  · exact h.catalogue i

theorem retain_all (h : s.Abreast move t) (handles : List Handle) :
    (handles.foldl Store.retain s).Abreast move (handles.foldl Store.retain t) := by
  induction handles generalizing s t with
  | nil => exact h
  | cons handle rest ih => exact ih (h.retain handle)

/-- The values of a cache are numbered alike. -/
theorem size_filter (h : s.Abreast move t) (cache : Nat) :
    (t.catalogue.filter (·.cache == cache)).size =
      (s.catalogue.filter (·.cache == cache)).size := by
  have hcount := congrArg (Array.countP (· == cache)) h.caches
  rw [Array.countP_map, Array.countP_map] at hcount
  rw [← Array.countP_eq_size_filter, ← Array.countP_eq_size_filter]
  exact hcount

/-- **Registering values whose recipes go abreast.** -/
theorem insert (h : s.Abreast move t) {r r' : Recipe ω V V} (hr : r.Abreast move Eq Eq r')
    (cache size : Nat) (holds : List Handle) :
    (s.insert cache size r holds).2.Abreast move (t.insert cache size r' holds).2 := by
  have h' := h.retain_all holds
  refine ⟨fun i => ?_, ?_⟩
  · simp only [Store.insert, Array.getElem?_push, h'.size, h.size_filter]
    split
    · exact .some ⟨r', rfl, hr⟩
    · exact h'.catalogue i
  · simp only [Store.insert, h'.shelf]
    rfl

end Abreast

end Store

end Cache

end Patchwork
