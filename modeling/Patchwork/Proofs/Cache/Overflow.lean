import Patchwork.Proofs.Cache.Circles

/-!
# Requests that break off

A request may break off for three reasons, at any depth of recipes that ask for one another: a
recipe breaks off, nobody refers to a value, or a count breaks.  A ledger adds the size of a
newcomer to its running total before anybody leaves, and the two may exceed a machine word although
the newcomer alone, or the budget, does not.

Until a count breaks the running total is the sum of the declared sizes of the values at hand and
keeps the budget, unless there is only one of them.  So no count breaks when twice the largest size,
and the budget with the largest size, fit a machine word.

## Main definitions

* `Begins` — what a task begins on its way.
* `Overfills`, `Breaks` — a count that breaks, a task that breaks off by itself.
* `Solvent` — a shelf whose ledger keeps the budget.

## Main statements

* `Job.faults_iff` — why a task breaks off.
* `Ends.solvent` — a task keeps the ledger solvent or overfills it.
* `Store.counts_until_overfull` — the ledger of a run, and why its requests break off.
-/

namespace Patchwork.Cache

variable {ω V : Type}

/-! ## On the way -/

/-- A task that begins while some values are being made. -/
structure Job (ω V : Type) where
  /-- The values being made. -/
  busy : List Handle
  /-- What is to be done. -/
  task : Task ω V
  /-- The shelf at first. -/
  shelf : Shelf ω V

/-- What a job begins for itself or goes on with. -/
inductive Begins (c : Catalogue ω V) : Job ω V → Job ω V → Prop
  /-- A value that is neither at hand nor being made is made. -/
  | make {busy : List Handle} {h : Handle} {entry : Entry ω V} {s : Shelf ω V}
      (hentry : c.entry? h = some entry) (hbusy : h ∉ busy) (hnone : s.value? h = none) :
      Begins c ⟨busy, .ask h, s⟩ ⟨h :: busy, .run entry.recipe, s⟩
  /-- The recipe asks for a value. -/
  | fetch {busy : List Handle} {h : Handle} {next : Except Problem V → Recipe ω V V}
      {s : Shelf ω V} : Begins c ⟨busy, .run (.access h next), s⟩ ⟨busy, .ask h, s⟩
  /-- The recipe is given a value. -/
  | given {busy : List Handle} {h : Handle} {next : Except Problem V → Recipe ω V V}
      {s t : Shelf ω V} {value : V} (hask : Ends c busy (.ask h) s (.ok value, t)) :
      Begins c ⟨busy, .run (.access h next), s⟩ ⟨busy, .run (next (.ok value)), t⟩
  /-- The recipe is refused a value. -/
  | refused {busy : List Handle} {h : Handle} {next : Except Problem V → Recipe ω V V}
      {s t : Shelf ω V} {cause : Problem}
      (hask : Ends c busy (.ask h) s (.error (.problem cause), t)) :
      Begins c ⟨busy, .run (.access h next), s⟩ ⟨busy, .run (next (.error cause)), t⟩
  /-- The recipe marks a value. -/
  | lower {busy : List Handle} {h : Handle} {next : Recipe ω V V} {s : Shelf ω V} :
      Begins c ⟨busy, .run (.lower h next), s⟩ ⟨busy, .run next, c.demote s h⟩
  /-- The recipe looks at a value. -/
  | inspect {busy : List Handle} {h : Handle} {next : Status → Recipe ω V V} {s : Shelf ω V} :
      Begins c ⟨busy, .run (.inspect h next), s⟩ ⟨busy, .run (next (c.status s h)), s⟩
  /-- The recipe reads the world. -/
  | read {busy : List Handle} {next : ω → Recipe ω V V} {s : Shelf ω V} :
      Begins c ⟨busy, .run (.read next), s⟩ ⟨busy, .run (next s.world), s⟩
  /-- The recipe changes the world. -/
  | write {busy : List Handle} {change : ω → ω} {next : Recipe ω V V} {s : Shelf ω V} :
      Begins c ⟨busy, .run (.write change next), s⟩
        ⟨busy, .run next, { s with world := change s.world }⟩

/-- A job comes to another on its way. -/
abbrev Involves (c : Catalogue ω V) : Job ω V → Job ω V → Prop :=
  Relation.ReflTransGen (Begins c)

/-- The job is a request for which a value of the given size was made, and the ledger that is to
count it counts the given total without it; together they exceed a machine word. -/
inductive Overfills (c : Catalogue ω V) : Job ω V → (total size : Nat) → Prop
  /-- The count breaks. -/
  | intro {busy : List Handle} {h : Handle} {entry : Entry ω V} {s t : Shelf ω V} {value : V}
      {ledger : Ledger} (hentry : c.entry? h = some entry) (hbusy : h ∉ busy)
      (hnone : s.value? h = none)
      (hrun : Ends c (h :: busy) (.run entry.recipe) s (.ok value, t))
      (hledger : t.ledger? entry.cache = some ledger)
      (hover : wordMax < (ledger.forget h).residentBytes + entry.size) :
      Overfills c ⟨busy, .ask h, s⟩ (ledger.forget h).residentBytes entry.size

/-- The job breaks off, and not because of another. -/
inductive Breaks (c : Catalogue ω V) : Job ω V → Fault → Prop
  /-- The recipe breaks off. -/
  | recipe {busy : List Handle} {s : Shelf ω V} (cause : Fault) :
      Breaks c ⟨busy, .run (.stop (.fault cause)), s⟩ cause
  /-- Nobody refers to the value. -/
  | gone {busy : List Handle} {h : Handle} {s : Shelf ω V} (hentry : c.entry? h = none) :
      Breaks c ⟨busy, .ask h, s⟩ .outOfBounds
  /-- A count breaks. -/
  | count {job : Job ω V} {total size : Nat} (hover : Overfills c job total size) :
      Breaks c job .overflow

/-! ## Why a task breaks off -/

/-- The total does not depend on the other counters. -/
theorem Ledger.residentBytes_forget_generated (l : Ledger) (h : Handle) :
    (l.generated.forget h).residentBytes = (l.forget h).residentBytes := by
  have hfind : l.generated.find? h = l.find? h := rfl
  rw [Ledger.forget, Ledger.forget, hfind]
  cases l.find? h <;> rfl

/-- A value just made is given unless the count breaks. -/
theorem Shelf.keep_fst (s : Shelf ω V) (h : Handle) (entry : Entry ω V) (value : V) :
    (s.keep h entry value).1 =
      match s.ledger? entry.cache with
      | none => .ok value
      | some ledger =>
        if wordMax < (ledger.forget h).residentBytes + entry.size then .error (.fault .overflow)
        else .ok value := by
  rw [Shelf.keep, Shelf.ledger?_setValue]
  cases s.ledger? entry.cache with
  | none => rfl
  | some ledger =>
    have hbytes : ((ledger.generated.forget h).enter h entry.size).residentBytes =
        (ledger.forget h).residentBytes := ledger.residentBytes_forget_generated h
    by_cases hover : wordMax < (ledger.forget h).residentBytes + entry.size
    · simp only [Ledger.enroll, hbytes, if_pos hover]
    · simp only [Ledger.enroll, hbytes, if_neg hover]

namespace Ends

variable {c : Catalogue ω V} {busy : List Handle} {task : Task ω V} {s : Shelf ω V}
  {x : Outcome V × Shelf ω V} {f : Fault}

/-- A task that breaks off comes to one that breaks off by itself. -/
theorem exists_breaks (E : Ends c busy task s x) (hfault : x.1 = .error (.fault f)) :
    ∃ job, Involves c ⟨busy, task, s⟩ job ∧ Breaks c job f := by
  induction E with
  | gone hentry =>
    cases hfault
    exact ⟨_, .refl, .gone hentry⟩
  | reentrant => cases hfault
  | hit => cases hfault
  | @made busy h entry s t value hentry hbusy hnone hrun _ =>
    rw [Shelf.keep_fst] at hfault
    split at hfault
    · cases hfault
    · next hledger =>
      split at hfault
      · next hover =>
        cases hfault
        exact ⟨_, .refl, .count (.intro hentry hbusy hnone hrun hledger hover)⟩
      · cases hfault
  | unmade hentry hbusy hnone _ ih =>
    obtain ⟨job, hjob, hbreaks⟩ := ih hfault
    exact ⟨job, .head (.make hentry hbusy hnone) hjob, hbreaks⟩
  | done => cases hfault
  | stop cause =>
    cases hfault
    exact ⟨_, .refl, .recipe f⟩
  | given hask _ _ ih =>
    obtain ⟨job, hjob, hbreaks⟩ := ih hfault
    exact ⟨job, .head (.given hask) hjob, hbreaks⟩
  | refused hask _ _ ih =>
    obtain ⟨job, hjob, hbreaks⟩ := ih hfault
    exact ⟨job, .head (.refused hask) hjob, hbreaks⟩
  | broken _ ih =>
    obtain ⟨job, hjob, hbreaks⟩ := ih hfault
    exact ⟨job, .head .fetch hjob, hbreaks⟩
  | lower _ ih =>
    obtain ⟨job, hjob, hbreaks⟩ := ih hfault
    exact ⟨job, .head .lower hjob, hbreaks⟩
  | inspect _ ih =>
    obtain ⟨job, hjob, hbreaks⟩ := ih hfault
    exact ⟨job, .head .inspect hjob, hbreaks⟩
  | read _ ih =>
    obtain ⟨job, hjob, hbreaks⟩ := ih hfault
    exact ⟨job, .head .read hjob, hbreaks⟩
  | write _ ih =>
    obtain ⟨job, hjob, hbreaks⟩ := ih hfault
    exact ⟨job, .head .write hjob, hbreaks⟩

end Ends

/-- The job breaks off with the given fault. -/
def Job.Faults (c : Catalogue ω V) (job : Job ω V) (f : Fault) : Prop :=
  ∃ t, Ends c job.busy job.task job.shelf (.error (.fault f), t)

section Faults

variable {c : Catalogue ω V} {job later : Job ω V} {f : Fault}

/-- What breaks off by itself breaks off. -/
theorem Breaks.faults (B : Breaks c job f) : job.Faults c f := by
  cases B with
  | recipe cause => exact ⟨_, .stop _⟩
  | gone hentry => exact ⟨_, .gone hentry⟩
  | count hover =>
    obtain @⟨busy, h, entry, s, t, value, ledger, hentry, hbusy, hnone, hrun, hledger, hover⟩ :=
      hover
    have hkeep : (t.keep h entry value).1 = .error (.fault .overflow) := by
      rw [Shelf.keep_fst, hledger]
      exact if_pos hover
    have E := Ends.made hentry hbusy hnone hrun
    rw [show t.keep h entry value = (.error (.fault .overflow), (t.keep h entry value).2) from
      Prod.ext hkeep rfl] at E
    exact ⟨_, E⟩

/-- A job breaks off with what it begins. -/
theorem Begins.faults (B : Begins c job later) (F : later.Faults c f) : job.Faults c f := by
  obtain ⟨t, E⟩ := F
  cases B with
  | make hentry hbusy hnone => exact ⟨t, .unmade hentry hbusy hnone E⟩
  | fetch => exact ⟨t, .broken E⟩
  | given hask => exact ⟨t, .given hask E⟩
  | refused hask => exact ⟨t, .refused hask E⟩
  | lower => exact ⟨t, .lower E⟩
  | inspect => exact ⟨t, .inspect E⟩
  | read => exact ⟨t, .read E⟩
  | write => exact ⟨t, .write E⟩

/-- **Why a task breaks off**: it comes to a recipe that does, to a value that nobody refers to or
to a count that breaks. -/
theorem Job.faults_iff : job.Faults c f ↔ ∃ later, Involves c job later ∧ Breaks c later f := by
  constructor
  · rintro ⟨t, E⟩
    exact E.exists_breaks rfl
  · rintro ⟨later, hlater, B⟩
    induction hlater using Relation.ReflTransGen.head_induction_on with
    | refl => exact B.faults
    | head hbegins _ ih => exact hbegins.faults ih

end Faults

/-! ## Ledgers that keep the budget -/

namespace Queue

variable {q q' : Queue V} {budget largest : Nat}

/-- The items fit the budget, or there is only one. -/
def Keeps (q : Queue V) (budget : Nat) : Prop := q.total ≤ budget ∨ q.length ≤ 1

/-- Fewer items keep the budget, too. -/
theorem Keeps.sublist (K : q.Keeps budget) (hsub : q'.Sublist q) : q'.Keeps budget := by
  have htotal : q'.total ≤ q.total := (hsub.map Item.size).sum_le_sum fun _ _ => Nat.zero_le _
  exact K.imp htotal.trans hsub.length_le.trans

theorem Keeps.perm (K : q.Keeps budget) (hperm : q'.Perm q) : q'.Keeps budget := by
  have htotal : q'.total = q.total := (hperm.map Item.size).sum_eq
  rw [Keeps, htotal, hperm.length_eq]
  exact K

/-- Those that stay leave room for the newcomer, or nobody stays. -/
theorem trim_fits (q : Queue V) (budget newcomer : Nat) :
    q.trim budget newcomer = [] ∨ (q.trim budget newcomer).total + newcomer ≤ budget := by
  induction q with
  | nil => exact .inl rfl
  | cons item q ih =>
    rw [trim]
    split
    · exact ih
    · next hfits => exact .inr (Nat.not_lt.mp hfits)

/-- The others leave until the newcomer fits the budget or is alone. -/
theorem keeps_enroll (q : Queue V) (budget : Nat) (newcomer : Item V) :
    (q.enroll budget newcomer).Keeps budget := by
  rcases trim_fits q budget newcomer.size with hnobody | hfits
  · refine .inr ?_
    simp [enroll, hnobody]
  · refine .inl ?_
    simpa [enroll, total] using hfits

/-- How much there can be. -/
theorem Keeps.total_le (K : q.Keeps budget) (hsizes : ∀ item ∈ q, item.size ≤ largest) :
    q.total ≤ max budget largest := by
  rcases K with hfits | hone
  · exact hfits.trans (Nat.le_max_left _ _)
  · match q, hone with
    | [], _ => exact Nat.zero_le _
    | [item], _ =>
      refine le_trans ?_ (Nat.le_max_right budget largest)
      simpa [total] using hsizes item List.mem_cons_self

end Queue

/-- All values belong to one cache, and their sizes are bounded. -/
def Catalogue.Within (c : Catalogue ω V) (largest : Nat) : Prop :=
  ∀ entry ∈ c, entry.cache = 0 ∧ entry.size ≤ largest

/-- The ledger counts what is at hand, keeps the budget, and no value being made is at hand. -/
def Solvent (c : Catalogue ω V) (budget : Nat) (busy : List Handle) (s : Shelf ω V) : Prop :=
  ∃ l : Lru ω V, Follows c s l ∧ Idle busy l ∧ l.budget = budget ∧ l.queue.Keeps budget

/-- The total without a value that is not at hand. -/
theorem Follows.total_forget {c : Catalogue ω V} {s : Shelf ω V} {l : Lru ω V}
    (F : Follows c s l) {ledger : Ledger} (hledger : s.ledger? 0 = some ledger) {h : Handle}
    (hidle : h ∉ l.queue.handles) : (ledger.forget h).residentBytes = l.queue.total := by
  obtain ⟨known, hknown, -, M⟩ := F.ledger?
  obtain rfl : known = ledger := Option.some.inj (hknown.symm.trans hledger)
  rw [Ledger.forget_of_notMem (mt M.mem_iff.mp hidle), M.bytes]

namespace Solvent

variable {c : Catalogue ω V} {budget largest : Nat} {busy : List Handle} {s : Shelf ω V}
  {h : Handle} {entry : Entry ω V}

theorem hit (S : Solvent c budget busy s) (hcache : entry.cache = 0) {value : V}
    (hvalue : s.value? h = some value) :
    Solvent c budget busy (s.account entry.cache (·.hit h)) := by
  obtain ⟨l, F, I, hbudget, K⟩ := S
  have hh : h ∈ l.queue.handles := (F.isSome_iff h).mp (by simp [hvalue])
  have hperm := Queue.hit_perm F.handles h
  rw [hcache]
  exact ⟨_, F.hit hh, I.move hperm, hbudget, K.perm hperm⟩

theorem demote (S : Solvent c budget busy s) (W : c.Within largest) (h : Handle) :
    Solvent c budget busy (c.demote s h) := by
  obtain ⟨l, F, I, hbudget, K⟩ := S
  have hperm : (if (c.entry? h).isSome then l.queue.lower h else l.queue).Perm l.queue := by
    split
    · exact Queue.lower_perm F.handles h
    · exact .refl _
  exact ⟨_, F.demote (fun entry hentry => (W entry hentry).1) h, I.move hperm, hbudget,
    K.perm hperm⟩

theorem write (S : Solvent c budget busy s) (change : ω → ω) :
    Solvent c budget busy { s with world := change s.world } := by
  obtain ⟨l, F, I, hbudget, K⟩ := S
  exact ⟨{ l with world := change l.world },
    ⟨congrArg change F.world, F.slots, F.value, F.known, F.ledger⟩, I, hbudget, K⟩

/-- A value that is not at hand may be made. -/
theorem start (S : Solvent c budget busy s) (hnone : s.value? h = none) :
    Solvent c budget (h :: busy) s := by
  obtain ⟨l, F, I, hbudget, K⟩ := S
  have hidle : h ∉ l.queue.handles := by simp [← F.isSome_iff, hnone]
  exact ⟨l, F, List.forall_mem_cons.mpr ⟨hidle, I⟩, hbudget, K⟩

theorem finish (S : Solvent c budget (h :: busy) s) : Solvent c budget busy s := by
  obtain ⟨l, F, I, hbudget, K⟩ := S
  exact ⟨l, F, (List.forall_mem_cons.mp I).2, hbudget, K⟩

/-- What the ledger counts before a value joins. -/
theorem total_le (S : Solvent c budget (h :: busy) s) (W : c.Within largest) {ledger : Ledger}
    (hledger : s.ledger? 0 = some ledger) :
    (ledger.forget h).residentBytes ≤ max budget largest := by
  obtain ⟨l, F, I, -, K⟩ := S
  rw [F.total_forget hledger (I h List.mem_cons_self)]
  refine K.total_le ?_
  intro item hitem
  obtain ⟨entry, hentry, hsize⟩ := F.known item hitem
  exact hsize ▸ (W entry (Catalogue.mem_of_entry? hentry)).2

/-- A value just made joins, and others leave for it. -/
theorem keep (S : Solvent c budget (h :: busy) s) (hcache : entry.cache = 0)
    (hentry : c.entry? h = some entry) (hbusy : h ∉ busy)
    (hfits : ∀ ledger, s.ledger? 0 = some ledger →
      (ledger.forget h).residentBytes + entry.size ≤ wordMax) (value : V) :
    Solvent c budget busy (s.keep h entry value).2 := by
  obtain ⟨l, F, I, rfl, K⟩ := S
  obtain ⟨hidle, I⟩ := List.forall_mem_cons.mp I
  obtain ⟨ledger, hledger, -⟩ := F.ledger?
  have hroom := hfits ledger hledger
  rw [F.total_forget hledger hidle] at hroom
  obtain ⟨after, hkeep, F'⟩ := F.keep_counted hcache hentry hidle hroom value
  rw [hkeep]
  exact ⟨_, F', Idle.enroll I hbusy, rfl, Queue.keeps_enroll _ _ _⟩

end Solvent

/-- The job comes to a count that breaks, and what is counted there is bounded. -/
def Job.Overfilled (c : Catalogue ω V) (job : Job ω V) (budget largest : Nat) : Prop :=
  ∃ later total size, Involves c job later ∧ Overfills c later total size ∧
    total ≤ max budget largest ∧ size ≤ largest

theorem Job.Overfilled.head {c : Catalogue ω V} {job later : Job ω V} {budget largest : Nat}
    (O : later.Overfilled c budget largest) (B : Begins c job later) :
    job.Overfilled c budget largest := by
  obtain ⟨last, total, size, hlast, hover⟩ := O
  exact ⟨last, total, size, .head B hlast, hover⟩

/-- **A task keeps the ledger solvent**, unless it comes to a count that breaks. -/
theorem Ends.solvent {c : Catalogue ω V} {budget largest : Nat} (W : c.Within largest)
    {busy : List Handle} {task : Task ω V} {s : Shelf ω V} {x : Outcome V × Shelf ω V}
    (E : Ends c busy task s x) (S : Solvent c budget busy s) :
    Solvent c budget busy x.2 ∨ Job.Overfilled c ⟨busy, task, s⟩ budget largest := by
  induction E with
  | gone => exact .inl S
  | reentrant => exact .inl S
  | hit hentry _ hvalue =>
    exact .inl (S.hit (W _ (Catalogue.mem_of_entry? hentry)).1 hvalue)
  | @made busy h entry s t value hentry hbusy hnone hrun ih =>
    obtain ⟨hcache, hsize⟩ := W entry (Catalogue.mem_of_entry? hentry)
    rcases ih (S.start hnone) with S' | hover
    -- While the value was made it did not come to hand, so the total is still that of the others.
    · by_cases hfits : ∀ ledger, t.ledger? 0 = some ledger →
          (ledger.forget h).residentBytes + entry.size ≤ wordMax
      · exact .inl (S'.keep hcache hentry hbusy hfits value)
      · push Not at hfits
        obtain ⟨ledger, hledger, hover⟩ := hfits
        exact .inr ⟨_, _, _, .refl,
          .intro hentry hbusy hnone hrun (by rwa [hcache]) hover, S'.total_le W hledger, hsize⟩
    · exact .inr (hover.head (.make hentry hbusy hnone))
  | unmade hentry hbusy hnone _ ih =>
    rcases ih (S.start hnone) with S' | hover
    · exact .inl S'.finish
    · exact .inr (hover.head (.make hentry hbusy hnone))
  | done => exact .inl S
  | stop => exact .inl S
  | given hask _ ihask ihnext =>
    rcases ihask S with S' | hover
    · exact (ihnext S').imp_right (·.head (.given hask))
    · exact .inr (hover.head .fetch)
  | refused hask _ ihask ihnext =>
    rcases ihask S with S' | hover
    · exact (ihnext S').imp_right (·.head (.refused hask))
    · exact .inr (hover.head .fetch)
  | broken _ ih => exact (ih S).imp_right (·.head .fetch)
  | lower _ ih => exact (ih (S.demote W _)).imp_right (·.head .lower)
  | inspect _ ih => exact (ih S).imp_right (·.head .inspect)
  | read _ ih => exact (ih S).imp_right (·.head .read)
  | write _ ih => exact (ih (S.write _)).imp_right (·.head .write)

section Room

variable {c : Catalogue ω V} {job later : Job ω V} {budget largest total size : Nat}

theorem Overfills.over (O : Overfills c job total size) : wordMax < total + size := by
  cases O with
  | intro _ _ _ _ _ hover => exact hover

/-- With room for the budget, or for the largest value, and one more value no count breaks. -/
theorem Job.not_overfilled (hroom : max budget largest + largest ≤ wordMax) :
    ¬ job.Overfilled c budget largest := by
  rintro ⟨_, total, size, -, hover, htotal, hsize⟩
  have hbreaks := hover.over
  omega

theorem Begins.solvent (B : Begins c job later) (W : c.Within largest)
    (hroom : max budget largest + largest ≤ wordMax) (S : Solvent c budget job.busy job.shelf) :
    Solvent c budget later.busy later.shelf := by
  cases B with
  | make _ _ hnone => exact S.start hnone
  | fetch => exact S
  | given hask => exact (hask.solvent W S).resolve_right (Job.not_overfilled hroom)
  | refused hask => exact (hask.solvent W S).resolve_right (Job.not_overfilled hroom)
  | lower => exact S.demote W _
  | inspect => exact S
  | read => exact S
  | write => exact S.write _

/-- All that a job comes to begins on a solvent shelf. -/
theorem Involves.solvent (I : Involves c job later) (W : c.Within largest)
    (hroom : max budget largest + largest ≤ wordMax) (S : Solvent c budget job.busy job.shelf) :
    Solvent c budget later.busy later.shelf := by
  induction I with
  | refl => exact S
  | tail _ B ih => exact B.solvent W hroom ih

/-- No count breaks on the way. -/
theorem Involves.not_overfills (I : Involves c job later) (W : c.Within largest)
    (hroom : max budget largest + largest ≤ wordMax) (S : Solvent c budget job.busy job.shelf) :
    ¬ Overfills c later total size := by
  intro O
  have S' := I.solvent W hroom S
  obtain @⟨busy, h, entry, s, t, value, ledger, hentry, -, hnone, hrun, hledger, hover⟩ := O
  obtain ⟨hcache, hsize⟩ := W entry (Catalogue.mem_of_entry? hentry)
  have T := (hrun.solvent W (S'.start hnone)).resolve_right (Job.not_overfilled hroom)
  rw [hcache] at hledger
  have htotal := T.total_le W hledger
  omega

end Room

/-! ## Runs -/

namespace Catalogue.Within

variable {c c' : Catalogue ω V} {largest : Nat}

/-- Only caches and sizes matter. -/
theorem of_map (W : c.Within largest)
    (hsame : c'.toList.map (fun e => (e.cache, e.size)) = c.toList.map fun e => (e.cache, e.size)) :
    c'.Within largest := by
  intro entry hentry
  have hmem := List.mem_map_of_mem (f := fun e => (e.cache, e.size))
    (Array.mem_toList_iff.mpr hentry)
  rw [hsame] at hmem
  obtain ⟨other, hother, heq⟩ := List.mem_map.mp hmem
  obtain ⟨hcache, hsize⟩ := Prod.mk.inj heq
  exact hcache ▸ hsize ▸ W other (Array.mem_toList_iff.mp hother)

theorem recount (W : c.Within largest) (h : Handle) (change : Nat → Nat) :
    Catalogue.Within (c.recount h change) largest :=
  W.of_map (Catalogue.map_recount c h change _ fun _ _ => rfl)

theorem hold (W : c.Within largest) (owner h : Handle) : (c.hold owner h).Within largest :=
  W.of_map (Catalogue.map_hold c owner h _ fun _ _ => rfl)

theorem push (W : c.Within largest) {entry : Entry ω V} (hcache : entry.cache = 0)
    (hsize : entry.size ≤ largest) : Catalogue.Within (c.push entry) largest := by
  intro other hother
  rcases Array.mem_push.mp hother with hother | rfl
  · exact W other hother
  · exact ⟨hcache, hsize⟩

end Catalogue.Within

namespace Store

/-- Asking for a value ends. -/
theorem ends_ask (s : Store ω V) (h : Handle) :
    Ends s.catalogue [] (.ask h) s.shelf (s.catalogue.visit s.catalogue.size [] h s.shelf) :=
  Ends.ask List.nodup_nil (List.forall_mem_nil _) h s.shelf

/-- When asking for a value breaks off. -/
theorem access_fault_iff (s : Store ω V) (h : Handle) (f : Fault) :
    (s.access h).1 = .error (.fault f) ↔ Job.Faults s.catalogue ⟨[], .ask h, s.shelf⟩ f := by
  rw [access_eq]
  constructor
  · intro hfault
    have E := s.ends_ask h
    rw [show s.catalogue.visit s.catalogue.size [] h s.shelf =
      (.error (.fault f), (s.catalogue.visit s.catalogue.size [] h s.shelf).2) from
        Prod.ext hfault rfl] at E
    exact ⟨_, E⟩
  · rintro ⟨t, E⟩
    exact congrArg Prod.fst (E.eq_result List.nodup_nil (List.forall_mem_nil _)).symm

/-- Asking for a value comes to a job. -/
def Involves (s : Store ω V) (h : Handle) (job : Job ω V) : Prop :=
  Cache.Involves s.catalogue ⟨[], .ask h, s.shelf⟩ job

/-- Asking for a value comes to a count that breaks. -/
def Overfills (s : Store ω V) (h : Handle) : Prop :=
  ∃ job total size, s.Involves h job ∧ Cache.Overfills s.catalogue job total size

/-- The ledger counts the values at hand, and they fit the budget or there is only one. -/
def Balanced (s : Store ω V) (budget : Nat) : Prop :=
  ∃ ledger, s.ledger? 0 = some ledger ∧
    ledger.residentBytes = (s.residents.map s.catalogue.sizeOf).sum ∧
    ledger.residents.length = s.residents.length ∧
    (ledger.residentBytes ≤ budget ∨ s.residents.length = 1)

/-- The shelf is solvent, and the sizes are bounded. -/
structure Solvent (s : Store ω V) (budget largest : Nat) : Prop where
  /-- The sizes are bounded. -/
  within : s.catalogue.Within largest
  /-- The shelf is solvent. -/
  shelf : Cache.Solvent s.catalogue budget [] s.shelf

namespace Solvent

variable {s : Store ω V} {budget largest : Nat}

theorem empty (budget largest : Nat) (world : ω) :
    ((Store.empty world : Store ω V).newCache budget).2.Solvent budget largest := by
  have F := (Follows.empty budget world : Store.Follows (V := V) _ _ 0).shelf
  refine ⟨fun entry hentry => absurd hentry (Array.not_mem_empty entry), _, F,
    List.forall_mem_nil _, rfl, .inl (Nat.zero_le _)⟩

/-- What the ledger of a solvent store says. -/
theorem balanced (S : s.Solvent budget largest) : s.Balanced budget := by
  obtain ⟨l, F, -, -, K⟩ := S.shelf
  obtain ⟨ledger, hledger, -, M⟩ := F.ledger?
  have hperm : s.residents.Perm l.queue.handles := F.residents_perm
  have hlength : s.residents.length = l.queue.length :=
    hperm.length_eq.trans (List.length_map _)
  refine ⟨ledger, hledger, ?_, M.length.trans hlength.symm, ?_⟩
  · rw [M.bytes, F.total_eq]
    exact ((hperm.map _).sum_eq).symm
  · rw [M.bytes, hlength]
    rcases K with hfits | hone
    · exact .inl hfits
    · rcases Nat.le_one_iff_eq_zero_or_eq_one.mp hone with hzero | hone
      · left
        rw [List.length_eq_zero_iff.mp hzero]
        exact Nat.zero_le _
      · exact .inr hone

theorem retain (S : s.Solvent budget largest) (h : Handle) :
    (s.retain h).Solvent budget largest := by
  obtain ⟨l, F, I, hbudget, K⟩ := S.shelf
  exact ⟨S.within.recount h (· + 1), l,
    F.recount fun _ entry _ => Nat.succ_pos entry.references, I, hbudget, K⟩

theorem retain_all (S : s.Solvent budget largest) (handles : List Handle) :
    (handles.foldl Store.retain s).Solvent budget largest := by
  induction handles generalizing s with
  | nil => exact S
  | cons h rest ih => exact ih (S.retain h)

theorem hold (S : s.Solvent budget largest) (owner h : Handle) :
    Store.Solvent { s with catalogue := s.catalogue.hold owner h } budget largest := by
  obtain ⟨l, F, I, hbudget, K⟩ := S.shelf
  exact ⟨S.within.hold owner h, l, F.hold owner h, I, hbudget, K⟩

theorem insert (S : s.Solvent budget largest) {size : Nat} (hsize : size ≤ largest)
    (recipe : Recipe ω V V) (holds : List Handle) :
    (s.insert 0 size recipe holds).2.Solvent budget largest := by
  have S' := S.retain_all holds
  obtain ⟨l, F, I, hbudget, K⟩ := S'.shelf
  exact ⟨S'.within.push rfl hsize, l, F.push _, I, hbudget, K⟩

theorem demote (S : s.Solvent budget largest) (h : Handle) : (s.demote h).Solvent budget largest :=
  ⟨S.within, S.shelf.demote S.within h⟩

theorem amend (S : s.Solvent budget largest) (change : ω → ω) :
    (s.amend change).Solvent budget largest :=
  ⟨S.within, S.shelf.write change⟩

theorem clear (S : s.Solvent budget largest) : (s.clear 0).Solvent budget largest := by
  obtain ⟨l, F, I, hbudget, K⟩ := S.shelf
  obtain ⟨ledger, hledger, -, -⟩ := F.ledger?
  have hledger' : s.ledger? 0 = some ledger := hledger
  rw [Store.clear, hledger']
  exact ⟨S.within, _, F.clear hledger, List.forall_mem_nil _, hbudget, .inl (Nat.zero_le _)⟩

/-- Values that nobody refers to any more leave. -/
theorem release (S : s.Solvent budget largest) (handles : List Handle) :
    (s.release handles).Solvent budget largest := by
  apply releaseWithin_steps (P := fun t => t.Solvent budget largest) _ _ S
  · intro t h entry hentry hshared S
    obtain ⟨l, F, I, hbudget, K⟩ := S.shelf
    have F' : Cache.Follows (t.catalogue.recount h (· - 1)) t.shelf l :=
      F.recount fun _ _ => Catalogue.stays_of_shared hentry hshared
    exact ⟨S.within.recount h (· - 1), l, F', I, hbudget, K⟩
  · intro t h entry hentry S
    obtain ⟨l, F, I, hbudget, K⟩ := S.shelf
    rw [(S.within entry (Catalogue.mem_of_entry? hentry)).1]
    exact ⟨S.within.recount h (· - 1), _, F.drop h (· - 1), List.forall_mem_nil _, hbudget,
      K.sublist List.filter_sublist⟩

/-- A request for a value, unless a count breaks. -/
theorem access (S : s.Solvent budget largest) {h : Handle} (hover : ¬ s.Overfills h) :
    (s.access h).2.Solvent budget largest := by
  refine ⟨S.within, ?_⟩
  rw [access_eq]
  refine ((s.ends_ask h).solvent S.within S.shelf).resolve_right ?_
  rintro ⟨job, total, size, hjob, hbreaks, -⟩
  exact hover ⟨job, total, size, hjob, hbreaks⟩

/-- No count breaks when there is room for one more value. -/
theorem not_overfills (S : s.Solvent budget largest)
    (hroom : max budget largest + largest ≤ wordMax) (h : Handle) : ¬ s.Overfills h := by
  rintro ⟨job, total, size, hjob, hbreaks⟩
  exact Cache.Involves.not_overfills hjob S.within hroom S.shelf hbreaks

/-- A dealing, unless a count breaks. -/
theorem deal (S : s.Solvent budget largest) {dealing : Dealing ω V} (hsize : dealing.size ≤ largest)
    (hover : ∀ h, dealing = .request (.access h) → ¬ s.Overfills h) :
    (s.deal dealing).Solvent budget largest := by
  cases dealing with
  | lend owner h => exact (S.retain h).hold owner h
  | request request =>
    cases request with
    | insert size recipe holds => exact S.insert hsize recipe holds
    | access h => exact S.access (hover h rfl)
    | demote h => exact S.demote h
    | retain h => exact S.retain h
    | release h => exact S.release [h]
    | clear => exact S.clear
    | amend change => exact S.amend change

/-- A run of dealings of which none breaks a count. -/
theorem deal_all (S : s.Solvent budget largest) {dealings : List (Dealing ω V)}
    (hsizes : ∀ dealing ∈ dealings, dealing.size ≤ largest)
    (hover : ∀ before h rest, dealings = before ++ .request (.access h) :: rest →
      (before.foldl Store.deal s).Solvent budget largest →
        ¬ (before.foldl Store.deal s).Overfills h) :
    (dealings.foldl Store.deal s).Solvent budget largest := by
  induction dealings generalizing s with
  | nil => exact S
  | cons dealing rest ih =>
    obtain ⟨hsize, hrest⟩ := List.forall_mem_cons.mp hsizes
    have S' : (s.deal dealing).Solvent budget largest := by
      refine S.deal hsize ?_
      rintro h rfl
      exact hover [] h rest rfl S
    refine ih S' hrest ?_
    rintro before h rest' rfl
    exact hover (dealing :: before) h rest' rfl

end Solvent

/-- **The ledger of a run, and why its requests break off.**  A request breaks off exactly when it
comes to a recipe that does, to a value that nobody refers to or to a count that breaks.  As long as
no count has broken the ledger counts the values at hand, and they fit the budget or there is only
one.  No count breaks when the larger of the budget and the largest size fits a machine word
together with the largest size. -/
theorem counts_until_overfull (budget : Nat) (world : ω) (dealings : List (Dealing ω V)) :
    (∀ h f, ((afterDealings budget world dealings).access h).1 = .error (.fault f) ↔
      ∃ job, (afterDealings budget world dealings).Involves h job ∧
        Breaks (afterDealings budget world dealings).catalogue job f) ∧
    ((∀ before h rest, dealings = before ++ .request (.access h) :: rest →
      ¬ (afterDealings budget world before).Overfills h) →
        (afterDealings budget world dealings).Balanced budget) ∧
    ∀ largest, (∀ dealing ∈ dealings, dealing.size ≤ largest) →
      max budget largest + largest ≤ wordMax →
        (afterDealings budget world dealings).Balanced budget ∧
          ∀ h, ¬ (afterDealings budget world dealings).Overfills h := by
  refine ⟨?_, ?_, ?_⟩
  · intro h f
    exact (access_fault_iff _ h f).trans Job.faults_iff
  · intro hnever
    have hsizes : ∀ dealing ∈ dealings, dealing.size ≤ (dealings.map (·.size)).sum :=
      fun dealing hdealing => List.single_le_sum (by simp) _ (List.mem_map_of_mem hdealing)
    exact ((Solvent.empty budget _ world).deal_all hsizes fun before h rest hparts _ =>
      hnever before h rest hparts).balanced
  · intro largest hsizes hroom
    have S : (afterDealings budget world dealings).Solvent budget largest :=
      (Solvent.empty budget largest world).deal_all hsizes fun _ h _ _ S => S.not_overfills hroom h
    exact ⟨S.balanced, S.not_overfills hroom⟩

/-- Two values of almost half of what can be counted, asked for one after the other. -/
def brimful : List (Dealing Unit Nat) :=
  [.request (.insert 9223372036854775807 (.done 1) []),
    .request (.insert 9223372036854775807 (.done 2) []),
    .request (.access ⟨0⟩), .request (.access ⟨1⟩)]

theorem counts_until_overfull_brimful :
    (∀ dealing ∈ brimful, dealing.size ≤ 9223372036854775807) ∧
      (afterDealings 10 () brimful).Balanced 10 ∧
      (∀ h, ¬ (afterDealings 10 () brimful).Overfills h) ∧
      ((afterDealings 10 () brimful).ledger? 0).map (·.residentBytes) =
        some 9223372036854775807 := by
  have hsizes : ∀ dealing ∈ brimful, dealing.size ≤ 9223372036854775807 := by decide
  obtain ⟨hbalanced, hnever⟩ := (counts_until_overfull 10 () brimful).2.2 _ hsizes (by decide)
  exact ⟨hsizes, hbalanced, hnever, by decide +kernel⟩

/-- A value at hand that takes up all that can be counted, and one more. -/
def overfull : List (Dealing Unit Nat) :=
  [.request (.insert wordMax (.done 1) []), .request (.insert 1 (.done 2) []),
    .request (.access ⟨0⟩)]

/-- A request may break off although no recipe does, and leave two values at hand beyond the
budget. -/
theorem breaks_without_recipe :
    ((afterDealings 10 () overfull).access ⟨1⟩).1 = .error (.fault .overflow) ∧
      (∀ busy cause s,
        ¬ (afterDealings 10 () overfull).Involves ⟨1⟩ ⟨busy, .run (.stop (.fault cause)), s⟩) ∧
      ¬ ((afterDealings 10 () overfull).access ⟨1⟩).2.Balanced 10 := by
  have hdone : ((afterDealings 10 () overfull).catalogue.entry? ⟨1⟩).map (·.recipe) =
      some (.done 2) := rfl
  have hbytes : (((afterDealings 10 () overfull).access ⟨1⟩).2.ledger? 0).map (·.residentBytes) =
      some wordMax := by decide +kernel
  have htwo : ((afterDealings 10 () overfull).access ⟨1⟩).2.residents.length = 2 := by
    decide +kernel
  refine ⟨by decide +kernel, ?_, ?_⟩
  · intro busy cause s I
    rcases Relation.ReflTransGen.cases_head I with heq | ⟨job, B, I⟩
    · cases congrArg Job.task heq
    · cases B with
      | @make _ _ entry _ hentry =>
        have hrecipe : entry.recipe = .done 2 := by simpa [hentry] using hdone
        rw [hrecipe] at I
        -- The recipe is a value, so nothing begins on its way.
        rcases Relation.ReflTransGen.cases_head I with heq | ⟨job, B, -⟩
        · cases congrArg Job.task heq
        · cases B
  · rintro ⟨ledger, hledger, -, -, hkeeps⟩
    have hover : ledger.residentBytes = wordMax := by simpa [hledger] using hbytes
    rw [hover, htwo] at hkeeps
    exact absurd hkeeps (by decide)

end Store

end Patchwork.Cache
