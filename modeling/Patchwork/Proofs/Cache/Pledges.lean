import Patchwork.Proofs.Cache.Promises
import Patchwork.Proofs.Cache.Purity
import Patchwork.Proofs.Cache.Requests
import Patchwork.Proofs.Mirror

/-!
# Values that are fixed in advance

A promise speaks of the values that there are; a recipe may still stop at any time.  A pledge says
more: that a value is made whenever it is asked for, and which one, or that there is none.  Recipes
may look at the world and at what is at hand, and change parts of the world that no recipe cares
about.  As long as a recipe asks for earlier values only, what it makes shows the pledged outcome.

A cache then has no say in the answers.  What it keeps was pledged, what it evicted is made again,
and since recipes go back to earlier values none ever waits for itself.  The sizes that are declared
must fit a machine word together, so that counting them cannot fail.

What is pledged may depend on the stage that the world has come to.  When it passes to the next,
what is at hand must be pledged there as well.

## Main definitions

* `Pledge` — the outcome of each handle.
* `Recipe.Mirrors` — a recipe shows an outcome, over the pledges.
* `Store.Pledged` — a store whose recipes make what is pledged.

## Main statements

* `Catalogue.Pledged.ask` — a pledged value is given.
* `Store.Pledged.perform`, `Store.Pledged.perform_ensures` — running a recipe in such a store.
-/

namespace Patchwork.Cache

open Outcome

variable {ω V α β γ δ ι : Type}

/-- The outcome of each handle. -/
abbrev Pledge (V : Type) := Handle → Outcome V → Prop

/-- What is pledged is promised. -/
def Pledge.promise (O : Pledge V) : Promise V := fun h v => ∀ o, O h o → o = .ok v

/-- A pledge for one more handle. -/
def Pledge.add (O : Pledge V) (h : Handle) (o : Outcome V) : Pledge V :=
  fun g p => O g p ∨ g = h ∧ p = o

theorem Pledge.promise_add {O : Pledge V} {h g : Handle} {o : Outcome V} {v : V} :
    (O.add h o).promise g v ↔ O.promise g v ∧ (g = h → o = .ok v) := by
  constructor
  · exact fun hv => ⟨fun p hp => hv p (.inl hp), fun heq => hv o (.inr ⟨heq, rfl⟩)⟩
  · rintro ⟨hold, hnew⟩ p (hp | ⟨heq, rfl⟩)
    · exact hold p hp
    · exact hnew heq

/-! ## Recipes that show an outcome -/

namespace Recipe

/-- The recipe asks for pledged values with lower numbers only, and shows an outcome. -/
def Mirrors (O : Pledge V) (D : Drift ω) (limit : Nat) (R : β → α → Prop) (x : Outcome β) :
    Recipe ω V α → Prop
  | .done value => Alike R x (.ok value)
  | .stop cause => Alike R x (.error cause)
  | .access h next => h.index < limit ∧ ∃ o, O h o ∧
      (∀ value, o = .ok value → (next (.ok value)).Mirrors O D limit R x) ∧
      (o.Fails → x.Fails ∧ ∀ cause, (next (.error cause)).Mirrors O D limit R x)
  | .lower _ next => next.Mirrors O D limit R x
  | .inspect _ next => ∀ status, (next status).Mirrors O D limit R x
  | .read next => ∀ w, D.Fits w → (next w).Mirrors O D limit R x
  | .write change next => (∀ w, D.Fits w → D.Step w (change w)) ∧ next.Mirrors O D limit R x

namespace Mirrors

variable {O O' : Pledge V} {D D' : Drift ω} {limit limit' : Nat} {R : β → α → Prop}
  {S : δ → γ → Prop} {x : Outcome β} {r : Recipe ω V α}

theorem mono (h : r.Mirrors O D limit R x) (hO : ∀ h o, O h o → O' h o) (hlimit : limit ≤ limit')
    (hfits : ∀ w, D'.Fits w → D.Fits w)
    (hstep : ∀ w w', D'.Fits w → D.Step w w' → D'.Step w w') : r.Mirrors O' D' limit' R x := by
  induction r with
  | done | stop => exact h
  | access g next ih =>
    obtain ⟨hg, o, ho, hok, hfails⟩ := h
    exact ⟨Nat.lt_of_lt_of_le hg hlimit, o, hO g o ho, fun value hv => ih _ (hok value hv),
      fun hf => ⟨(hfails hf).1, fun cause => ih _ ((hfails hf).2 cause)⟩⟩
  | lower g next ih => exact ih h
  | inspect g next ih => exact fun status => ih status (h status)
  | read next ih => exact fun w hw => ih w (h w (hfits w hw))
  | write change next ih =>
    exact ⟨fun w hw => hstep w _ hw (h.1 w (hfits w hw)), ih h.2⟩

/-- More may be pledged. -/
theorem more (h : r.Mirrors O D limit R x) (hO : ∀ h o, O h o → O' h o) :
    r.Mirrors O' D limit R x :=
  h.mono hO (Nat.le_refl limit) (fun _ => id) fun _ _ _ => id

/-- An outcome with the same answer will do as well. -/
theorem congr {x' : Outcome β} (h : r.Mirrors O D limit R x) (hx : Alike Eq x x') :
    r.Mirrors O D limit R x' := by
  induction r with
  | done | stop => exact Alike.congr h hx
  | access g next ih =>
    obtain ⟨hlimit, o, ho, hok, hfails⟩ := h
    exact ⟨hlimit, o, ho, fun value hv => ih _ (hok value hv),
      fun hf => ⟨hx.fails (hfails hf).1, fun cause => ih _ ((hfails hf).2 cause)⟩⟩
  | lower g next ih => exact ih h
  | inspect g next ih => exact fun status => ih status (h status)
  | read next ih => exact fun w hw => ih w (h w hw)
  | write change next ih => exact ⟨h.1, ih h.2⟩

/-- One recipe after another. -/
theorem bind {f : α → Recipe ω V γ} {g : β → Outcome δ} (h : r.Mirrors O D limit R x)
    (hf : ∀ b a, x = .ok b → R b a → (f a).Mirrors O D limit S (g b)) :
    (r >>= f).Mirrors O D limit S (x >>= g) := by
  rw [bind_eq_bind]
  induction r with
  | done value =>
    cases x with
    | error cause => exact h.elim
    | ok b => exact hf b value rfl h
  | stop cause => exact alike_error_iff.mpr ((alike_error_iff.mp h).bind g)
  | access e next ih =>
    obtain ⟨hlimit, o, ho, hok, hfails⟩ := h
    exact ⟨hlimit, o, ho, fun value hv => ih _ (hok value hv),
      fun hf => ⟨(hfails hf).1.bind g, fun cause => ih _ ((hfails hf).2 cause)⟩⟩
  | lower e next ih => exact ih h
  | inspect e next ih => exact fun status => ih status (h status)
  | read next ih => exact fun w hw => ih w (h w hw)
  | write change next ih => exact ⟨h.1, ih h.2⟩

/-- A step whose answer is known, and no part of the outcome. -/
theorem bind_ok {b : β} {f : α → Recipe ω V γ} {y : Outcome δ}
    (h : r.Mirrors O D limit R (.ok b)) (hf : ∀ a, R b a → (f a).Mirrors O D limit S y) :
    (r >>= f).Mirrors O D limit S y := by
  refine h.bind (g := fun _ => y) ?_
  rintro _ a ⟨⟩ ha
  exact hf a ha

theorem lift {y : Outcome α} (h : Alike R x y) :
    (ofOutcome y : Recipe ω V α).Mirrors O D limit R x := by
  cases y with
  | ok a => exact h
  | error cause => exact h

/-- A pledged value. -/
theorem fetch {h : Handle} {o : Outcome V} (ho : O h o) (hlimit : h.index < limit) :
    (Recipe.fetch h : Recipe ω V V).Mirrors O D limit Eq o :=
  ⟨hlimit, o, ho, fun _ hv => hv ▸ Alike.refl _, fun hf => ⟨hf, fun _ => alike_error_iff.mpr hf⟩⟩

/-- A pledged value of one kind. -/
theorem fetch_map {h : Handle} {kind : β → V} (ho : O h (kind <$> x)) (hlimit : h.index < limit) :
    (Recipe.fetch h : Recipe ω V V).Mirrors O D limit (fun b v => v = kind b) x := by
  refine ⟨hlimit, _, ho, ?_, ?_⟩
  · intro value hvalue
    cases x with
    | error cause => cases hvalue
    | ok b => exact (Except.ok.inj hvalue).symm
  · intro hf
    cases x with
    | error cause => exact ⟨fails_error cause, fun _ => trivial⟩
    | ok b => exact absurd rfl (hf (kind b))

/-- A recipe that shows an outcome up to a function shows its image. -/
theorem map {kind : β → α} (h : r.Mirrors O D limit (fun b a => a = kind b) x) :
    r.Mirrors O D limit Eq (kind <$> x) := by
  rw [← bind_pure r, map_eq_pure_bind]
  apply h.bind
  rintro b _ - rfl
  exact rfl

/-- What holds in every world is read. -/
theorem observe {part : ω → α} {a : α} (hpart : ∀ w, D.Fits w → part w = a) :
    (Recipe.observe part : Recipe ω V α).Mirrors O D limit Eq (.ok a) :=
  fun w hw => (hpart w hw).symm

/-- A value may stand anywhere. -/
theorem statusOf (h : Handle) :
    (Recipe.statusOf h : Recipe ω V Status).Mirrors O D limit (fun _ _ => True) (.ok ()) :=
  fun _ => trivial

theorem demote (h : Handle) :
    (Recipe.demote h : Recipe ω V Unit).Mirrors O D limit Eq (.ok ()) :=
  rfl

end Mirrors

/-- Recipes that show plain outcomes. -/
def mirror (O : Pledge V) (D : Drift ω) (limit : Nat) : Mirror (Recipe ω V) where
  Shows R x r := r.Mirrors O D limit R x
  pure h := h
  bind h hf := h.bind fun b a _ => hf b a
  lift h := Mirrors.lift h

end Recipe

/-! ## Running recipes on a queue -/

namespace Catalogue

/-- How a value that somebody refers to is made. -/
def recipe? (entries : Catalogue ω V) (h : Handle) : Option (Recipe ω V V) :=
  (entries.entry? h).map (·.recipe)

variable {c : Catalogue ω V} {h g : Handle} {r : Recipe ω V V}

theorem recipe?_eq_some_iff :
    c.recipe? h = some r ↔ ∃ entry, c.entry? h = some entry ∧ entry.recipe = r :=
  Option.map_eq_some_iff

theorem lt_size_of_recipe? (hr : c.recipe? h = some r) : h.index < c.size := by
  obtain ⟨entry, hentry, -⟩ := recipe?_eq_some_iff.mp hr
  exact (Array.getElem?_eq_some_iff.mp (getElem?_of_alive hentry)).1

end Catalogue

/-- The recipes make what is pledged, and there is a pledge for every value. -/
structure Catalogue.Pledged (O : Pledge V) (D : Drift ω) (c : Catalogue ω V) : Prop where
  /-- A pledged value can be asked for, and its recipe makes it from earlier ones. -/
  makes : ∀ h o, O h o → ∃ r, c.recipe? h = some r ∧ r.Mirrors O D h.index Eq o
  /-- Whatever can be asked for is pledged. -/
  covers : ∀ h, (c.recipe? h).isSome → ∃ o, O h o

/-- The values at hand are pledged. -/
structure Lru.Honors (O : Pledge V) (D : Drift ω) (l : Lru ω V) : Prop where
  /-- The world is as it is throughout. -/
  fits : D.Fits l.world
  /-- What is at hand is what is pledged. -/
  values : ∀ item ∈ l.queue, O.promise item.handle item.value

/-- How a run ends that shows an outcome. -/
structure Lru.Delivers (O : Pledge V) (D : Drift ω) (R : β → α → Prop) (x : Outcome β)
    (l : Lru ω V) (y : Outcome α × Lru ω V) : Prop where
  /-- It gives the outcome. -/
  answer : Alike R x y.1
  /-- What is at hand afterwards is pledged. -/
  honors : y.2.Honors O D
  /-- The world only drifted. -/
  drifts : D.Step l.world y.2.world

namespace Lru

variable {O : Pledge V} {D : Drift ω} {l : Lru ω V}

theorem Honors.move (H : l.Honors O D) {change : Queue V → Queue V}
    (hchange : ∀ item ∈ change l.queue, item ∈ l.queue) : (l.line change).Honors O D :=
  ⟨H.fits, fun item hitem => H.values item (hchange item hitem)⟩

theorem Honors.lower (H : l.Honors O D) (c : Catalogue ω V) (h : Handle) :
    (l.line fun q => if (c.entry? h).isSome then q.lower h else q).Honors O D := by
  apply H.move
  intro item hitem
  split at hitem
  · exact Queue.mem_of_mem_lower hitem
  · exact hitem

theorem Honors.enroll (H : l.Honors O D) {h : Handle} {value : V} (hvalue : O.promise h value)
    (size : Nat) : (l.line (·.enroll l.budget ⟨h, size, value⟩)).Honors O D := by
  refine ⟨H.fits, fun item hitem => ?_⟩
  rcases Queue.mem_of_mem_enroll hitem with hitem | rfl
  · exact H.values item hitem
  · exact hvalue

theorem Delivers.of_honors {R : β → α → Prop} {x : Outcome β} {answer : Outcome α}
    (H : l.Honors O D) (hanswer : Alike R x answer) : Delivers O D R x l (answer, l) :=
  ⟨hanswer, H, D.refl H.fits⟩

end Lru

section Running

variable {O : Pledge V} {D : Drift ω} {c : Catalogue ω V} {l : Lru ω V}

open Lru

/-- A recipe that shows an outcome gives it, when requests for earlier values are met. -/
theorem play_mirrors {ask : Handle → Lru ω V → Outcome V × Lru ω V} {limit : Nat}
    (hask : ∀ h o l, O h o → h.index < limit → l.Honors O D → Delivers O D Eq o l (ask h l))
    {R : β → α → Prop} {x : Outcome β} {r : Recipe ω V α} (hr : r.Mirrors O D limit R x)
    (H : l.Honors O D) : Delivers O D R x l (r.play c ask l) := by
  induction r generalizing l with
  | done value => exact .of_honors H hr
  | stop cause => exact .of_honors H hr
  | access h next ih =>
    obtain ⟨hlimit, o, ho, hok, hfails⟩ := hr
    obtain ⟨hanswer, H', hstep⟩ := hask h o l ho hlimit H
    rw [Recipe.play]
    generalize ask h l = y at *
    obtain ⟨answer, l'⟩ := y
    cases answer with
    | ok value =>
      obtain ⟨hrest, H'', hstep'⟩ := ih _ (hok value (Alike.eq_iff.mp hanswer value |>.mpr rfl)) H'
      exact ⟨hrest, H'', D.trans hstep hstep'⟩
    | error cause =>
      obtain ⟨hx, hnext⟩ := hfails (alike_error_iff.mp hanswer)
      cases cause with
      | fault cause => exact ⟨alike_error_iff.mpr hx, H', hstep⟩
      | problem cause =>
        obtain ⟨hrest, H'', hstep'⟩ := ih _ (hnext cause) H'
        exact ⟨hrest, H'', D.trans hstep hstep'⟩
  | lower h next ih =>
    obtain ⟨hrest, H', hstep⟩ := ih hr (H.lower c h)
    exact ⟨hrest, H', hstep⟩
  | inspect h next ih => exact ih _ (hr _) H
  | read next ih => exact ih _ (hr l.world H.fits) H
  | write change next ih =>
    have hstep := hr.1 l.world H.fits
    have H' : Honors O D { l with world := change l.world } := ⟨D.fits hstep, H.values⟩
    obtain ⟨hrest, H'', hstep'⟩ := ih hr.2 H'
    exact ⟨hrest, H'', D.trans hstep hstep'⟩

/-- **A pledged value is given**, unless too many values are under way: it is at hand or is made
from earlier ones. -/
theorem Catalogue.Pledged.ask (hc : c.Pledged O D) {depth : Nat} {busy : List Handle} {h : Handle}
    {o : Outcome V} (ho : O h o) (hdepth : h.index < depth)
    (hbusy : ∀ b ∈ busy, h.index < b.index) (H : l.Honors O D) :
    Delivers O D Eq o l (c.ask depth busy h l) := by
  induction depth generalizing busy h o l with
  | zero => exact absurd hdepth (Nat.not_lt_zero _)
  | succ depth ih =>
    obtain ⟨recipe, hrecipe, -⟩ := hc.makes h o ho
    obtain ⟨entry, hentry, rfl⟩ := Catalogue.recipe?_eq_some_iff.mp hrecipe
    rw [Catalogue.ask]
    simp only [hentry, if_neg fun hmem => Nat.lt_irrefl _ (hbusy h hmem)]
    cases hitem : l.queue.item? h with
    | some item =>
      obtain ⟨hmem, rfl⟩ := Queue.mem_of_item? hitem
      have hanswer : Alike Eq o (.ok item.value) := H.values item hmem o ho ▸ Alike.refl _
      have H' : (l.line (·.hit item.handle)).Honors O D := H.move fun _ => Queue.mem_of_mem_hit
      exact ⟨hanswer, H', D.refl H.fits⟩
    | none =>
      have hrun : ∀ p, O h p → Delivers O D Eq p l
          (entry.recipe.play c (fun other => c.ask depth (h :: busy) other) l) := by
        intro p hp
        obtain ⟨same, hsame, hmakes⟩ := hc.makes h p hp
        obtain rfl : entry.recipe = same := Option.some.inj (hrecipe.symm.trans hsame)
        exact play_mirrors (fun d q l hq hd H => ih hq (by omega)
          (List.forall_mem_cons.mpr ⟨hd, fun b hb => Nat.lt_trans hd (hbusy b hb)⟩) H) hmakes H
      dsimp only
      generalize entry.recipe.play c (fun other => c.ask depth (h :: busy) other) l = y at *
      obtain ⟨answer, l'⟩ := y
      obtain ⟨hanswer, H', hstep⟩ := hrun o ho
      cases answer with
      | error cause => exact ⟨hanswer, H', hstep⟩
      | ok value =>
        have hvalue : O.promise h value :=
          fun p hp => (Alike.eq_iff.mp (hrun p hp).answer value).mpr rfl
        exact ⟨hanswer, H'.enroll hvalue entry.size, hstep⟩

/-- Any value may be asked for. -/
theorem Catalogue.Pledged.ask_any (hc : c.Pledged O D) (h : Handle) (H : l.Honors O D) :
    (c.ask c.size [] h l).2.Honors O D ∧ D.Step l.world (c.ask c.size [] h l).2.world ∧
      ∀ value, (c.ask c.size [] h l).1 = .ok value → O.promise h value := by
  have hdelivers : ∀ o, O h o → Delivers O D Eq o l (c.ask c.size [] h l) := by
    intro o ho
    obtain ⟨r, hr, -⟩ := hc.makes h o ho
    exact hc.ask ho (Catalogue.lt_size_of_recipe? hr) (List.forall_mem_nil _) H
  cases hentry : c.entry? h with
  | some entry =>
    obtain ⟨o, ho⟩ := hc.covers h (by simp [Catalogue.recipe?, hentry])
    exact ⟨(hdelivers o ho).honors, (hdelivers o ho).drifts, fun value hvalue p hp =>
      (Alike.eq_iff.mp (hdelivers p hp).answer value).mpr hvalue⟩
  | none =>
    have hask : c.ask c.size [] h l = (.error (.fault .outOfBounds), l) := by
      unfold Catalogue.ask
      simp only [hentry]
    rw [hask]
    exact ⟨H, D.refl H.fits, fun value hvalue => absurd hvalue (fails_error _ value)⟩

/-- Any recipe that does what it does over the promises. -/
theorem Catalogue.Pledged.play_ensures (hc : c.Pledged O D) {F : ω → Prop} {P : α → ω → Prop}
    {r : Recipe ω V α} (hr : r.Ensures O.promise D F P l.world) (H : l.Honors O D) :
    (r.play c (c.ask c.size []) l).2.Honors O D ∧
      (∀ a, (r.play c (c.ask c.size []) l).1 = .ok a →
        P a (r.play c (c.ask c.size []) l).2.world) ∧
      ∀ cause, (r.play c (c.ask c.size []) l).1 = .error cause →
        F (r.play c (c.ask c.size []) l).2.world := by
  induction r generalizing l with
  | done value =>
    refine ⟨H, ?_, fun cause hcause => absurd hcause.symm (fails_error cause value)⟩
    rintro _ ⟨⟩
    exact hr
  | stop cause =>
    exact ⟨H, fun a ha => absurd ha (fails_error cause a), fun _ _ => hr⟩
  | access h next ih =>
    obtain ⟨H', hstep, hvalue⟩ := hc.ask_any h H
    rw [Recipe.play]
    generalize c.ask c.size [] h l = y at *
    obtain ⟨answer, l'⟩ := y
    cases answer with
    | ok value => exact ih _ ((hr _ hstep).2.1 value (hvalue value rfl)) H'
    | error cause =>
      cases cause with
      | fault cause =>
        exact ⟨H', fun a ha => absurd ha (fails_error _ a), fun _ _ => (hr _ hstep).1⟩
      | problem cause => exact ih _ ((hr _ hstep).2.2 cause) H'
  | lower h next ih => exact ih hr (H.lower c h)
  | inspect h next ih => exact ih _ (hr _) H
  | read next ih => exact ih _ hr H
  | write change next ih => exact ih hr.2 ⟨hr.1, H.values⟩

end Running

/-! ## Stores -/

/-- One recipe after another. -/
theorem Recipe.run_bind {c : Catalogue ω V} {visit : Handle → Shelf ω V → Outcome V × Shelf ω V}
    (r : Recipe ω V α) (f : α → Recipe ω V β) (s : Shelf ω V) :
    (r.bind f).run c visit s =
      match r.run c visit s with
      | (.ok a, s) => (f a).run c visit s
      | (.error cause, s) => (.error cause, s) := by
  induction r generalizing s with
  | done | stop => rfl
  | access h next ih =>
    simp only [Recipe.bind, Recipe.run]
    generalize visit h s = x
    obtain ⟨answer, s⟩ := x
    cases answer with
    | ok value => exact ih (.ok value) s
    | error cause =>
      cases cause with
      | problem cause => exact ih (.error cause) s
      | fault cause => rfl
  | lower h next ih => exact ih (c.demote s h)
  | inspect h next ih => exact ih (c.status s h) s
  | read next ih => exact ih s.world s
  | write change next ih => exact ih { s with world := change s.world }

namespace Store

variable {O : Pledge V} {D : Drift ω} {s : Store ω V}

/-- One recipe after another. -/
theorem perform_bind (s : Store ω V) (r : Recipe ω V α) (f : α → Recipe ω V β) :
    s.perform (r >>= f) =
      match s.perform r with
      | (.ok a, after) => after.perform (f a)
      | (.error cause, after) => (.error cause, after) := by
  simp only [Store.perform, Recipe.bind_eq_bind, Recipe.run_bind]
  generalize r.run s.catalogue (s.catalogue.visit s.catalogue.size []) s.shelf = x
  obtain ⟨cause | a, shelf⟩ := x <;> rfl

/-- A recipe that ends with an answer got one from its first part. -/
theorem perform_bind_eq_ok {r : Recipe ω V α} {f : α → Recipe ω V β} {b : β} {final : Store ω V}
    (h : s.perform (r >>= f) = (.ok b, final)) :
    ∃ a after, s.perform r = (.ok a, after) ∧ after.perform (f a) = (.ok b, final) := by
  rw [perform_bind] at h
  generalize s.perform r = x at *
  obtain ⟨cause | a, after⟩ := x
  · cases h
  · exact ⟨a, after, rfl, h⟩

/-- Running a recipe gives the answer of the queue. -/
theorem Follows.perform {m : Lru.Store ω V} {bytes : Nat} (F : s.Follows m bytes)
    (r : Recipe ω V α) :
    (s.perform r).1 = (r.play s.catalogue (s.catalogue.ask s.catalogue.size []) m.lru).1 ∧
      (s.perform r).2.catalogue = s.catalogue ∧
      (s.perform r).2.Follows
        { m with lru := (r.play s.catalogue (s.catalogue.ask s.catalogue.size []) m.lru).2 }
        bytes := by
  obtain ⟨hanswer, F', -⟩ := agree_play F.single
    (fun h _ _ F' I => agree_ask F.single s.catalogue.size h F' I) r F.shelf (List.forall_mem_nil _)
  exact ⟨hanswer, rfl, F.catalogue, F.single, F.bytes, F'⟩

/-- How a value that somebody refers to is made. -/
def recipe? (s : Store ω V) (h : Handle) : Option (Recipe ω V V) := s.catalogue.recipe? h

/-- The sum of all declared sizes. -/
def declared (s : Store ω V) : Nat := (s.catalogue.toList.map (·.size)).sum

/-- Referring once more to a value that somebody refers to changes nothing else. -/
theorem recipe?_retain {g : Handle} (hg : (s.recipe? g).isSome) (h : Handle) :
    (s.retain g).recipe? h = s.recipe? h := by
  obtain ⟨r, hr⟩ := Option.isSome_iff_exists.mp hg
  obtain ⟨entry, hentry, rfl⟩ := Catalogue.recipe?_eq_some_iff.mp hr
  by_cases heq : h = g
  · subst heq
    have hafter : Catalogue.entry? (s.retain h).catalogue h =
        some { entry with references := entry.references + 1 } :=
      Catalogue.entry?_recount_self hentry (Nat.succ_pos _)
    rw [hr, recipe?, Catalogue.recipe?, hafter]
    rfl
  · exact congrArg (Option.map (·.recipe)) (Catalogue.entry?_recount_ne heq _)

theorem recipe?_retain_all {holds : List Handle} (hholds : ∀ g ∈ holds, (s.recipe? g).isSome)
    (h : Handle) : (holds.foldl retain s).recipe? h = s.recipe? h := by
  induction holds generalizing s with
  | nil => rfl
  | cons g rest ih =>
    obtain ⟨hg, hrest⟩ := List.forall_mem_cons.mp hholds
    have hsame := recipe?_retain hg
    exact (ih fun g' hg' => by rw [hsame]; exact hrest g' hg').trans (hsame h)

theorem declared_retain_all (s : Store ω V) (holds : List Handle) :
    (holds.foldl retain s).declared = s.declared := by
  induction holds generalizing s with
  | nil => rfl
  | cons g rest ih =>
    exact (ih (s.retain g)).trans
      (congrArg List.sum (Catalogue.map_recount s.catalogue g (· + 1) (·.size) fun _ _ => rfl))

section Insert

variable {cache size : Nat} {recipe : Recipe ω V V} {holds : List Handle}

theorem declared_insert :
    (s.insert cache size recipe holds).2.declared = s.declared + size := by
  rw [← declared_retain_all s holds]
  simp [declared, insert]

/-- A value that is registered comes last. -/
theorem recipe?_insert (hholds : ∀ g ∈ holds, (s.recipe? g).isSome) (h : Handle) :
    (s.insert cache size recipe holds).2.recipe? h =
      if h.index = s.catalogue.size then some recipe else s.recipe? h := by
  rw [← recipe?_retain_all hholds h, ← size_retain_all s holds]
  simp only [recipe?, Catalogue.recipe?, Catalogue.entry?, insert, Array.getElem?_push]
  split
  · rfl
  · rfl

/-- The recipe of a value just registered makes what is pledged, too. -/
theorem pledged_insert (hc : s.catalogue.Pledged O D) {o : Outcome V}
    (hrecipe : recipe.Mirrors O D s.catalogue.size Eq o)
    (hholds : ∀ g ∈ holds, (s.recipe? g).isSome) :
    (s.insert cache size recipe holds).2.catalogue.Pledged (O.add ⟨s.catalogue.size⟩ o) D := by
  have hmore : ∀ h p, O h p → O.add ⟨s.catalogue.size⟩ o h p := fun _ _ => .inl
  refine ⟨?_, ?_⟩
  · rintro h p (hp | ⟨rfl, rfl⟩)
    · obtain ⟨r, hr, hshows⟩ := hc.makes h p hp
      have hold : h.index ≠ s.catalogue.size := (Catalogue.lt_size_of_recipe? hr).ne
      exact ⟨r, ((recipe?_insert hholds h).trans (if_neg hold)).trans hr, hshows.more hmore⟩
    · exact ⟨recipe, (recipe?_insert hholds _).trans (if_pos rfl), hrecipe.more hmore⟩
  · intro h hh
    have hafter : ((s.insert cache size recipe holds).2.recipe? h).isSome := hh
    rw [recipe?_insert hholds] at hafter
    split at hafter
    · next heq => exact ⟨o, .inr ⟨congrArg Handle.mk heq, rfl⟩⟩
    · obtain ⟨p, hp⟩ := hc.covers h hafter
      exact ⟨p, .inl hp⟩

end Insert

/-- The store has one cache, whose declared sizes fit a machine word together.  The world passes
through stages; at each of them the recipes make what is pledged then, and what is at hand was
pledged for the present stage. -/
structure Pledged (s : Store ω V) (O : ι → Pledge V) (D : ι → Drift ω) (stage : ι) : Prop where
  /-- The recipes make what is pledged. -/
  catalogue : ∀ stage, s.catalogue.Pledged (O stage) (D stage)
  /-- The store follows a queue of what is pledged. -/
  queue : ∃ (m : Lru.Store ω V) (bytes : Nat), s.Follows m bytes ∧ m.lru.Honors (O stage) (D stage)

namespace Pledged

variable {O : ι → Pledge V} {D : ι → Drift ω} {stage : ι}

theorem empty {world : ω} (hworld : (D stage).Fits world) (budget : Nat) :
    ((Store.empty world : Store ω V).newCache budget).2.Pledged (fun _ _ _ => False) D stage :=
  ⟨fun _ => ⟨fun _ _ => False.elim, fun h hh => by simp [Store.empty, newCache, Catalogue.recipe?,
    Catalogue.entry?] at hh⟩, _, _, .empty budget world, hworld, List.forall_mem_nil _⟩

theorem fits (S : s.Pledged O D stage) : (D stage).Fits s.world := by
  obtain ⟨m, bytes, F, H⟩ := S.queue
  have hworld : s.world = m.lru.world := F.shelf.world
  exact hworld ▸ H.fits

/-- Changing the world, which may pass to another stage if what is at hand is pledged there, too. -/
theorem turn (S : s.Pledged O D stage) {next : ι} {change : ω → ω}
    (hchange : (D next).Fits (change s.world))
    (hO : ∀ h v, (O stage).promise h v → (O next).promise h v) :
    (s.amend change).Pledged O D next := by
  obtain ⟨m, bytes, F, H⟩ := S.queue
  have hworld : s.world = m.lru.world := F.shelf.world
  rw [hworld] at hchange
  exact ⟨S.catalogue, _, bytes, F.amend change, hchange, fun item hitem =>
    hO _ _ (H.values item hitem)⟩

/-- Taking everything off the shelf. -/
theorem clear (S : s.Pledged O D stage) : (s.clear 0).Pledged O D stage := by
  obtain ⟨m, bytes, F, H⟩ := S.queue
  have hcatalogue : (s.clear 0).catalogue = s.catalogue := by
    unfold Store.clear
    split <;> rfl
  exact ⟨hcatalogue ▸ S.catalogue, _, bytes, F.clear, H.fits, List.forall_mem_nil _⟩

/-- What is pledged is registered. -/
theorem lt_size (S : s.Pledged O D stage) (other : ι) {h : Handle} {o : Outcome V}
    (ho : O other h o) : h.index < s.catalogue.size := by
  obtain ⟨r, hr, -⟩ := (S.catalogue other).makes h o ho
  exact Catalogue.lt_size_of_recipe? hr

/-- Registering a value whose recipe shows an outcome. -/
theorem insert (S : s.Pledged O D stage) (size : Nat) (recipe : Recipe ω V V)
    (holds : List Handle) {o : ι → Outcome V}
    (hrecipe : ∀ stage, recipe.Mirrors (O stage) (D stage) s.catalogue.size Eq (o stage))
    (hholds : ∀ g ∈ holds, ∃ p, O stage g p) (hroom : s.declared + size ≤ wordMax) :
    (s.insert 0 size recipe holds).2.Pledged
      (fun stage => (O stage).add ⟨s.catalogue.size⟩ (o stage)) D stage := by
  have hholds' : ∀ g ∈ holds, (s.recipe? g).isSome := by
    intro g hg
    obtain ⟨p, hp⟩ := hholds g hg
    obtain ⟨r, hr, -⟩ := (S.catalogue stage).makes g p hp
    exact Option.isSome_of_eq_some hr
  obtain ⟨m, bytes, F, H⟩ := S.queue
  refine ⟨fun other => pledged_insert (S.catalogue other) (hrecipe other) hholds', _, _,
    F.insert size recipe holds (F.bytes ▸ hroom), H.fits, ?_⟩
  rintro item hitem p (hp | ⟨hnew, -⟩)
  · exact H.values item hitem p hp
  · obtain ⟨entry, hentry, -⟩ := F.shelf.known item hitem
    have hlt := Catalogue.lt_size_of_recipe? (Catalogue.recipe?_eq_some_iff.mpr
      ⟨entry, hentry, rfl⟩)
    rw [hnew] at hlt
    exact absurd hlt (Nat.lt_irrefl _)

/-- **A recipe that shows an outcome gives it.** -/
theorem perform (S : s.Pledged O D stage) {R : β → α → Prop} {x : Outcome β} {r : Recipe ω V α}
    (hr : r.Mirrors (O stage) (D stage) s.catalogue.size R x) : Alike R x (s.perform r).1 := by
  obtain ⟨m, bytes, F, H⟩ := S.queue
  rw [(F.perform r).1]
  exact (play_mirrors (fun h o l ho hlt H =>
    (S.catalogue stage).ask ho hlt (List.forall_mem_nil _) H) hr H).answer

/-- **Whatever a recipe does over the promises**, the store keeps its pledges. -/
theorem perform_ensures (S : s.Pledged O D stage) {F : ω → Prop} {P : α → ω → Prop}
    {r : Recipe ω V α} (hr : r.Ensures (O stage).promise (D stage) F P s.world)
    {answer : Outcome α} {after : Store ω V} (hrun : s.perform r = (answer, after)) :
    after.Pledged O D stage ∧ after.catalogue = s.catalogue ∧
      (∀ a, answer = .ok a → P a after.world) ∧
      ∀ cause, answer = .error cause → F after.world := by
  obtain ⟨m, bytes, F, H⟩ := S.queue
  have hworld : s.world = m.lru.world := F.shelf.world
  obtain ⟨hanswer, hcatalogue, F'⟩ := F.perform r
  obtain ⟨H', hok, herror⟩ := (S.catalogue stage).play_ensures (hworld ▸ hr) H
  rw [hrun] at hanswer hcatalogue F'
  have hworld' : after.world = _ := F'.shelf.world
  refine ⟨⟨hcatalogue ▸ S.catalogue, _, bytes, F', H'⟩, hcatalogue, ?_, ?_⟩
  · intro a ha
    rw [hworld']
    exact hok a (hanswer.symm.trans ha)
  · intro cause hcause
    rw [hworld']
    exact herror cause (hanswer.symm.trans hcause)

end Pledged

end Store

end Patchwork.Cache
