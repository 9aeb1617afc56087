import Mathlib.Logic.Relation
import Patchwork.Proofs.Cache.Lru

/-!
# Recipes that make one value

A pure recipe asks for other values and passes refusals on; what it makes is then determined by
what it is given.  Whether a value can be made at all, and which one it is, is a matter of the
registered recipes alone: `Catalogue.Makes` says it without any cache.

A cache that holds only such values cannot be told from another one.  The point that needs care is
reentrancy: a value that is not at hand is made anew, and this must not ask for a value that is
being made already.  It never does, since whatever is being made waits for the value in question,
and a value that can be made needs no value that waits for it.

## Main definitions

* `Recipe.Pure`, `Recipe.Asks` — pure recipes, and what a recipe may ask for.
* `Catalogue.Makes` — a value that the registered recipes make in a number of rounds.
* `Catalogue.Backs` — every value at hand is one that the recipes make.
* `Catalogue.Pending` — a value that is asked for while others wait for it.

## Main statements

* `Catalogue.ask_of_makes` — a value that can be made is made.
* `Catalogue.ask_agree` — two caches give the same answer.
-/

namespace Patchwork.Cache

variable {ω V α : Type}

/-! ## What recipes make -/

namespace Recipe

/-- The recipe asks for values, demotes them and passes refusals on, and does nothing else. -/
inductive Pure : Recipe ω V α → Prop
  /-- Give a value. -/
  | done (value : α) : Pure (done value)
  /-- Fail. -/
  | stop (cause : Failure) : Pure (stop cause)
  /-- Ask for a value and fail without it. -/
  | access {handle : Handle} {next : Except Problem V → Recipe ω V α}
      (given : ∀ value, Pure (next (.ok value)))
      (refused : ∀ cause, next (.error cause) = .stop (.problem cause)) : Pure (access handle next)
  /-- Mark a value as the first to go. -/
  | lower {handle : Handle} {next : Recipe ω V α} (rest : Pure next) : Pure (lower handle next)

/-- A recipe that asks for a value and goes on with it. -/
theorem Pure.fetch {h : Handle} {f : V → Recipe ω V α} (hf : ∀ value, (f value).Pure) :
    Pure (Recipe.fetch h >>= f) :=
  .access hf fun _ => rfl

/-- The recipe may ask for a value. -/
def Asks (d : Handle) : Recipe ω V α → Prop
  | done _ => False
  | stop _ => False
  | access h next => h = d ∨ ∃ value, (next (.ok value)).Asks d
  | lower _ next => next.Asks d
  | inspect _ next => ∃ status, (next status).Asks d
  | read next => ∃ world, (next world).Asks d
  | write _ next => next.Asks d

/-- The recipe gives a value when it is given values that can be made. -/
def Yields (made : Handle → V → Prop) : Recipe ω V α → α → Prop
  | done value, v => value = v
  | stop _, _ => False
  | access h next, v => ∃ given, made h given ∧ (next (.ok given)).Yields made v
  | lower _ next, v => next.Yields made v
  | inspect _ _, _ => False
  | read _, _ => False
  | write _ _, _ => False

theorem Yields.mono {made made' : Handle → V → Prop} (hmade : ∀ h v, made h v → made' h v)
    {r : Recipe ω V α} {v : α} (h : r.Yields made v) : r.Yields made' v := by
  induction r with
  | done => exact h
  | access g next ih =>
    obtain ⟨given, hgiven, hrest⟩ := h
    exact ⟨given, hmade g given hgiven, ih _ hrest⟩
  | lower _ _ ih => exact ih h
  | stop | inspect | read | write => exact h.elim

theorem Yields.unique {made made' : Handle → V → Prop}
    (hmade : ∀ h v w, made h v → made' h w → v = w) {r : Recipe ω V α} {v w : α}
    (hv : r.Yields made v) (hw : r.Yields made' w) : v = w := by
  induction r with
  | done => exact hv.symm.trans hw
  | access g next ih =>
    obtain ⟨given, hgiven, hrest⟩ := hv
    obtain ⟨given', hgiven', hrest'⟩ := hw
    obtain rfl := hmade g given given' hgiven hgiven'
    exact ih _ hrest hrest'
  | lower _ _ ih => exact ih hv hw
  | stop | inspect | read | write => exact hv.elim

end Recipe

namespace Catalogue

/-- The registered recipes make a value in a number of rounds. -/
def Makes (entries : Catalogue ω V) : Nat → Handle → V → Prop
  | 0, _, _ => False
  | n + 1, h, v =>
    ∃ entry, entries[h.index]? = some entry ∧ entry.recipe.Yields (entries.Makes n) v

/-- The recipe of a value may ask for another. -/
def Needs (entries : Catalogue ω V) (h d : Handle) : Prop :=
  ∃ entry, entries[h.index]? = some entry ∧ entry.recipe.Asks d

/-- All that a value may need, directly or not, is referred to. -/
def Supports (c : Catalogue ω V) (h : Handle) : Prop :=
  ∀ g, Relation.ReflTransGen c.Needs h g → (c.entry? g).isSome

/-- All registered recipes are pure. -/
def Pure (c : Catalogue ω V) : Prop := ∀ entry ∈ c, entry.recipe.Pure

variable {c : Catalogue ω V} {h d : Handle} {n m : Nat} {v w : V}

theorem Makes.mono (hnm : n ≤ m) (hv : c.Makes n h v) : c.Makes m h v := by
  induction n generalizing m h v with
  | zero => exact hv.elim
  | succ n ih =>
    obtain ⟨m, rfl⟩ : ∃ k, m = k + 1 := ⟨m - 1, by omega⟩
    obtain ⟨entry, hentry, hyields⟩ := hv
    exact ⟨entry, hentry, hyields.mono fun _ _ => ih (Nat.le_of_succ_le_succ hnm)⟩

/-- **At most one value** can be made. -/
theorem Makes.unique (hv : c.Makes n h v) (hw : c.Makes m h w) : v = w := by
  induction n generalizing m h v w with
  | zero => exact hv.elim
  | succ n ih =>
    cases m with
    | zero => exact hw.elim
    | succ m =>
      obtain ⟨entry, hentry, hyields⟩ := hv
      obtain ⟨entry', hentry', hyields'⟩ := hw
      obtain rfl : entry = entry' := Option.some.inj (hentry.symm.trans hentry')
      have hgiven : ∀ g u u', c.Makes n g u → c.Makes m g u' → u = u' := fun _ _ _ => ih
      exact Recipe.Yields.unique hgiven hyields hyields'

/-- Everything at hand is a value that the recipes make. -/
def Backs (c : Catalogue ω V) (l : Lru ω V) : Prop :=
  ∀ item ∈ l.queue, ∃ n, c.Makes n item.handle item.value

end Catalogue

/-! ## The values at hand -/

namespace Queue

variable {q : Queue V} {h : Handle} {item : Item V}

theorem mem_of_item? (hitem : q.item? h = some item) : item ∈ q ∧ item.handle = h :=
  ⟨List.mem_of_find?_eq_some hitem, by simpa using List.find?_some hitem⟩

theorem mem_of_mem_hit (hmem : item ∈ q.hit h) : item ∈ q := by
  unfold Queue.hit at hmem
  split at hmem
  · exact hmem
  · next found hfound =>
    rcases List.mem_append.mp hmem with hmem | hmem
    · exact (List.mem_filter.mp hmem).1
    · exact List.mem_singleton.mp hmem ▸ (mem_of_item? hfound).1

theorem mem_of_mem_lower (hmem : item ∈ q.lower h) : item ∈ q := by
  unfold Queue.lower at hmem
  split at hmem
  · exact hmem
  · next found hfound =>
    rcases List.mem_cons.mp hmem with rfl | hmem
    · exact (mem_of_item? hfound).1
    · exact (List.mem_filter.mp hmem).1

theorem mem_of_mem_enroll {budget : Nat} {newcomer : Item V}
    (hmem : item ∈ q.enroll budget newcomer) : item ∈ q ∨ item = newcomer := by
  rcases List.mem_append.mp hmem with hmem | hmem
  · exact .inl ((trim_suffix q budget newcomer.size).subset hmem)
  · exact .inr (List.mem_singleton.mp hmem)

end Queue

namespace Catalogue

variable {c : Catalogue ω V} {l l' : Lru ω V} {h d : Handle}

theorem Backs.move (B : c.Backs l) {change : Queue V → Queue V}
    (hchange : ∀ item ∈ change l.queue, item ∈ l.queue) : c.Backs (l.line change) :=
  fun item hitem => B item (hchange item hitem)

theorem Backs.hit (B : c.Backs l) (h : Handle) : c.Backs (l.line (·.hit h)) :=
  B.move fun _ => Queue.mem_of_mem_hit

theorem Backs.lower (B : c.Backs l) (h : Handle) :
    c.Backs (l.line fun q => if (c.entry? h).isSome then q.lower h else q) := by
  apply B.move
  intro item hitem
  split at hitem
  · exact Queue.mem_of_mem_lower hitem
  · exact hitem

theorem Backs.enroll (B : c.Backs l) {n size : Nat} {value : V} (hvalue : c.Makes n h value) :
    c.Backs (l.line (·.enroll l.budget ⟨h, size, value⟩)) := by
  intro item hitem
  rcases Queue.mem_of_mem_enroll hitem with hitem | rfl
  · exact B item hitem
  · exact ⟨n, hvalue⟩

/-! ## Values that wait for another -/

/-- A value is asked for while those of `busy` are being made: each of these can be made only if the
value can be made in fewer rounds. -/
structure Pending (c : Catalogue ω V) (depth : Nat) (busy : List Handle) (h : Handle) : Prop where
  /-- No value is under way twice. -/
  nodup : busy.Nodup
  /-- Somebody refers to the values that wait. -/
  known : ∀ b ∈ busy, (c.entry? b).isSome
  /-- There is room for all others to be under way, too. -/
  depth : c.size ≤ depth + busy.length
  /-- They wait for the value. -/
  awaits : ∀ g ∈ busy, ∀ n w, c.Makes n g w → ∃ m u, m < n ∧ c.Makes m h u
  /-- What the value may need is referred to. -/
  supports : c.Supports h

/-- What is left of the recipe of a value. -/
structure Rest (c : Catalogue ω V) (h : Handle) (r : Recipe ω V V) : Prop where
  /-- It is pure. -/
  pure : r.Pure
  /-- It asks for nothing new. -/
  asks : ∀ d, r.Asks d → c.Needs h d
  /-- It gives the value, if that can be made. -/
  yields : ∀ n w, c.Makes n h w → ∃ m, m < n ∧ r.Yields (c.Makes m) w

theorem getElem?_of_alive {entries : Catalogue ω V} {entry : Entry ω V}
    (hentry : entries.entry? h = some entry) : entries[h.index]? = some entry :=
  (Option.filter_eq_some_iff.mp hentry).1

theorem Rest.start (hpure : c.Pure) {entry : Entry ω V} (hentry : c.entry? h = some entry) :
    c.Rest h entry.recipe := by
  have hat := getElem?_of_alive hentry
  refine ⟨hpure entry (Array.mem_of_getElem? hat), fun d hd => ⟨entry, hat, hd⟩, ?_⟩
  intro n w hw
  cases n with
  | zero => exact hw.elim
  | succ n =>
    obtain ⟨entry', hentry', hyields⟩ := hw
    obtain rfl : entry = entry' := Option.some.inj (hat.symm.trans hentry')
    exact ⟨n, Nat.lt_succ_self n, hyields⟩

/-- What is left after a value was given. -/
theorem Rest.given {next : Except Problem V → Recipe ω V V} (R : c.Rest h (.access d next))
    {n : Nat} {value : V} (hvalue : c.Makes n d value) : c.Rest h (next (.ok value)) := by
  obtain ⟨hpure, hasks, hyields⟩ := R
  cases hpure with
  | access hgiven hrefused =>
    refine ⟨hgiven value, fun g hg => hasks g (.inr ⟨value, hg⟩), ?_⟩
    intro k w hw
    obtain ⟨m, hm, value', hvalue', hrest⟩ := hyields k w hw
    obtain rfl := hvalue.unique hvalue'
    exact ⟨m, hm, hrest⟩

theorem Rest.lowered {next : Recipe ω V V} (R : c.Rest h (.lower d next)) : c.Rest h next := by
  obtain ⟨hpure, hasks, hyields⟩ := R
  cases hpure with
  | lower hpure => exact ⟨hpure, hasks, hyields⟩

namespace Pending

variable {depth : Nat} {busy : List Handle}

/-- A value that can be made does not wait for itself. -/
theorem not_mem (P : c.Pending depth busy h) {n : Nat} {v : V} (hv : c.Makes n h v) :
    h ∉ busy := by
  intro hbusy
  induction n using Nat.strongRecOn generalizing v with
  | ind n ih =>
    obtain ⟨m, u, hm, hu⟩ := P.awaits h hbusy n v hv
    exact ih m hm hu

theorem exists_entry (P : c.Pending depth busy h) : ∃ entry, c.entry? h = some entry :=
  Option.isSome_iff_exists.mp (P.supports h .refl)

/-- A value that is not under way finds room. -/
theorem exists_depth (P : c.Pending depth busy h) (hbusy : h ∉ busy) :
    ∃ below, depth = below + 1 := by
  have hroom := length_lt_of_new P.nodup P.known (P.supports h .refl) hbusy
  have := P.depth
  exact ⟨depth - 1, by omega⟩

/-- The next value that a recipe asks for. -/
theorem step (P : c.Pending (depth + 1) busy h) (hbusy : h ∉ busy)
    {next : Except Problem V → Recipe ω V V} (R : c.Rest h (.access d next)) :
    c.Pending depth (h :: busy) d := by
  have hshorter : ∀ n w, c.Makes n h w → ∃ m u, m < n ∧ c.Makes m d u := by
    intro n w hw
    obtain ⟨m, hm, u, hu, -⟩ := R.yields n w hw
    exact ⟨m, u, hm, hu⟩
  refine ⟨List.nodup_cons.mpr ⟨hbusy, P.nodup⟩,
    List.forall_mem_cons.mpr ⟨P.supports h .refl, P.known⟩, ?_, ?_, ?_⟩
  · have := P.depth
    rw [List.length_cons]
    omega
  · intro g hg n w hw
    rcases List.mem_cons.mp hg with rfl | hg
    · exact hshorter n w hw
    · obtain ⟨m, u, hm, hu⟩ := P.awaits g hg n w hw
      obtain ⟨k, u', hk, hu'⟩ := hshorter m u hu
      exact ⟨k, u', Nat.lt_trans hk hm, hu'⟩
  · exact fun g hg => P.supports g (.head (R.asks d (.inl rfl)) hg)

end Pending

/-! ## A value that can be made is made -/

/-- A recipe whose value can be made gives it, when the values it asks for are given. -/
theorem play_of_yields {ask : Handle → Lru ω V → Outcome V × Lru ω V} {depth m : Nat}
    {busy : List Handle}
    (hask : ∀ d u l, c.Makes m d u → c.Pending depth (h :: busy) d → c.Backs l →
      (ask d l).1 = .ok u ∧ c.Backs (ask d l).2)
    (P : c.Pending (depth + 1) busy h) (hbusy : h ∉ busy) {r : Recipe ω V V} (R : c.Rest h r)
    {v : V} (hv : r.Yields (c.Makes m) v) (B : c.Backs l) :
    (r.play c ask l).1 = .ok v ∧ c.Backs (r.play c ask l).2 := by
  induction r generalizing l with
  | done value => exact ⟨congrArg Except.ok hv, B⟩
  | access d next ih =>
    obtain ⟨u, hu, hrest⟩ := hv
    obtain ⟨hanswer, B'⟩ := hask d u l hu (P.step hbusy R) B
    rw [Recipe.play]
    generalize ask d l = x at *
    obtain ⟨answer, l'⟩ := x
    obtain rfl : answer = .ok u := hanswer
    exact ih _ (R.given hu) hrest B'
  | lower d next ih => exact ih R.lowered hv (B.lower d)
  | stop | inspect | read | write => exact hv.elim

/-- **A value that can be made is made**, or was at hand. -/
theorem ask_of_makes (hpure : c.Pure) {n depth : Nat} {busy : List Handle} {v : V}
    (hv : c.Makes n h v) (P : c.Pending depth busy h) (B : c.Backs l) :
    (c.ask depth busy h l).1 = .ok v ∧ c.Backs (c.ask depth busy h l).2 := by
  induction n using Nat.strongRecOn generalizing depth busy h v l with
  | ind n ih =>
    obtain ⟨entry, hentry⟩ := P.exists_entry
    have hbusy := P.not_mem hv
    obtain ⟨below, rfl⟩ := P.exists_depth hbusy
    rw [ask]
    simp only [hentry, if_neg hbusy]
    cases hitem : l.queue.item? h with
    | some item =>
      obtain ⟨hmem, rfl⟩ := Queue.mem_of_item? hitem
      obtain ⟨k, hk⟩ := B item hmem
      exact ⟨congrArg Except.ok (hk.unique hv), B.hit item.handle⟩
    | none =>
      have R := Rest.start hpure hentry
      obtain ⟨m, hm, hyields⟩ := R.yields n v hv
      obtain ⟨hanswer, B'⟩ := play_of_yields
        (fun d u l hu P B => ih m hm hu P B) P hbusy R hyields B
      dsimp only
      generalize entry.recipe.play c (fun other => c.ask below (h :: busy) other) l = x at *
      obtain ⟨answer, l'⟩ := x
      obtain rfl : answer = .ok v := hanswer
      exact ⟨rfl, B'.enroll hv⟩

/-! ## Two caches give the same answers -/

/-- Two runs end with the same answer, which is a value of `made` if it is one, and with sound
queues. -/
structure Same (c : Catalogue ω V) (made : α → Prop) (x x' : Outcome α × Lru ω V) : Prop where
  /-- The answers are the same. -/
  answer : x.1 = x'.1
  /-- The first queue holds what the recipes make. -/
  left : c.Backs x.2
  /-- So does the second. -/
  right : c.Backs x'.2
  /-- A value is one that the recipes make. -/
  value : ∀ v, x.1 = .ok v → made v

theorem same_error {made : α → Prop} (B : c.Backs l) (B' : c.Backs l') (cause : Failure) :
    c.Same made (.error cause, l) (.error cause, l') :=
  ⟨rfl, B, B', fun _ => nofun⟩

/-- A pure recipe gives the same answer on two queues. -/
theorem same_play {ask : Handle → Lru ω V → Outcome V × Lru ω V} {depth : Nat} {busy : List Handle}
    (hask : ∀ d l l', c.Pending depth (h :: busy) d → c.Backs l → c.Backs l' →
      c.Same (fun v => ∃ n, c.Makes n d v) (ask d l) (ask d l'))
    (P : c.Pending (depth + 1) busy h) (hbusy : h ∉ busy) {r : Recipe ω V V} (R : c.Rest h r)
    (B : c.Backs l) (B' : c.Backs l') :
    c.Same (fun v => ∃ n, r.Yields (c.Makes n) v) (r.play c ask l) (r.play c ask l') := by
  induction r generalizing l l' with
  | done value => exact ⟨rfl, B, B', fun v hv => ⟨0, Except.ok.inj hv⟩⟩
  | stop cause => exact same_error B B' cause
  | access d next ih =>
    obtain ⟨hanswer, hleft, hright, hvalue⟩ := hask d l l' (P.step hbusy R) B B'
    rw [Recipe.play, Recipe.play]
    generalize ask d l = x at *
    generalize ask d l' = x' at *
    obtain ⟨answer, k⟩ := x
    obtain ⟨answer', k'⟩ := x'
    obtain rfl : answer = answer' := hanswer
    rcases answer with (⟨cause⟩ | ⟨cause⟩) | value
    · exact same_error hleft hright _
    · have hpure := R.pure
      cases hpure with
      | access _ hrefused =>
        simp only [hrefused]
        exact same_error hleft hright _
    · obtain ⟨n, hn⟩ := hvalue value rfl
      obtain ⟨hanswer, hleft, hright, hrest⟩ := ih _ (R.given hn) hleft hright
      refine ⟨hanswer, hleft, hright, ?_⟩
      intro v hv
      obtain ⟨m, hm⟩ := hrest v hv
      exact ⟨max n m, value, hn.mono (Nat.le_max_left n m),
        hm.mono fun _ _ => Makes.mono (Nat.le_max_right n m)⟩
  | lower d next ih => exact ih R.lowered (B.lower d) (B'.lower d)
  | inspect | read | write => exact nomatch R.pure

/-- A value that can be made is given on either queue. -/
theorem same_of_makes (hpure : c.Pure) {n depth : Nat} {busy : List Handle} {v : V}
    (hv : c.Makes n h v) (P : c.Pending depth busy h) (B : c.Backs l) (B' : c.Backs l') :
    c.Same (fun v => ∃ n, c.Makes n h v) (c.ask depth busy h l) (c.ask depth busy h l') := by
  obtain ⟨hleft, B⟩ := ask_of_makes hpure hv P B
  obtain ⟨hright, B'⟩ := ask_of_makes hpure hv P B'
  refine ⟨hleft.trans hright.symm, B, B', ?_⟩
  intro w hw
  rw [hleft] at hw
  exact ⟨n, Except.ok.inj hw ▸ hv⟩

/-- Two queues give the same answer for a value when they do for those its recipe asks for. -/
theorem same_ask (hpure : c.Pure) {depth : Nat} {busy : List Handle}
    (hask : ∀ d l l', c.Pending depth (h :: busy) d → c.Backs l → c.Backs l' →
      c.Same (fun v => ∃ n, c.Makes n d v) (c.ask depth (h :: busy) d l)
        (c.ask depth (h :: busy) d l'))
    (P : c.Pending (depth + 1) busy h) (hbusy : h ∉ busy) (B : c.Backs l) (B' : c.Backs l') :
    c.Same (fun v => ∃ n, c.Makes n h v) (c.ask (depth + 1) busy h l)
      (c.ask (depth + 1) busy h l') := by
  -- one queue may hold a value that the other has to make; both then give it
  by_cases hmade : ∃ n v, c.Makes n h v
  · obtain ⟨n, v, hv⟩ := hmade
    exact same_of_makes hpure hv P B B'
  have habsent : ∀ {l}, c.Backs l → l.queue.item? h = none := by
    intro l B
    cases hitem : l.queue.item? h with
    | none => rfl
    | some item =>
      obtain ⟨hmem, rfl⟩ := Queue.mem_of_item? hitem
      obtain ⟨n, hn⟩ := B item hmem
      exact absurd ⟨n, item.value, hn⟩ hmade
  obtain ⟨entry, hentry⟩ := P.exists_entry
  have hplay := same_play hask P hbusy (Rest.start hpure hentry) B B'
  rw [ask, ask]
  simp only [hentry, if_neg hbusy, habsent B, habsent B']
  generalize entry.recipe.play c (fun other => c.ask depth (h :: busy) other) l = x at *
  generalize entry.recipe.play c (fun other => c.ask depth (h :: busy) other) l' = x' at *
  obtain ⟨answer, k⟩ := x
  obtain ⟨answer', k'⟩ := x'
  obtain ⟨hanswer, hleft, hright, hvalue⟩ := hplay
  obtain rfl : answer = answer' := hanswer
  cases answer with
  | error cause => exact same_error hleft hright cause
  | ok value =>
    obtain ⟨n, hn⟩ := hvalue value rfl
    exact absurd ⟨n + 1, value, entry, getElem?_of_alive hentry, hn⟩ hmade

/-- A value that is under way is refused. -/
theorem ask_of_mem {entry : Entry ω V} {busy : List Handle} (hentry : c.entry? h = some entry)
    (hbusy : h ∈ busy) (depth : Nat) (l : Lru ω V) :
    c.ask depth busy h l = (.error (.problem (.reentrant entry.number)), l) := by
  rw [ask.eq_def]
  simp only [hentry, if_pos hbusy]

/-- **Two queues that hold what the recipes make give the same answer.** -/
theorem ask_agree (hpure : c.Pure) {depth : Nat} {busy : List Handle}
    (P : c.Pending depth busy h) (B : c.Backs l) (B' : c.Backs l') :
    c.Same (fun v => ∃ n, c.Makes n h v) (c.ask depth busy h l) (c.ask depth busy h l') := by
  obtain ⟨entry, hentry⟩ := P.exists_entry
  induction depth generalizing busy h l l' entry with
  | zero =>
    have hbusy : h ∈ busy := by
      by_contra hbusy
      obtain ⟨below, hbelow⟩ := P.exists_depth hbusy
      exact Nat.succ_ne_zero below hbelow.symm
    rw [ask_of_mem hentry hbusy, ask_of_mem hentry hbusy]
    exact same_error B B' _
  | succ depth ih =>
    by_cases hbusy : h ∈ busy
    · rw [ask_of_mem hentry hbusy, ask_of_mem hentry hbusy]
      exact same_error B B' _
    · refine same_ask hpure (fun d l l' P B B' => ?_) P hbusy B B'
      obtain ⟨entry, hentry⟩ := P.exists_entry
      exact ih P B B' entry hentry

end Catalogue

end Patchwork.Cache
