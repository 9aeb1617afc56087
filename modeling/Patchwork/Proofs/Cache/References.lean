import Mathlib.Data.List.Count
import Patchwork.Proofs.Cache.Purity
import Patchwork.Proofs.Cache.Requests

/-!
# Who refers to a value

A value lives as long as somebody refers to it: the user, or the recipe of a value that lives.  The
number of references that is kept for a value never falls below the number of those that the user
owns and that living values hold, through any run in which the user parts only with references that
he owns.  So a value that is asked for finds all that it may need, whatever the graph of the values
looks like: recipes may be handed references after they were registered, and thus ask for one
another in a circle.

## Main definitions

* `Dealing` — what a user does: a request, or handing a reference to a recipe.
* `Catalogue.settle`, `Catalogue.owned` — the registered values and the user's references after it.
* `Catalogue.Lawful` — a run in which the user parts only with what he owns.
* `Catalogue.Counted` — no reference goes uncounted.

## Main statements

* `Catalogue.Counted.settle` — a dealing keeps this.
* `Catalogue.Counted.supports` — what a value may need is referred to.
-/

namespace Patchwork.Cache

variable {ω V : Type}

/-- What a user of a cache does. -/
inductive Dealing (ω V : Type) where
  /-- Make a request. -/
  | request (request : Request ω V)
  /-- Hand the recipe of a registered value a new reference to another one. -/
  | lend (owner handle : Handle)

/-- The size a dealing declares. -/
def Dealing.size : Dealing ω V → Nat
  | .request r => r.size
  | .lend _ _ => 0

namespace Catalogue

/-! ## The registered values during a run -/

/-- Let the recipe of a value hold a reference. -/
def hold (c : Catalogue ω V) (owner h : Handle) : Catalogue ω V :=
  c.modify owner.index fun e => { e with holds := h :: e.holds }

/-- Refer to each of the handles once more. -/
def retainAll (c : Catalogue ω V) (handles : List Handle) : Catalogue ω V :=
  handles.foldl (fun c h => c.recount h (· + 1)) c

/-- Give up one reference to each of the handles, and those held by values that are gone then. -/
def releaseWithin (c : Catalogue ω V) : Nat → List Handle → Catalogue ω V
  | 0, _ => c
  | _, [] => c
  | total + 1, h :: rest =>
    match c.entry? h with
    | none => c.releaseWithin total rest
    | some entry =>
      let c := c.recount h (· - 1)
      if entry.references = 1 then c.releaseWithin total (entry.holds ++ rest)
      else c.releaseWithin total rest

/-- The registered values after a dealing. -/
def settle (c : Catalogue ω V) : Dealing ω V → Catalogue ω V
  | .request (.insert size recipe holds) =>
    (c.retainAll holds).push ⟨0, c.size, size, recipe, holds, 1⟩
  | .request (.retain h) => c.recount h (· + 1)
  | .request (.release h) =>
    c.releaseWithin (c.foldl (fun total entry => total + entry.references) 1) [h]
  | .request _ => c
  | .lend owner h => (c.recount h (· + 1)).hold owner h

/-- The references that the user owns after a dealing. -/
def owned (c : Catalogue ω V) (own : List Handle) : Dealing ω V → List Handle
  | .request (.insert _ _ _) => ⟨c.size⟩ :: own
  | .request (.retain h) => h :: own
  | .request (.release h) => own.erase h
  | _ => own

/-- The value, and all that it may need, holds references to what its recipe may ask for. -/
def Settled (entries : Catalogue ω V) (h : Handle) : Prop :=
  ∀ g, Relation.ReflTransGen entries.Needs h g → ∀ entry, entries[g.index]? = some entry →
    ∀ d, entry.recipe.Asks d → d ∈ entry.holds

/-- What a user may do who owns some references. -/
def Allows (c : Catalogue ω V) (own : List Handle) : Dealing ω V → Prop
  | .request (.insert _ recipe holds) => recipe.Pure ∧ ∀ h ∈ holds, h ∈ own
  | .request (.access h) => h ∈ own ∧ c.Settled h
  | .request (.retain h) => h ∈ own
  | .request (.release h) => h ∈ own
  | .lend _ h => h ∈ own
  | _ => True

/-- The user registers pure recipes, and deals only with references that he owns. -/
def Lawful (c : Catalogue ω V) (own : List Handle) : List (Dealing ω V) → Prop
  | [] => True
  | dealing :: rest => c.Allows own dealing ∧ (c.settle dealing).Lawful (c.owned own dealing) rest

/-! ## Counting -/

/-- How often a living value holds a reference to another. -/
def claims (d : Handle) (e : Entry ω V) : Nat := if 0 < e.references then e.holds.count d else 0

/-- The references that living values hold to a value. -/
def claimed (c : Catalogue ω V) (d : Handle) : Nat := (c.toList.map (claims d)).sum

/-- The number of references kept for a value. -/
def references (entries : Catalogue ω V) (d : Handle) : Nat :=
  (entries[d.index]?).elim 0 (·.references)

/-- No reference of the user or of a living value goes uncounted. -/
def Counted (c : Catalogue ω V) (own : List Handle) : Prop :=
  ∀ d, own.count d + c.claimed d ≤ c.references d

variable {c : Catalogue ω V} {own : List Handle} {h d owner : Handle} {entry : Entry ω V}

/-- Changing one part of a list changes the sum by as much. -/
theorem sum_map_modify {α : Type} (part : α → Nat) (change : α → α) {l : List α} {i : Nat} {a : α}
    (ha : l[i]? = some a) :
    ((l.modify i change).map part).sum + part a = (l.map part).sum + part (change a) := by
  induction l generalizing i with
  | nil => simp at ha
  | cons b l ih =>
    cases i with
    | zero =>
      obtain rfl : b = a := by simpa using ha
      simp only [List.modify_zero_cons, List.map_cons, List.sum_cons]
      omega
    | succ i =>
      have hrest := ih (i := i) (by simpa using ha)
      simp only [List.modify_succ_cons, List.map_cons, List.sum_cons]
      omega

@[simp] theorem size_retainAll (c : Catalogue ω V) (handles : List Handle) :
    (c.retainAll handles).size = c.size := by
  induction handles generalizing c with
  | nil => rfl
  | cons h rest ih => exact (ih (c.recount h (· + 1))).trans (size_recount c h _)

theorem getElem?_recount (entries : Catalogue ω V) (h : Handle) (change : Nat → Nat) (i : Nat) :
    (entries.recount h change)[i]? =
      if h.index = i then entries[i]?.map fun e => { e with references := change e.references }
      else entries[i]? := by
  rw [recount, Array.getElem?_modify]

theorem entry?_isSome_iff {entries : Catalogue ω V} :
    (entries.entry? h).isSome ↔ 0 < entries.references h := by
  rw [Catalogue.entry?, references]
  cases entries[h.index]? with
  | none => simp
  | some e => simp [Option.isSome_filter]

theorem settled_of_holds (hholds : ∀ entry ∈ c, ∀ d, entry.recipe.Asks d → d ∈ entry.holds)
    (h : Handle) : c.Settled h :=
  fun _ _ entry hat => hholds entry (Array.mem_of_getElem? hat)

theorem references_of_alive (hentry : c.entry? h = some entry) :
    c.references h = entry.references := by
  rw [references, getElem?_of_alive hentry, Option.elim_some]

theorem claims_of_alive (hentry : c.entry? h = some entry) :
    claims d entry = entry.holds.count d := by
  rw [claims, if_pos (references_pos hentry)]

/-- Counting one value anew changes its number of references, and its claims with it. -/
theorem references_recount (hentry : c.entry? h = some entry) (change : Nat → Nat) (d : Handle) :
    (c.recount h change).references d =
      if d = h then change entry.references else c.references d := by
  obtain ⟨i⟩ := h
  obtain ⟨j⟩ := d
  have hat := getElem?_of_alive hentry
  by_cases heq : i = j
  · subst heq
    simp [references, getElem?_recount, hat]
  · simp [references, getElem?_recount, heq, Ne.symm heq]

theorem claimed_recount (hentry : c.entry? h = some entry) (change : Nat → Nat) (d : Handle) :
    (c.recount h change).claimed d + entry.holds.count d =
      c.claimed d + if 0 < change entry.references then entry.holds.count d else 0 := by
  have hat : c.toList[h.index]? = some entry := by
    rw [Array.getElem?_toList]
    exact getElem?_of_alive hentry
  have hsum := sum_map_modify (claims d)
    (fun e => { e with references := change e.references }) hat
  rw [claims_of_alive hentry] at hsum
  rw [claimed, claimed, recount, Array.toList_modify]
  exact hsum

theorem claims_le_claimed {entries : Catalogue ω V} (hat : entries[h.index]? = some entry)
    (d : Handle) : claims d entry ≤ entries.claimed d :=
  List.single_le_sum (fun _ _ => Nat.zero_le _) _
    (List.mem_map_of_mem (Array.mem_toList_iff.mpr (Array.mem_of_getElem? hat)))

/-- Taking over a reference leaves the numbers of references as they are. -/
@[simp] theorem references_hold (entries : Catalogue ω V) (owner h d : Handle) :
    (entries.hold owner h).references d = entries.references d := by
  rw [references, references, Catalogue.hold, Array.getElem?_modify]
  split
  · cases entries[d.index]? <;> rfl
  · rfl

/-- Taking over a reference adds one claim at most. -/
theorem claimed_hold_le (entries : Catalogue ω V) (owner h d : Handle) :
    (entries.hold owner h).claimed d ≤ entries.claimed d + if h == d then 1 else 0 := by
  rw [claimed, claimed, Catalogue.hold, Array.toList_modify]
  cases hat : entries.toList[owner.index]? with
  | none =>
    rw [List.modify_eq_self (List.getElem?_eq_none_iff.mp hat)]
    exact Nat.le_add_right _ _
  | some e =>
    have hsum := sum_map_modify (claims d) (fun e => { e with holds := h :: e.holds }) hat
    have hclaims : claims d { e with holds := h :: e.holds } ≤
        claims d e + if h == d then 1 else 0 := by
      simp only [claims, List.count_cons]
      split <;> omega
    omega

namespace Counted

/-- Fewer references are counted as well. -/
theorem mono (C : c.Counted own) {fewer : List Handle} (hsub : ∀ d, fewer.count d ≤ own.count d) :
    c.Counted fewer :=
  fun d => Nat.le_trans (Nat.add_le_add_right (hsub d) _) (C d)

theorem nil : Catalogue.Counted (#[] : Catalogue ω V) [] := fun _ => Nat.le_refl 0

/-- The user's references are counted, so the value lives. -/
theorem alive_of_mem (C : c.Counted own) (hh : h ∈ own) : (c.entry? h).isSome := by
  have := C h
  have := List.count_pos_iff.mpr hh
  exact entry?_isSome_iff.mpr (by omega)

/-- What a living value holds a reference to lives. -/
theorem alive_of_holds (C : c.Counted own) (hentry : c.entry? h = some entry)
    (hd : d ∈ entry.holds) : (c.entry? d).isSome := by
  have := C d
  have := claims_le_claimed (getElem?_of_alive hentry) d
  have hpos := List.count_pos_iff.mpr hd
  rw [← claims_of_alive hentry] at hpos
  exact entry?_isSome_iff.mpr (by omega)

/-- **What a value may need is referred to**, when the value is, and all of them hold references to
what their recipes ask for. -/
theorem supports (C : c.Counted own) (hsettled : c.Settled h) (hh : (c.entry? h).isSome) :
    c.Supports h := by
  intro g hg
  induction hg with
  | refl => exact hh
  | tail hpath hneeds ih =>
    obtain ⟨entry, hentry⟩ := Option.isSome_iff_exists.mp ih
    obtain ⟨entry', hat, hasks⟩ := hneeds
    obtain rfl : entry = entry' :=
      Option.some.inj ((getElem?_of_alive hentry).symm.trans hat)
    exact C.alive_of_holds hentry (hsettled _ hpath entry hat _ hasks)

/-- Referring once more to a living value. -/
theorem retain (C : c.Counted own) (hh : (c.entry? h).isSome) :
    (c.recount h (· + 1)).Counted (h :: own) := by
  obtain ⟨entry, hentry⟩ := Option.isSome_iff_exists.mp hh
  intro d
  have hcount := C d
  have hclaimed := claimed_recount hentry (· + 1) d
  rw [if_pos (Nat.succ_pos _)] at hclaimed
  rw [references_recount hentry, List.count_cons]
  by_cases heq : d = h
  · subst heq
    have := references_of_alive hentry
    simp only [if_pos, beq_self_eq_true]
    omega
  · have hne : (h == d) = false := by simpa using Ne.symm heq
    simp only [heq, hne, if_false, Bool.false_eq_true]
    omega

/-- Living values stay when others are referred to once more. -/
theorem retainAll (C : c.Counted own) {handles : List Handle}
    (hhandles : ∀ h ∈ handles, h ∈ own) : (c.retainAll handles).Counted (handles ++ own) := by
  induction handles generalizing c own with
  | nil => exact C
  | cons h rest ih =>
    obtain ⟨hh, hrest⟩ := List.forall_mem_cons.mp hhandles
    have C' := ih (C.retain (C.alive_of_mem hh)) fun g hg => List.mem_cons_of_mem h (hrest g hg)
    exact C'.mono fun d => (List.perm_middle.count_eq d).ge

/-- Giving up a reference. -/
theorem release (C : c.Counted (h :: own)) (hentry : c.entry? h = some entry) :
    (c.recount h (· - 1)).Counted
      (if entry.references = 1 then entry.holds ++ own else own) := by
  have hpos := references_pos hentry
  intro d
  have hcount := C d
  have hclaimed := claimed_recount hentry (· - 1) d
  have hrefs := references_of_alive hentry
  rw [List.count_cons] at hcount
  have hown : own.count d + c.claimed d ≤ (c.recount h (· - 1)).references d := by
    rw [references_recount hentry]
    by_cases heq : d = h
    · subst heq
      simp only [beq_self_eq_true, if_true] at hcount ⊢
      omega
    · rw [if_neg heq]
      omega
  -- the last reference gone, the value's own claims become references that the user gives up next
  by_cases hlast : entry.references = 1
  · rw [if_pos hlast, List.count_append]
    rw [hlast] at hclaimed
    simp only [Nat.sub_self, Nat.lt_irrefl, if_false] at hclaimed
    omega
  · rw [if_neg hlast]
    rw [if_pos (by omega)] at hclaimed
    omega

theorem releaseWithin (total : Nat) {handles : List Handle} (C : c.Counted (handles ++ own)) :
    (c.releaseWithin total handles).Counted own := by
  induction total generalizing c handles with
  | zero => exact C.mono fun d => List.Sublist.count_le d (List.sublist_append_right _ _)
  | succ total ih =>
    cases handles with
    | nil => exact C
    | cons h rest =>
      rw [Catalogue.releaseWithin]
      cases hentry : c.entry? h with
      | none => exact ih (C.mono fun d => List.Sublist.count_le d (List.sublist_cons_self _ _))
      | some entry =>
        have C' := C.release hentry
        by_cases hlast : entry.references = 1
        · simp only [if_pos hlast] at C' ⊢
          exact ih (List.append_assoc _ _ _ ▸ C')
        · simp only [if_neg hlast] at C' ⊢
          exact ih C'

/-- A newcomer takes over the references handed to its recipe. -/
theorem push {e : Entry ω V} (C : c.Counted (e.holds ++ own)) (hrefs : e.references = 1) :
    Catalogue.Counted (c.push e) (⟨c.size⟩ :: own) := by
  intro d
  have hcount := C d
  have hclaimed : Catalogue.claimed (c.push e) d = c.claimed d + e.holds.count d := by
    simp [claimed, claims, hrefs]
  rw [List.count_append] at hcount
  rw [hclaimed, List.count_cons]
  by_cases heq : d = ⟨c.size⟩
  · have hnone : c.references d = 0 := by simp [references, heq]
    have hone : Catalogue.references (c.push e) d = 1 := by simp [references, heq, hrefs]
    subst heq
    simp only [beq_self_eq_true, if_true]
    omega
  · have hindex : d.index ≠ c.size := fun h => heq (congrArg Handle.mk h)
    have hsame : Catalogue.references (c.push e) d = c.references d := by
      simp [references, Array.getElem?_push, hindex]
    have hne : ((⟨c.size⟩ : Handle) == d) = false := by simpa using Ne.symm heq
    simp only [hne, if_false, Bool.false_eq_true]
    omega

/-- A recipe takes over a reference handed to it. -/
theorem hold (C : c.Counted (h :: own)) (owner : Handle) : (c.hold owner h).Counted own := by
  intro d
  have hcount := C d
  have hclaimed := claimed_hold_le c owner h d
  rw [List.count_cons] at hcount
  rw [references_hold]
  omega

/-- **A dealing keeps the count.** -/
theorem settle (C : c.Counted own) {dealing : Dealing ω V} (hallows : c.Allows own dealing) :
    (c.settle dealing).Counted (c.owned own dealing) := by
  cases dealing with
  | lend owner h => exact (C.retain (C.alive_of_mem hallows)).hold owner
  | request request =>
    cases request with
    | insert size recipe holds =>
      have C' := push (e := ⟨0, c.size, size, recipe, holds, 1⟩) (C.retainAll hallows.2) rfl
      rwa [size_retainAll] at C'
    | retain h => exact C.retain (C.alive_of_mem hallows)
    | release h =>
      apply releaseWithin
      exact C.mono fun d => ((List.perm_cons_erase hallows).count_eq d).ge
    | access | demote | clear | amend => exact C

end Counted

end Catalogue

end Patchwork.Cache
