import Patchwork.Cache.Store

/-!
# What stands on a shelf

Putting a value on a shelf and taking values off changes the values and nothing else; accounting
changes the ledgers and nothing else.  A value that is registered has the next number.
-/

namespace Patchwork.Cache

variable {ω V : Type}

namespace Shelf

@[simp] theorem ledgers_setValue (s : Shelf ω V) (h : Handle) (value : Option V) :
    (s.setValue h value).ledgers = s.ledgers := rfl

@[simp] theorem size_setValue (s : Shelf ω V) (h : Handle) (value : Option V) :
    (s.setValue h value).values.size = s.values.size := Array.size_setIfInBounds

@[simp] theorem values_account (s : Shelf ω V) (cache : Nat) (change : Ledger → Ledger) :
    (s.account cache change).values = s.values := rfl

@[simp] theorem value?_account (s : Shelf ω V) (cache : Nat) (change : Ledger → Ledger)
    (h : Handle) : (s.account cache change).value? h = s.value? h := rfl

theorem value?_setValue (s : Shelf ω V) (h g : Handle) (value : Option V) :
    (s.setValue h value).value? g =
      if g = h ∧ h.index < s.values.size then value else s.value? g := by
  obtain ⟨h⟩ := h
  obtain ⟨g⟩ := g
  simp only [Shelf.value?, Shelf.setValue, Array.getElem?_setIfInBounds, Handle.mk.injEq]
  by_cases heq : h = g
  · subst heq
    by_cases hin : h < s.values.size
    · simp [hin]
    · simp [hin]
  · simp [heq, Ne.symm heq]

/-- A value taken off is not at hand. -/
theorem value?_setValue_none (s : Shelf ω V) (h g : Handle) :
    (s.setValue h none).value? g = if g = h then none else s.value? g := by
  rw [value?_setValue]
  by_cases heq : g = h
  · subst heq
    by_cases hin : g.index < s.values.size
    · simp [hin]
    · simp [hin, Shelf.value?]
  · simp [heq]

@[simp] theorem world_evict (s : Shelf ω V) (handles : List Handle) :
    (s.evict handles).world = s.world := by
  induction handles generalizing s with
  | nil => rfl
  | cons h rest ih => exact ih (s.setValue h none)

@[simp] theorem ledgers_evict (s : Shelf ω V) (handles : List Handle) :
    (s.evict handles).ledgers = s.ledgers := by
  induction handles generalizing s with
  | nil => rfl
  | cons h rest ih => exact ih (s.setValue h none)

@[simp] theorem size_evict (s : Shelf ω V) (handles : List Handle) :
    (s.evict handles).values.size = s.values.size := by
  induction handles generalizing s with
  | nil => rfl
  | cons h rest ih => exact (ih (s.setValue h none)).trans (size_setValue s h none)

/-- The values taken off are not at hand; the others stay. -/
theorem value?_evict (s : Shelf ω V) (handles : List Handle) (g : Handle) :
    (s.evict handles).value? g = if g ∈ handles then none else s.value? g := by
  induction handles generalizing s with
  | nil => simp [Shelf.evict]
  | cons h rest ih =>
    rw [show s.evict (h :: rest) = (s.setValue h none).evict rest from rfl, ih,
      value?_setValue_none]
    by_cases hrest : g ∈ rest
    · simp [hrest]
    · simp [hrest]

end Shelf

namespace Store

theorem size_retain_all (s : Store ω V) (holds : List Handle) :
    (holds.foldl retain s).catalogue.size = s.catalogue.size := by
  induction holds generalizing s with
  | nil => rfl
  | cons g rest ih => exact (ih (s.retain g)).trans Array.size_modify

theorem shelf_retain_all (s : Store ω V) (holds : List Handle) :
    (holds.foldl retain s).shelf = s.shelf := by
  induction holds generalizing s with
  | nil => rfl
  | cons g rest ih => exact ih (s.retain g)

variable (s : Store ω V) (cache size : Nat) (recipe : Recipe ω V V) (holds : List Handle)

theorem handle_insert : (s.insert cache size recipe holds).1 = ⟨s.catalogue.size⟩ :=
  congrArg Handle.mk (s.size_retain_all holds)

theorem size_insert :
    (s.insert cache size recipe holds).2.catalogue.size = s.catalogue.size + 1 := by
  rw [insert, Array.size_push, size_retain_all]

theorem world_insert : (s.insert cache size recipe holds).2.world = s.world := by
  simp only [insert, world, shelf_retain_all]

end Store

end Patchwork.Cache
