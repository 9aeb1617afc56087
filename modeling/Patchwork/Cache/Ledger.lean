import Patchwork.Cache.Recipe

/-!
# The ledger of a cache

A `Ledger` accounts for the values a cache keeps at hand.  Each resident carries a stamp: a use
stamps it later than everything so far, and a demotion earlier than everything so far.  When the
declared sizes exceed the budget, residents leave in the order of their stamps, except the one just
admitted, which stays even if it alone exceeds the budget.

The total is kept as a running sum.  An admission that would take the sum past a machine word is
undefined, and leaves the newcomer entered but not counted.  The stamps and the counters are numbers
without bounds instead: as words of 64 bits they would last for 2^63 requests.

## Main definitions

* `Resident`, `Ledger` — who is at hand, and the counters.
* `Ledger.touch`, `Ledger.demote`, `Ledger.forget` — a use, a demotion, a departure.
* `Ledger.shed` — who must leave for the total to fit the budget.
* `Ledger.enroll` — a newcomer, and who leaves for it.
-/

namespace Patchwork.Cache

/-- A value at hand. -/
structure Resident where
  /-- Which value. -/
  handle : Handle
  /-- Its declared size. -/
  size : Nat
  /-- Its place in the order of departure. -/
  stamp : Int
  deriving DecidableEq

/-- What a cache knows of the values it keeps.  Its stamps and its counters do not overflow. -/
structure Ledger where
  /-- Largest total size. -/
  budget : Nat
  /-- Running total of the declared sizes. -/
  residentBytes : Nat
  /-- Latest stamp given out. -/
  newest : Int
  /-- Earliest stamp given out. -/
  lowest : Int
  /-- The values at hand. -/
  residents : List Resident
  /-- Requests met without making the value. -/
  hits : Nat
  /-- Values made. -/
  generations : Nat
  /-- Values dropped to fit the budget or by clearing. -/
  evictions : Nat

namespace Ledger

/-- A cache without values. -/
def empty (budget : Nat) : Ledger := ⟨budget, 0, 0, 0, [], 0, 0, 0⟩

/-- The default budget in bytes. -/
def defaultBudget : Nat := 536870912

/-- The entry of a value at hand. -/
def find? (l : Ledger) (h : Handle) : Option Resident := l.residents.find? (·.handle = h)

/-- Put a resident before the first that has no earlier stamp. -/
def place (r : Resident) : List Resident → List Resident
  | [] => [r]
  | s :: queue => if r.stamp ≤ s.stamp then r :: s :: queue else s :: place r queue

/-- The values at hand, the first to leave first. -/
def order (l : Ledger) : List Resident := l.residents.foldr place []

/-- Give one resident another stamp. -/
def restamp (l : Ledger) (h : Handle) (stamp : Int) : Ledger :=
  { l with residents := l.residents.map fun r => if r.handle = h then { r with stamp } else r }

/-- Note a use: the value leaves last. -/
def touch (l : Ledger) (h : Handle) : Ledger :=
  { l with newest := l.newest + 1 }.restamp h (l.newest + 1)

/-- Note a use that met a value at hand. -/
def hit (l : Ledger) (h : Handle) : Ledger :=
  let l := l.touch h
  { l with hits := l.hits + 1 }

/-- Mark a value as the first to leave. -/
def demote (l : Ledger) (h : Handle) : Ledger :=
  { l with lowest := l.lowest - 1 }.restamp h (l.lowest - 1)

/-- Strike a value off. -/
def forget (l : Ledger) (h : Handle) : Ledger :=
  match l.find? h with
  | none => l
  | some r =>
    { l with
      residents := l.residents.filter (·.handle ≠ h)
      residentBytes := l.residentBytes - r.size }

/-- Enter a value as the last to leave. -/
def enter (l : Ledger) (h : Handle) (size : Nat) : Ledger :=
  { l with
    newest := l.newest + 1
    residents := l.residents ++ [⟨h, size, l.newest + 1⟩] }

/-- Those at the front of a queue that must leave until `total` fits the budget, and what is left of
the total. -/
def shed (budget : Nat) : Nat → List Resident → List Resident × Nat
  | total, [] => ([], total)
  | total, r :: queue =>
    if budget < total then
      let (leaving, left) := shed budget (total - r.size) queue
      (r :: leaving, left)
    else ([], total)

/-- Enroll a value just made.  Gives the values that leave for it, or `none` when the total exceeds
a machine word. -/
def enroll (l : Ledger) (h : Handle) (size : Nat) : Option (List Handle) × Ledger :=
  let l := (l.forget h).enter h size
  let total := l.residentBytes + size
  if wordMax < total then (none, l)
  else
    let (leaving, left) := shed l.budget total (l.order.filter (·.handle ≠ h))
    let handles := leaving.map (·.handle)
    (some handles,
      { l with
        residents := l.residents.filter fun r => r.handle ∉ handles
        residentBytes := left
        evictions := l.evictions + handles.length })

/-- Note that a value was made. -/
def generated (l : Ledger) : Ledger := { l with generations := l.generations + 1 }

/-- Strike all values off. -/
def clear (l : Ledger) : Ledger :=
  { l with
    residents := []
    residentBytes := 0
    evictions := l.evictions + l.residents.length }

/-- The long form of the counters in messages. -/
def describe (l : Ledger) : String :=
  s!"GenerationCache \x7b stats: CacheStats \x7b budget_bytes: {l.budget}, " ++
    s!"resident_bytes: {l.residentBytes}, resident_entries: {l.residents.length}, " ++
    s!"hits: {l.hits}, generations: {l.generations}, evictions: {l.evictions} \x7d \x7d"

end Ledger

end Patchwork.Cache
