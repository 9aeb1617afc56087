import Patchwork.Cache.Ledger

/-!
# A store of values made on request

A `Store` keeps the recipes of all registered values and, on its `Shelf`, the values at hand, the
ledger of every cache and the world that recipes see.  Asking for a value at hand is a hit; asking
for another runs its recipe, which may ask for further values, and puts the result on the shelf.  A
value that is asked for while it is being made is refused, so circular recipes end.

Values live as long as they are referred to, from outside or from the recipe of a living value.
When a cache is gone its values stay usable, but nothing counts or evicts them any more.

Running a recipe never registers or releases a value, so the catalogue is fixed during a run and
only the shelf changes.

## Main definitions

* `Entry`, `Catalogue` — the registered recipes.
* `Shelf` — what a running recipe can change.
* `Recipe.run`, `Catalogue.visit` — running a recipe, asking for a value.
* `Store` with `insert`, `perform`, `retain`, `release`, `clear`, `dropCache` — the interface.
-/

namespace Patchwork.Cache

/-- A registered value. -/
structure Entry (ω V : Type) where
  /-- The cache that accounts for it. -/
  cache : Nat
  /-- Its number within that cache. -/
  number : Nat
  /-- Its declared size. -/
  size : Nat
  /-- How it is made. -/
  recipe : Recipe ω V V
  /-- The values its recipe refers to. -/
  holds : List Handle
  /-- How many refer to it. -/
  references : Nat

/-- The registered values in the order of their handles. -/
abbrev Catalogue (ω V : Type) := Array (Entry ω V)

/-- What a running recipe can change. -/
structure Shelf (ω V : Type) where
  /-- The values at hand, by handle. -/
  values : Array (Option V)
  /-- The ledgers of the caches, `none` for a cache that is gone. -/
  ledgers : Array (Option Ledger)
  /-- The world that recipes see. -/
  world : ω

variable {ω V α : Type}

namespace Shelf

/-- The value at hand. -/
def value? (s : Shelf ω V) (h : Handle) : Option V := (s.values[h.index]?).getD none

/-- The ledger of a cache. -/
def ledger? (s : Shelf ω V) (cache : Nat) : Option Ledger := (s.ledgers[cache]?).getD none

/-- Put a value on the shelf or take it off. -/
def setValue (s : Shelf ω V) (h : Handle) (value : Option V) : Shelf ω V :=
  { s with values := s.values.setIfInBounds h.index value }

/-- Change the ledger of a cache, if the cache is there. -/
def account (s : Shelf ω V) (cache : Nat) (change : Ledger → Ledger) : Shelf ω V :=
  { s with ledgers := s.ledgers.modify cache (Option.map change) }

/-- Take values off the shelf. -/
def evict (s : Shelf ω V) (handles : List Handle) : Shelf ω V :=
  handles.foldl (fun s h => s.setValue h none) s

/-- Put a value just made on the shelf, and let others leave for it. -/
def keep (s : Shelf ω V) (h : Handle) (entry : Entry ω V) (value : V) :
    Outcome V × Shelf ω V :=
  let s := s.setValue h (some value)
  match s.ledger? entry.cache with
  | none => (.ok value, s)
  | some ledger =>
    let (leaving?, ledger) := ledger.generated.enroll h entry.size
    let s := s.account entry.cache fun _ => ledger
    match leaving? with
    | none => (.error (.fault .overflow), s)
    | some leaving => (.ok value, s.evict leaving)

end Shelf

namespace Catalogue

/-- The entry of a value that somebody refers to. -/
def entry? (entries : Catalogue ω V) (h : Handle) : Option (Entry ω V) :=
  entries[h.index]?.filter (0 < ·.references)

/-- Where a value stands. -/
def status (c : Catalogue ω V) (s : Shelf ω V) (h : Handle) : Status :=
  match c.entry? h with
  | none => .gone
  | some _ => if (s.value? h).isSome then .resident else .idle

/-- Mark a value as the first to leave. -/
def demote (c : Catalogue ω V) (s : Shelf ω V) (h : Handle) : Shelf ω V :=
  match c.entry? h with
  | none => s
  | some entry => s.account entry.cache (·.demote h)

end Catalogue

/-- Run a recipe on a shelf.  `visit` answers its requests for other values; a fault in one of these
ends the run. -/
def Recipe.run (c : Catalogue ω V) (visit : Handle → Shelf ω V → Outcome V × Shelf ω V) :
    Recipe ω V α → Shelf ω V → Outcome α × Shelf ω V
  | .done value, s => (.ok value, s)
  | .stop cause, s => (.error cause, s)
  | .access h next, s =>
    match visit h s with
    | (.ok value, s) => (next (.ok value)).run c visit s
    | (.error (.problem cause), s) => (next (.error cause)).run c visit s
    | (.error (.fault cause), s) => (.error (.fault cause), s)
  | .lower h next, s => next.run c visit (c.demote s h)
  | .inspect h next, s => (next (c.status s h)).run c visit s
  | .read next, s => (next s.world).run c visit s
  | .write change next, s => next.run c visit { s with world := change s.world }

/-- Ask for a value while the values `busy` are being made.  At most `depth` further values can be
under way below this one; the number of registered values always suffices, since no value is under
way twice. -/
def Catalogue.visit (c : Catalogue ω V) (depth : Nat) (busy : List Handle) (h : Handle)
    (s : Shelf ω V) : Outcome V × Shelf ω V :=
  match c.entry? h with
  | none => (.error (.fault .outOfBounds), s)
  | some entry =>
    if h ∈ busy then (.error (.problem (.reentrant entry.number)), s)
    else
      match s.value? h with
      | some value => (.ok value, s.account entry.cache (·.hit h))
      | none =>
        match depth with
        | 0 => (.error (.problem (.reentrant entry.number)), s)
        | depth + 1 =>
          match entry.recipe.run c (fun other => visit c depth (h :: busy) other) s with
          | (.ok value, s) => s.keep h entry value
          | (.error cause, s) => (.error cause, s)

/-- Registered values, and what is at hand. -/
structure Store (ω V : Type) where
  /-- The registered values. -/
  catalogue : Catalogue ω V
  /-- What is at hand. -/
  shelf : Shelf ω V

namespace Store

/-- A store without caches. -/
def empty (world : ω) : Store ω V := ⟨#[], ⟨#[], #[], world⟩⟩

/-- The world that recipes see. -/
def world (s : Store ω V) : ω := s.shelf.world

/-- Change the world. -/
def amend (s : Store ω V) (change : ω → ω) : Store ω V :=
  { s with shelf := { s.shelf with world := change s.shelf.world } }

/-- Start a cache; gives its number. -/
def newCache (s : Store ω V) (budget : Nat) : Nat × Store ω V :=
  (s.shelf.ledgers.size,
    { s with shelf := { s.shelf with ledgers := s.shelf.ledgers.push (some (.empty budget)) } })

/-- The counters of a cache. -/
def ledger? (s : Store ω V) (cache : Nat) : Option Ledger := s.shelf.ledger? cache

/-- Refer to a value once more. -/
def retain (s : Store ω V) (h : Handle) : Store ω V :=
  { s with
    catalogue := s.catalogue.modify h.index fun e => { e with references := e.references + 1 } }

/-- Number of references to a value. -/
def references (s : Store ω V) (h : Handle) : Nat :=
  match s.catalogue[h.index]? with
  | none => 0
  | some entry => entry.references

/-- Register a value without making it.  The caller refers to it. -/
def insert (s : Store ω V) (cache size : Nat) (recipe : Recipe ω V V) (holds : List Handle) :
    Handle × Store ω V :=
  let number := (s.catalogue.filter (·.cache == cache)).size
  let s := holds.foldl retain s
  (⟨s.catalogue.size⟩,
    { catalogue := s.catalogue.push ⟨cache, number, size, recipe, holds, 1⟩
      shelf := { s.shelf with values := s.shelf.values.push none } })

/-- Give up one reference to each of the handles.  A value that nobody refers to any more leaves the
shelf and gives up the references it holds.  `total` bounds the number of references given up. -/
def releaseWithin (s : Store ω V) : Nat → List Handle → Store ω V
  | 0, _ => s
  | _, [] => s
  | total + 1, h :: rest =>
    match s.catalogue.entry? h with
    | none => s.releaseWithin total rest
    | some entry =>
      let s := { s with
        catalogue := s.catalogue.modify h.index fun e => { e with references := e.references - 1 } }
      if entry.references = 1 then
        let s := { s with shelf := (s.shelf.setValue h none).account entry.cache (·.forget h) }
        s.releaseWithin total (entry.holds ++ rest)
      else s.releaseWithin total rest

/-- Give up one reference to each of the handles. -/
def release (s : Store ω V) (handles : List Handle) : Store ω V :=
  let total := s.catalogue.foldl (fun total entry => total + entry.references) handles.length
  s.releaseWithin total handles

/-- Run a recipe. -/
def perform (s : Store ω V) (recipe : Recipe ω V α) : Outcome α × Store ω V :=
  let (answer, shelf) :=
    recipe.run s.catalogue (s.catalogue.visit s.catalogue.size []) s.shelf
  (answer, { s with shelf })

/-- Ask for a value. -/
def access (s : Store ω V) (h : Handle) : Outcome V × Store ω V :=
  s.perform (.fetch h)

/-- Where a value stands. -/
def status (s : Store ω V) (h : Handle) : Status := s.catalogue.status s.shelf h

/-- Mark a value as the first to leave. -/
def demote (s : Store ω V) (h : Handle) : Store ω V :=
  { s with shelf := s.catalogue.demote s.shelf h }

/-- Take all values of a cache off the shelf. -/
def clear (s : Store ω V) (cache : Nat) : Store ω V :=
  match s.ledger? cache with
  | none => s
  | some ledger =>
    { s with
      shelf := (s.shelf.evict (ledger.residents.map (·.handle))).account cache Ledger.clear }

/-- End a cache.  Its values stay usable. -/
def dropCache (s : Store ω V) (cache : Nat) : Store ω V :=
  { s with shelf := { s.shelf with ledgers := s.shelf.ledgers.setIfInBounds cache none } }

/-- The long form of a value's state in messages. -/
def describe (s : Store ω V) (h : Handle) : String :=
  match s.catalogue.entry? h with
  | none => "none"
  | some entry =>
    let resident := (s.shelf.value? h).isSome
    s!"CacheHandle \x7b id: {entry.number}, size_bytes: {entry.size}, resident: {resident} \x7d"

end Store

end Patchwork.Cache
