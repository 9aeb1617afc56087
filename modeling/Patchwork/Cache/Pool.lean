import Patchwork.Cache.Recipe

/-!
# Recipes side by side

The threads of a pool work on several recipes at once, its tasks.  They take turns, in an order that
nobody can foretell.  A `Schedule` says what it is, and `Recipe.pool` is the work of all tasks under
it, again a recipe.  Whatever the number of threads, the orders they can take are among these.

A turn makes one request for a cached value, with all that has to be made for it, or goes on to the
next request.  Nothing else comes between the two ends of a turn: requests that wait for one
another's values are not told apart from requests that come one after another.

A task that is refused does not keep the others from going on.  The answer of the pool is then the
refusal of one of the tasks that were refused.  A fault ends all of them at once.

## Main definitions

* `Schedule` — the order of the turns, and whose refusal counts.
* `Recipe.turn` — one turn of a task.
* `Recipe.pool` — all tasks.
-/

namespace Patchwork.Cache

/-- How the threads of a pool deal with its tasks. -/
structure Schedule where
  /-- The tasks whose turn it is, one after another.  The first turn of a task takes it up. -/
  turns : List Nat
  /-- The task whose refusal is the answer, if it is refused in one of these turns. -/
  blamed : Nat

/-- A single thread that takes the tasks in order, up to the first refusal. -/
def Schedule.inOrder : Schedule := ⟨[], 0⟩

namespace Recipe

variable {ω V α : Type}

/-- Go on to the next request for a cached value.  The answer is what is left to do: a recipe that
begins with the request, or has come to its end. -/
def toRequest : Recipe ω V α → Recipe ω V (Recipe ω V α)
  | done value => done (done value)
  | stop (.problem cause) => done (stop (.problem cause))
  | stop (.fault cause) => stop (.fault cause)
  | access handle next => done (access handle next)
  | lower handle next => lower handle next.toRequest
  | inspect handle next => inspect handle fun status => (next status).toRequest
  | read next => read fun world => (next world).toRequest
  | write change next => write change next.toRequest

/-- One turn: make the request that is due, or go on to the next one.  The answer is what is left to
do. -/
def turn : Recipe ω V α → Recipe ω V (Recipe ω V α)
  | access handle next => access handle fun answer => done (next answer)
  | task => task.toRequest

/-- One turn of a task of the pool; there may be no such task. -/
def takeTurn (tasks : List (Recipe ω V α)) (index : Nat) : Recipe ω V (List (Recipe ω V α)) :=
  match tasks[index]? with
  | some task => do return tasks.set index (← task.turn)
  | none => return tasks

/-- Answer all tasks, or be refused as one of them is.  What the turns of the schedule leave to be
done is done in order, up to the first refusal.  A schedule may as well see every task through, so
no order of turns is excluded. -/
def pool (schedule : Schedule) (tasks : List (Recipe ω V α)) : Recipe ω V (List α) := do
  let tasks ← schedule.turns.foldlM takeTurn tasks
  match tasks[schedule.blamed]? with
  | some (stop cause) => stop cause
  | _ => tasks.mapM id

end Recipe

end Patchwork.Cache
