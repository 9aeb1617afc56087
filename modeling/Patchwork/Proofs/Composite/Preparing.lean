import Patchwork.Composite.Basic
import Patchwork.Proofs.Cache.Promises

/-!
# Preparing, part by part

Preparing a mosaic checks that this can be done, makes masks if they are to be made, and then fixes
the geometry.  What holds after the checks and the masks is all that has to be known of them.

## Main definitions

* `Composite.groundwork` — all but fixing the geometry.
* `Composite.geometryFor` — the geometry that is fixed.

## Main statements

* `Composite.prepare_eq` — preparing in two parts.
* `Composite.ensures_groundwork` — what holds after the first.
-/

namespace Patchwork

open Cache (Promise Drift Recipe Schedule)

namespace Composite

variable {σ κ : Type} [Channel κ] {format : Format}

/-- The geometry that preparing fixes. -/
def geometryFor (c : Composite) (total : Option Rect) : Geometry :=
  ⟨total.getD c.viewFrame, Pyramid.depth c.smallestSide, c.options.fillHoles⟩

/-- What preparing does before the geometry is fixed. -/
def groundwork (c : Composite) (schedule : Schedule) (total : Option Rect) :
    Making σ format κ Unit := do
  if (← Recipe.observe fun w : Workspace σ κ => c.geometry? w).isSome then
    (Outcome.invalid .preparedTwice : Outcome Unit)
  if c.sources.isEmpty then
    (Outcome.invalid .noSources : Outcome Unit)
  if total.isSome ∧ (total.getD c.viewFrame).IsEmpty then
    (Outcome.invalid (.emptyFrame (total.getD c.viewFrame)) : Outcome Unit)
  if !c.options.draft && !c.options.reuseMasks then
    c.makeMasks schedule

/-- Preparing in two parts. -/
theorem prepare_eq (c : Composite) (schedule : Schedule) (total : Option Rect) :
    (c.prepare schedule total : Making σ format κ Composite) = do
      c.groundwork schedule total
      Recipe.amend fun w => w.fix c.number (c.geometryFor total)
      return { c with viewFrame := total.getD c.viewFrame } := by
  unfold prepare groundwork
  rw [bind_assoc]
  congr 1
  funext prepared
  dsimp only
  split_ifs <;> rfl

variable {T : Promise (Value format κ)} {D : Drift (Workspace σ κ)} {Q : Workspace σ κ → Prop}
  {w : Workspace σ κ}

/-- What holds after masks were made, if they are made, holds after the first part. -/
theorem ensures_groundwork (c : Composite) (schedule : Schedule) (total : Option Rect)
    (hmake : c.options.draft = false → c.options.reuseMasks = false →
      (c.makeMasks schedule : Making σ format κ Unit).Ensures T D (fun _ => True) (fun _ => Q) w)
    (hskip : c.options.draft = true ∨ c.options.reuseMasks = true → Q w) :
    (c.groundwork schedule total : Making σ format κ Unit).Ensures T D (fun _ => True)
      (fun _ => Q) w := by
  unfold groundwork
  have hread : (Recipe.observe fun w : Workspace σ κ => c.geometry? w :
      Making σ format κ (Option Geometry)).Ensures T D (fun _ => True) (fun _ w' => w' = w) w := rfl
  apply hread.bind
  rintro prepared w' rfl
  by_cases htwice : prepared.isSome
  · rw [if_pos htwice]
    exact trivial
  rw [if_neg htwice]
  by_cases hnone : c.sources.isEmpty
  · rw [if_pos hnone]
    exact trivial
  rw [if_neg hnone]
  by_cases hframe : total.isSome ∧ (total.getD c.viewFrame).IsEmpty
  · rw [if_pos hframe]
    exact trivial
  rw [if_neg hframe]
  cases hdraft : c.options.draft with
  | true => exact hskip (.inl hdraft)
  | false =>
    cases hreuse : c.options.reuseMasks with
    | true => exact hskip (.inr hreuse)
    | false => exact hmake hdraft hreuse

end Composite

end Patchwork
