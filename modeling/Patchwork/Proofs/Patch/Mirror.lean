import Patchwork.Patch.Basic
import Patchwork.Proofs.Mirror

/-!
# Patches of fixed images

A blend of sources whose bands and coverages have fixed outcomes shows the blend of these outcomes,
in whatever monad the sources are asked.

## Main statements

* `Patch.shows_blend` — a blend of fixed images.
-/

namespace Patchwork

open Outcome

variable {m : Type → Type} [Monad m] [MonadLiftT Outcome m] {κ : Type} {format : Format}

/-- A source of a patch shows another one with plain outcomes. -/
structure PatchSource.Shown (M : Mirror m) (print : PatchSource Outcome format κ)
    (source : PatchSource m format κ) : Prop where
  /-- They lie at the same place. -/
  placement : source.placement = print.placement
  /-- It shows the bands. -/
  pyramid : M.Shows Eq print.pyramid source.pyramid
  /-- It shows the coverage. -/
  alpha : M.Shows Eq print.alpha source.alpha

/-- The flag is the same, too. -/
def PatchSource.ShownAsIs (M : Mirror m) (print : PatchSource Outcome format κ)
    (source : PatchSource m format κ) : Prop :=
  print.Shown M source ∧ source.resident = print.resident

namespace Patch

variable {M : Mirror m} {prints : List (PatchSource Outcome format κ)}
  {sources : List (PatchSource m format κ)}

/-- The same sources are selected. -/
theorem alike_near (h : List.Forall₂ (PatchSource.ShownAsIs M) prints sources) (target : Rect) :
    Alike (List.Forall₂ (PatchSource.ShownAsIs M)) (near prints target) (near sources target) := by
  induction h with
  | nil => exact .nil
  | @cons print source prints sources hsource _ ih =>
    rw [near, near, List.filterMapM_cons, List.filterMapM_cons, hsource.1.placement]
    cases print.placement.intersects target with
    | error cause => exact trivial
    | ok meets =>
      cases meets with
      | false => exact ih
      | true => exact ih.bind fun _ _ hrest => .cons hsource hrest

theorem forall₂_residentFirst (h : List.Forall₂ (PatchSource.ShownAsIs M) prints sources) :
    List.Forall₂ (PatchSource.ShownAsIs M) (residentFirst prints) (residentFirst sources) := by
  refine List.rel_append (List.rel_filter ?_ h) (List.rel_filter ?_ h)
  · rintro print source ⟨-, hresident⟩
    simp only [hresident]
  · rintro print source ⟨-, hresident⟩
    simp only [hresident]

variable [Channel κ] {area : Rect} {params : PatchParams}

theorem shows_raiseBySource {print : PatchSource Outcome format κ} {source : PatchSource m format κ}
    (h : print.Shown M source) (area : Rect) (highest : Raster κ) :
    M.Shows Eq (raiseBySource area highest print) (raiseBySource area highest source) := by
  unfold raiseBySource
  rw [h.placement]
  refine M.bind_lift fun meets => ?_
  split
  · exact M.pure rfl
  · exact M.bind_eq h.alpha fun alpha => M.bind_lift fun overlap => M.pure rfl

/-- **A blend of fixed images** shows the blend of their outcomes. -/
theorem shows_blend (h : List.Forall₂ (PatchSource.ShownAsIs M) prints sources) :
    M.Shows Eq (blend area params prints) (blend area params sources) := by
  unfold blend
  refine M.bind_lift fun frames => M.bind_lift fun padded =>
    M.bind (M.lift (alike_near h padded)) fun touching touching' htouching => ?_
  have hselected := forall₂_residentFirst htouching
  refine M.bind_lift fun blanks => M.bind_eq ?_ fun layers => M.bind_lift fun mixed => ?_
  · refine M.foldlM hselected rfl ?_
    rintro print source layers _ hsource rfl
    exact M.bind_eq hsource.1.pyramid fun pyramid => M.lift (Alike.refl _)
  · split
    · exact M.pure rfl
    · refine M.bind_lift fun nothing => M.bind_eq ?_ fun highest => M.pure rfl
      refine M.foldlM hselected rfl ?_
      rintro print source highest _ hsource rfl
      exact shows_raiseBySource hsource.1 area highest

end Patch

end Patchwork
