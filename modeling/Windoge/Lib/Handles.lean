import Mathlib

/-!
# Tables of handles

A table gives the occupant of each place a handle. Occupants come with a handle that no
present occupant has, and they go; then handles stay distinct over every run, and as long
as a place is not vacated its handle stays the same.
-/

namespace Windoge.Handles

open Function

variable {ι α : Type} [DecidableEq ι]

/-- No two places have the same handle. -/
def Distinct (table : ι → Option α) : Prop :=
  ∀ ⦃i j a⦄, table i = some a → table j = some a → i = j

/-- A change of the table: an occupant comes with a new handle, one goes, or nothing happens. -/
inductive Step : (ι → Option α) → (ι → Option α) → Prop
  | stay (table : ι → Option α) : Step table table
  | come {table : ι → Option α} {i : ι} {a : α} (hfree : table i = none)
      (hnew : ∀ j, table j ≠ some a) : Step table (Function.update table i (some a))
  | go (table : ι → Option α) (i : ι) : Step table (Function.update table i none)

variable {table table' : ι → Option α} {i : ι} {a : α}

/-- A step keeps the handles distinct. -/
theorem Step.distinct (hstep : Step table table') (h : Distinct table) : Distinct table' := by
  cases hstep with
  | stay => exact h
  | @come slot b _ hnew =>
    intro i j a hi hj
    rw [update_apply] at hi hj
    split_ifs at hi hj with hislot hjslot hjslot
    · exact hislot.trans hjslot.symm
    · exact absurd (hj.trans hi.symm) (hnew j)
    · exact absurd (hi.trans hj.symm) (hnew i)
    · exact h hi hj
  | go slot =>
    intro i j a hi hj
    rw [update_apply] at hi hj
    split_ifs at hi hj
    exact h hi hj

/-- A place that is still occupied after a step has the handle it had. -/
theorem Step.keeps (hstep : Step table table') (hi : table i = some a) (hi' : table' i ≠ none) :
    table' i = some a := by
  cases hstep with
  | stay => exact hi
  | @come slot b hfree _ =>
    have hne : i ≠ slot := by
      rintro rfl
      rw [hfree] at hi
      cases hi
    rw [update_of_ne hne, hi]
  | go slot =>
    by_cases hne : i = slot
    · subst hne
      exact absurd (update_self ..) hi'
    · rw [update_of_ne hne, hi]

end Windoge.Handles
