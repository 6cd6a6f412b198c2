import Mathlib

/-!
# Components of separated strings

Facts about cutting a string at a separator: the pieces and the separators between them make
up the length of the string.
-/

namespace Windoge.Components

open List

variable {α : Type}

/-- The room that pieces take when a separator precedes each of them. -/
def space (pieces : List (List α)) : ℕ := (pieces.map fun piece => piece.length + 1).sum

/-- Room for a piece and the others. -/
theorem space_cons (piece : List α) (pieces : List (List α)) :
    space (piece :: pieces) = piece.length + 1 + space pieces := by
  rw [space, map_cons, sum_cons, space]

/-- Dropping pieces saves room. -/
theorem space_filter_le (keep : List α → Bool) (pieces : List (List α)) :
    space (pieces.filter keep) ≤ space pieces := by
  induction pieces with
  | nil => exact Nat.le_refl _
  | cons piece pieces ih =>
    rw [filter_cons, space_cons]
    split_ifs
    · rw [space_cons]
      omega
    · omega

/-- Cutting pieces short saves room. -/
theorem space_take_le (length : ℕ) (pieces : List (List α)) :
    space (pieces.map (List.take length)) ≤ space pieces := by
  induction pieces with
  | nil => exact Nat.le_refl _
  | cons piece pieces ih =>
    rw [map_cons, space_cons, space_cons, length_take]
    omega

/-- The pieces of a string take its length and one more separator. -/
theorem space_splitOn [BEq α] (separator : α) (string : List α) :
    space (string.splitOn separator) = string.length + 1 := by
  unfold splitOn
  induction string with
  | nil => rfl
  | cons x string ih =>
    rw [splitOnP_cons_eq_if_modifyHead]
    split_ifs
    · rw [space_cons, ih, length_nil, length_cons]
      omega
    cases hsplit : splitOnP (· == separator) string with
    | nil => exact absurd hsplit (splitOnP_ne_nil _ _)
    | cons piece pieces =>
      rw [hsplit, space_cons] at ih
      rw [modifyHead_cons, space_cons, length_cons, length_cons]
      omega

/-- The pieces of a string do not contain the separator. -/
theorem not_mem_of_mem_splitOn [BEq α] [LawfulBEq α] {separator : α} {string piece : List α}
    (h : piece ∈ string.splitOn separator) : separator ∉ piece := by
  induction string generalizing piece with
  | nil =>
    obtain rfl := mem_singleton.mp h
    exact not_mem_nil
  | cons x string ih =>
    rw [splitOn_cons_eq_if_modifyHead] at h
    split_ifs at h with hx
    · rcases mem_cons.mp h with rfl | hpiece
      · exact not_mem_nil
      · exact ih hpiece
    cases hsplit : string.splitOn separator with
    | nil => exact absurd hsplit (splitOn_ne_nil _ _)
    | cons first rest =>
      rw [hsplit] at h ih
      rcases mem_cons.mp h with rfl | hpiece
      · rintro (_ | ⟨_, hmem⟩)
        · exact hx (beq_self_eq_true _)
        · exact ih mem_cons_self hmem
      · exact ih (mem_cons_of_mem _ hpiece)

end Windoge.Components
