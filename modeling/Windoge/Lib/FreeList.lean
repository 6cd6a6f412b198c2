import Mathlib

/-!
# A list threaded through the cells it contains

A free list keeps no storage of its own: each free cell holds the address of the next
one, and a null address ends the list. `Linked next null head cells` says that following
`next` from `head` visits exactly `cells`. The relation is about finite walks, so a list
that runs into itself is linked to no list of cells at all.
-/

namespace Windoge.FreeList

variable {A : Type*}

/-- Following the links from the head visits exactly these cells and then the null address. -/
def Linked (next : A → A) (null : A) : A → List A → Prop
  | head, [] => head = null
  | head, cell :: cells => head = cell ∧ cell ≠ null ∧ Linked next null (next cell) cells

variable {next next' : A → A} {null head : A} {cells : List A}

section

variable (h : Linked next null head cells)
include h

/-- A walk depends only on the links of the cells it visits. -/
theorem Linked.congr (hnext : ∀ cell ∈ cells, next' cell = next cell) : Linked next' null head cells := by
  induction cells generalizing head with
  | nil => exact h
  | cons cell cells ih =>
    obtain ⟨hhead, hnull, hrest⟩ := h
    refine ⟨hhead, hnull, ?_⟩
    rw [hnext cell (by simp)]
    exact ih hrest fun other hother => hnext other (by simp [hother])

/-- A head has one walk. -/
theorem Linked.unique {cells' : List A} (h' : Linked next null head cells') : cells = cells' := by
  induction cells generalizing head cells' with
  | nil =>
    cases cells' with
    | nil => rfl
    | cons cell' rest => exact absurd (h'.1.symm.trans h) h'.2.1
  | cons cell rest ih =>
    cases cells' with
    | nil => exact absurd (h.1.symm.trans h') h.2.1
    | cons cell' rest' =>
      obtain rfl : cell = cell' := h.1.symm.trans h'.1
      rw [ih h.2.2 h'.2.2]

/-- A non-null head is the first cell, and the rest of the list starts at its link. -/
theorem Linked.pop (hhead : head ≠ null) : ∃ rest, cells = head :: rest ∧ Linked next null (next head) rest := by
  cases cells with
  | nil => exact absurd h hhead
  | cons cell cells =>
    obtain ⟨rfl, -, hrest⟩ := h
    exact ⟨cells, rfl, hrest⟩

/-- Storing the old head in a new cell and making that cell the head prepends it. -/
theorem Linked.push {cell : A} (hnull : cell ≠ null) (hfresh : cell ∉ cells)
    (hlink : next' cell = head) (hnext : ∀ other, other ≠ cell → next' other = next other) :
    Linked next' null cell (cell :: cells) := by
  refine ⟨rfl, hnull, ?_⟩
  rw [hlink]
  apply h.congr
  intro other hother
  apply hnext
  rintro rfl
  exact hfresh hother

end

end Windoge.FreeList
