import Windoge.Lib.Sequences

/-!
# Greedy matching against a lossy dictionary

The encoder walks a block, asks a dictionary for one earlier position, and emits a copy when
four bytes agree there. The dictionary may forget or confuse positions: the only property used
is that every position it returns was stored before. Each accepted match is compared with the
block itself, so the emitted sequences describe the block for every dictionary.
-/

namespace Windoge.Greedy

open Sequences List

/-- One earlier position for a block position, and the two ways positions are recorded. -/
structure Dictionary (τ : Type) where
  lookup : τ → ℕ → Option ℕ
  store : τ → ℕ → τ
  learn : τ → ℕ → ℕ → τ

/-- Recorded positions stay below the position the encoder has reached. -/
structure Dictionary.Bounded {τ : Type} (dict : Dictionary τ) (Below : τ → ℕ → Prop) : Prop where
  lookup : ∀ table reached index candidate, Below table reached →
    dict.lookup table index = some candidate → candidate < reached
  store : ∀ table reached, Below table reached → Below (dict.store table reached) (reached + 1)
  learn : ∀ table index matchEnd, index < matchEnd → Below table (index + 1) →
    Below (dict.learn table index matchEnd) matchEnd

/-- Bytes agree at the first four positions. -/
def agreeFour (block : List UInt8) (candidate index : ℕ) : Bool :=
  block.getD candidate 0 == block.getD index 0 &&
  block.getD (candidate + 1) 0 == block.getD (index + 1) 0 &&
  block.getD (candidate + 2) 0 == block.getD (index + 2) 0 &&
  block.getD (candidate + 3) 0 == block.getD (index + 3) 0

/-- Lengthen a match while the bytes agree and the maximum is not reached. -/
def extendMatch (block : List UInt8) (candidate index maximum : ℕ) : ℕ → ℕ → ℕ
  | 0, length => length
  | fuel + 1, length =>
    if length < maximum ∧ block.getD (candidate + length) 0 = block.getD (index + length) 0 then
      extendMatch block candidate index maximum fuel (length + 1)
    else length

variable {τ : Type} (dict : Dictionary τ) (window : ℕ) (block : List UInt8)

/-- The sequences emitted from `index` on, with unwritten literals since `anchor`. -/
def greedy : ℕ → τ → ℕ → ℕ → List Sequence
  | 0, _, anchor, _ => [⟨block.drop anchor, 0, 0⟩]
  | fuel + 1, table, anchor, index =>
    if 12 ≤ block.length ∧ index ≤ block.length - 12 then
      match dict.lookup table index with
      | none => greedy fuel (dict.store table index) anchor (index + 1)
      | some candidate =>
        if window < index - candidate ∨ agreeFour block candidate index = false then
          greedy fuel (dict.store table index) anchor (index + 1)
        else
          let length := extendMatch block candidate index (block.length - 5 - index) block.length 4
          ⟨(block.drop anchor).take (index - anchor), length, index - candidate⟩ ::
            greedy fuel (dict.learn (dict.store table index) index (index + length))
              (index + length) (index + length)
    else [⟨block.drop anchor, 0, 0⟩]

variable {window block}

/-- Extending a match keeps it below the maximum and compares every byte it adds. -/
theorem extendMatch_spec (candidate index maximum fuel length : ℕ) (hle : length ≤ maximum)
    (hagree : ∀ k < length, block.getD (candidate + k) 0 = block.getD (index + k) 0) :
    length ≤ extendMatch block candidate index maximum fuel length ∧
      extendMatch block candidate index maximum fuel length ≤ maximum ∧
      ∀ k < extendMatch block candidate index maximum fuel length,
        block.getD (candidate + k) 0 = block.getD (index + k) 0 := by
  induction fuel generalizing length with
  | zero => exact ⟨le_rfl, hle, hagree⟩
  | succ fuel ih =>
    rw [extendMatch]
    split
    · rename_i hstep
      have hnext : ∀ k < length + 1, block.getD (candidate + k) 0 = block.getD (index + k) 0 := by
        intro k hk
        rcases Nat.lt_succ_iff_lt_or_eq.mp hk with hlt | rfl
        · exact hagree k hlt
        · exact hstep.2
      obtain ⟨hlow, hhigh, hall⟩ := ih (length + 1) hstep.1 hnext
      exact ⟨by omega, hhigh, hall⟩
    · exact ⟨le_rfl, hle, hagree⟩

/-- Agreement of the first four bytes, position by position. -/
theorem agreeFour_iff (candidate index : ℕ) :
    agreeFour block candidate index = true ↔
      ∀ k < 4, block.getD (candidate + k) 0 = block.getD (index + k) 0 := by
  simp only [agreeFour, Bool.and_eq_true, beq_iff_eq]
  constructor
  · rintro ⟨⟨⟨h0, h1⟩, h2⟩, h3⟩ k hk
    interval_cases k <;> assumption
  · intro h
    exact ⟨⟨⟨h 0 (by decide), h 1 (by decide)⟩, h 2 (by decide)⟩, h 3 (by decide)⟩

/-- Whatever the dictionary answers, the emitted sequences describe the rest of the block. -/
theorem greedy_factors {Below : τ → ℕ → Prop} (hdict : dict.Bounded Below) (fuel : ℕ) (table : τ)
    (anchor index : ℕ) (hbelow : Below table index) (hanchor : anchor ≤ index)
    (hstart : anchor < block.length) :
    Factors window block anchor (greedy dict window block fuel table anchor index) := by
  induction fuel generalizing table anchor index with
  | zero => exact .last hstart
  | succ fuel ih =>
    rw [greedy]
    split
    · rename_i hinside
      have hskip := ih (dict.store table index) anchor (index + 1) (hdict.store _ _ hbelow) (by omega) hstart
      split
      · exact hskip
      rename_i candidate hlookup
      split
      · exact hskip
      rename_i haccept
      simp only [not_or, Bool.not_eq_false] at haccept
      have hcandidate := hdict.lookup _ _ _ _ hbelow hlookup
      obtain ⟨hfour, hmax, hagree⟩ := extendMatch_spec candidate index
        (block.length - 5 - index) block.length 4 (by omega)
        ((agreeFour_iff candidate index).mp haccept.2)
      set length := extendMatch block candidate index (block.length - 5 - index) block.length 4
      have hat : anchor + (index - anchor) = index := by omega
      refine .copy hfour (by omega) (by omega) (by omega) (by omega) ?_ ?_
      · intro k hk
        rw [hat, show index - (index - candidate) = candidate by omega]
        exact hagree k hk
      · rw [hat]
        exact ih _ _ _ (hdict.learn _ _ _ (by omega) (hdict.store _ _ hbelow)) le_rfl (by omega)
    · exact .last hstart

/-- The copies stop five bytes before the end, so that many literals come last. -/
theorem greedy_last (fuel : ℕ) (table : τ) (anchor index : ℕ) (hanchor : anchor = 0 ∨ anchor + 5 ≤ block.length) :
    ∃ copies literals, greedy dict window block fuel table anchor index = copies ++ [⟨literals, 0, 0⟩] ∧
      (∀ s ∈ copies, 4 ≤ s.matchLength) ∧ min block.length 5 ≤ literals.length := by
  have hdone : ∃ copies literals, ([⟨block.drop anchor, 0, 0⟩] : List Sequence) = copies ++ [⟨literals, 0, 0⟩] ∧
      (∀ s ∈ copies, 4 ≤ s.matchLength) ∧ min block.length 5 ≤ literals.length :=
    ⟨[], block.drop anchor, rfl, by simp, by rw [length_drop]; omega⟩
  induction fuel generalizing table anchor index with
  | zero => exact hdone
  | succ fuel ih =>
    rw [greedy]
    split
    · rename_i hinside
      split
      · exact ih _ _ _ hanchor hdone
      rename_i candidate _
      split
      · exact ih _ _ _ hanchor hdone
      rename_i haccept
      simp only [not_or, Bool.not_eq_false] at haccept
      obtain ⟨hfour, hmax, -⟩ := extendMatch_spec candidate index
        (block.length - 5 - index) block.length 4 (by omega)
        ((agreeFour_iff candidate index).mp haccept.2)
      set length := extendMatch block candidate index (block.length - 5 - index) block.length 4
      have hnext : index + length + 5 ≤ block.length := by omega
      obtain ⟨copies, literals, hrest, hcopies, hlast⟩ := ih
        (dict.learn (dict.store table index) index (index + length)) (index + length)
        (index + length) (.inr hnext)
        ⟨[], block.drop (index + length), rfl, by simp, by rw [length_drop]; omega⟩
      refine ⟨⟨(block.drop anchor).take (index - anchor), length, index - candidate⟩ :: copies,
        literals, congrArg (cons _) hrest, ?_, hlast⟩
      intro s hs
      rcases mem_cons.mp hs with rfl | hs
      · exact hfour
      · exact hcopies s hs
    · exact hdone

end Windoge.Greedy
