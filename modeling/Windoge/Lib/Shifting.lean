import Mathlib

/-!
# Arrays that loops shift in place

A C program makes room in an array by copying every element one place up, from the end, and closes
a gap by copying every element one place down. An array is a function on indices here. The lemmas
give what the loops leave at each index and what they do to a sum over the used part.
-/

namespace Windoge.Shifting

open Function Finset

variable {α : Type*}

/-- `for (i = high; i > low; i--) f[i] = f[i - 1];` -/
def openGap (low : ℕ) : ℕ → (ℕ → α) → ℕ → α
  | 0, f => f
  | high + 1, f =>
    if low < high + 1 then openGap low high (Function.update f (high + 1) (f high)) else f

/-- The first `n` rounds of `for (i = low; i + 1 < last; i++) f[i] = f[i + 1];` -/
def closeGapRounds : ℕ → ℕ → (ℕ → α) → ℕ → α
  | 0, _, f => f
  | n + 1, i, f => closeGapRounds n (i + 1) (Function.update f i (f (i + 1)))

/-- `for (i = low; i + 1 < last; i++) f[i] = f[i + 1];` -/
def closeGap (low last : ℕ) (f : ℕ → α) : ℕ → α :=
  closeGapRounds (last - 1 - low) low f

/-- `memcpy(f + at, g, n)`. -/
def blit (f : ℕ → α) (start : ℕ) (g : ℕ → α) (n : ℕ) : ℕ → α := fun j =>
  if start ≤ j ∧ j < start + n then g (j - start) else f j

/-- Opening a gap moves the elements above it one place up. -/
theorem openGap_apply (low high : ℕ) (f : ℕ → α) (j : ℕ) :
    openGap low high f j = if low < j ∧ j ≤ high then f (j - 1) else f j := by
  induction high generalizing f with
  | zero => rw [openGap, if_neg (by omega)]
  | succ high ih =>
    rw [openGap]
    by_cases hlow : low < high + 1
    · rw [if_pos hlow, ih]
      by_cases htop : j = high + 1
      · subst htop
        rw [if_neg (by omega), if_pos (by omega), update_self, Nat.add_sub_cancel]
      rw [update_of_ne htop]
      by_cases hin : low < j ∧ j ≤ high
      · rw [if_pos hin, if_pos (by omega), update_of_ne (by omega)]
      · rw [if_neg hin, if_neg (by omega)]
    · rw [if_neg hlow, if_neg (by omega)]

theorem closeGapRounds_apply (n low : ℕ) (f : ℕ → α) (j : ℕ) :
    closeGapRounds n low f j = if low ≤ j ∧ j < low + n then f (j + 1) else f j := by
  induction n generalizing low f with
  | zero => rw [closeGapRounds, if_neg (by omega)]
  | succ n ih =>
    rw [closeGapRounds, ih]
    by_cases hlow : j = low
    · subst hlow
      rw [if_neg (by omega), if_pos (by omega), update_self]
    rw [update_of_ne hlow]
    by_cases hin : low ≤ j ∧ j < low + (n + 1)
    · rw [if_pos (by omega), if_pos hin, update_of_ne (by omega)]
    · rw [if_neg (by omega), if_neg hin]

/-- Closing a gap moves the elements above it one place down. -/
theorem closeGap_apply (low last : ℕ) (f : ℕ → α) (j : ℕ) :
    closeGap low last f j = if low ≤ j ∧ j + 1 < last then f (j + 1) else f j := by
  rw [closeGap, closeGapRounds_apply]
  exact if_congr (by omega) rfl rfl

/-- A sum over the used part splits at an index. -/
theorem sum_range_split (g : ℕ → ℕ) {i n : ℕ} (hi : i < n) :
    ∑ j ∈ range n, g j = ∑ j ∈ range i, g j + g i + ∑ j ∈ range (n - 1 - i), g (i + 1 + j) := by
  obtain ⟨rest, rfl⟩ := Nat.exists_eq_add_of_lt hi
  rw [show i + rest + 1 = i + 1 + rest by omega, sum_range_add, sum_range_succ]
  rw [show i + 1 + rest - 1 - i = rest by omega]

section

variable (measure : α → ℕ) (f : ℕ → α)

/-- A gap filled with a new element adds it to a sum over the array. -/
theorem sum_openGap (v : α) {i n : ℕ} (hi : i ≤ n) :
    ∑ j ∈ range (n + 1), measure (update (openGap i n f) i v j) = ∑ j ∈ range n, measure (f j) + measure v := by
  rw [sum_range_split _ (Nat.lt_succ_of_le hi), update_self]
  have hbelow : ∀ j ∈ range i, measure (update (openGap i n f) i v j) = measure (f j) := by
    intro j hj
    rw [mem_range] at hj
    rw [update_of_ne (by omega), openGap_apply, if_neg (by omega)]
  have habove : ∀ j ∈ range (n + 1 - 1 - i),
      measure (update (openGap i n f) i v (i + 1 + j)) = measure (f (i + j)) := by
    intro j hj
    rw [mem_range] at hj
    rw [update_of_ne (by omega), openGap_apply, if_pos (by omega), show i + 1 + j - 1 = i + j by omega]
  rw [sum_congr rfl hbelow, sum_congr rfl habove]
  have hsplit := sum_range_add (fun j => measure (f j)) i (n - i)
  rw [Nat.add_sub_cancel' hi] at hsplit
  rw [Nat.add_sub_cancel, hsplit]
  omega

/-- A closed gap takes its element from a sum over the array. -/
theorem sum_closeGap {i n : ℕ} (hi : i < n) :
    ∑ j ∈ range (n - 1), measure (closeGap i n f j) + measure (f i) = ∑ j ∈ range n, measure (f j) := by
  have hbelow : ∀ j ∈ range i, measure (closeGap i n f j) = measure (f j) := by
    intro j hj
    rw [mem_range] at hj
    rw [closeGap_apply, if_neg (by omega)]
  have habove : ∀ j ∈ range (n - 1 - i), measure (closeGap i n f (i + j)) = measure (f (i + 1 + j)) := by
    intro j hj
    rw [mem_range] at hj
    rw [closeGap_apply, if_pos (by omega), show i + j + 1 = i + 1 + j by omega]
  have hsplit := sum_range_add (fun j => measure (closeGap i n f j)) i (n - 1 - i)
  rw [show i + (n - 1 - i) = n - 1 by omega] at hsplit
  rw [hsplit, sum_congr rfl hbelow, sum_congr rfl habove, sum_range_split (fun j => measure (f j)) hi]
  omega

/-- A replaced element is exchanged in a sum over the array. -/
theorem sum_update (v : α) {i n : ℕ} (hi : i < n) :
    ∑ j ∈ range n, measure (update f i v j) + measure (f i) = ∑ j ∈ range n, measure (f j) + measure v := by
  have hrest : ∀ j, j ≠ i → measure (update f i v j) = measure (f j) := by
    intro j hj
    rw [update_of_ne hj]
  rw [sum_range_split _ hi, sum_range_split (fun j => measure (f j)) hi, update_self,
    sum_congr rfl fun j hj => hrest j (Nat.ne_of_lt (mem_range.mp hj)),
    sum_congr rfl fun j _ => hrest (i + 1 + j) (by omega)]
  omega

end

end Windoge.Shifting
