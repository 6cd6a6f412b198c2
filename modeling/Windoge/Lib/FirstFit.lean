import Mathlib

/-!
# First fit over a row of bits

The lowest run of clear bits of a given length, and what a scan from the left knows about it. The
scan keeps the length of the clear run that ends where it is; every run of the length asked for
that starts before that run has been ruled out.
-/

namespace Windoge.FirstFit

open List

/-- A run of clear bits below the limit. -/
structure Free (bits : ℕ → Bool) (total count start : ℕ) : Prop where
  fits : start + count ≤ total
  clear : ∀ j, start ≤ j → j < start + count → bits j = false

/-- The lowest run of clear bits below the limit. -/
structure First (bits : ℕ → Bool) (total count start : ℕ) : Prop extends
    Free bits total count start where
  lowest : ∀ s < start, ¬ Free bits total count s

/-- What a scan has established in front of bit `i`: the last `consecutive` bits are clear, from
`start` on, and no run starts before them. -/
structure Searched (bits : ℕ → Bool) (total count i consecutive start : ℕ) : Prop where
  short : consecutive < count
  inside : consecutive ≤ i
  start_eq : consecutive ≠ 0 → start = i - consecutive
  clear : ∀ j, i - consecutive ≤ j → j < i → bits j = false
  none_before : ∀ s < i - consecutive, ¬ Free bits total count s

variable {bits bits' : ℕ → Bool} {total count i consecutive start s t : ℕ}

/-- Whether a run is clear can be checked bit by bit. -/
theorem free_iff : Free bits total count start ↔
    start + count ≤ total ∧ ∀ j < count, bits (start + j) = false := by
  constructor
  · intro h
    exact ⟨h.fits, fun j hj => h.clear _ (Nat.le_add_right _ _) (by omega)⟩
  · rintro ⟨hfits, hclear⟩
    refine ⟨hfits, fun j hlow hhigh => ?_⟩
    obtain ⟨i, rfl⟩ := Nat.exists_eq_add_of_le hlow
    exact hclear i (by omega)

instance : Decidable (Free bits total count start) := decidable_of_iff' _ free_iff

/-- The lowest run, if there is one. -/
def find (bits : ℕ → Bool) (total count : ℕ) : Option ℕ :=
  (List.range total).find? fun start => Free bits total count start

section Find

variable (hcount : 0 < count)
include hcount

/-- The search finds the lowest run. -/
theorem find_eq_some_iff : find bits total count = some start ↔ First bits total count start := by
  rw [find, find?_range_eq_some]
  constructor
  · rintro ⟨hfree, -, hlowest⟩
    refine ⟨of_decide_eq_true hfree, fun s hs hfree' => ?_⟩
    have hnot := hlowest s hs
    rw [decide_eq_true hfree'] at hnot
    cases hnot
  · intro h
    have hfits := h.fits
    refine ⟨decide_eq_true h.toFree, mem_range.mpr (by omega), fun s hs => ?_⟩
    rw [decide_eq_false (h.lowest s hs)]
    rfl

/-- The search fails if there is no run. -/
theorem find_eq_none_iff : find bits total count = none ↔ ∀ s, ¬ Free bits total count s := by
  rw [find, find?_eq_none]
  constructor
  · intro h s hfree
    have hfits := hfree.fits
    exact h s (mem_range.mpr (by omega)) (decide_eq_true hfree)
  · intro h s _ hfree
    exact h s (of_decide_eq_true hfree)

end Find

namespace Searched

/-- At the first bit nothing has been seen. -/
theorem zero (hcount : 0 < count) : Searched bits total count 0 0 start :=
  ⟨hcount, Nat.le_refl 0, fun h => absurd rfl h, fun j _ hj => absurd hj (Nat.not_lt_zero j),
    fun s hs => absurd hs (Nat.not_lt_zero s)⟩

variable (h : Searched bits total count i consecutive start)
include h

/-- A bit that is set rules out the runs that it would belong to. -/
theorem set (hbit : bits i = true) : Searched bits total count (i + 1) 0 start := by
  have hshort := h.short
  refine ⟨by omega, Nat.zero_le _, fun h => absurd rfl h, fun j hlow hhigh => by omega, fun s hs hfree => ?_⟩
  by_cases hbefore : s < i - consecutive
  · exact h.none_before s hbefore hfree
  · have hclear := hfree.clear i (by omega) (by omega)
    rw [hbit] at hclear
    cases hclear

/-- The start of the run that ends behind the next bit if that is clear. -/
theorem grown_start : (if consecutive = 0 then i else start) = i - consecutive := by
  split_ifs with hzero
  · omega
  · exact h.start_eq hzero

/-- The bits that are clear if the next one is. -/
theorem grown_clear (hbit : bits i = false) (j : ℕ) (hlow : i - consecutive ≤ j) (hhigh : j < i + 1) :
    bits j = false := by
  by_cases hlast : j = i
  · rwa [hlast]
  · exact h.clear j hlow (by omega)

/-- A clear bit makes the run longer. -/
theorem clear_bit (hbit : bits i = false) (hmore : consecutive + 1 ≠ count) :
    Searched bits total count (i + 1) (consecutive + 1) (if consecutive = 0 then i else start) := by
  have hshort := h.short
  have hinside := h.inside
  have hsub : i + 1 - (consecutive + 1) = i - consecutive := by omega
  refine ⟨by omega, by omega, fun _ => ?_, fun j hlow hhigh => ?_, fun s hs => ?_⟩
  · rw [h.grown_start, hsub]
  · exact h.grown_clear hbit j (by omega) hhigh
  · exact h.none_before s (by omega)

/-- The run that a clear bit completes is the lowest one. -/
theorem found (hbit : bits i = false) (hlast : consecutive + 1 = count) (htotal : i < total) :
    First bits total count (if consecutive = 0 then i else start) := by
  have hinside := h.inside
  rw [h.grown_start]
  exact ⟨⟨by omega, fun j hlow hhigh => h.grown_clear hbit j hlow (by omega)⟩, h.none_before⟩

/-- At the limit no run is left. -/
theorem none_left (htotal : total ≤ i) (s : ℕ) : ¬ Free bits total count s := by
  intro hfree
  have hshort := h.short
  have hfits := hfree.fits
  exact h.none_before s (by omega) hfree

end Searched

end Windoge.FirstFit
