import Mathlib

/-!
# The bytes of a machine word

A 64-bit word read and written byte by byte, the lowest byte first.
-/

namespace Windoge.WordBytes

open BitVec

/-- Byte `k` of a word, counted from the lowest one. -/
def wordByte (w : BitVec 64) (k : ℕ) : UInt8 := ⟨w.extractLsb' (8 * k) 8⟩

/-- The word with byte `k` replaced. -/
def setWordByte (w : BitVec 64) (k : ℕ) (b : UInt8) : BitVec 64 :=
  (w &&& ~~~((0xFF : BitVec 64) <<< (8 * k))) ||| (b.toBitVec.setWidth 64 <<< (8 * k))

/-- The bytes of the zero word are zero. -/
@[simp] theorem wordByte_zero (k : ℕ) : wordByte 0 k = 0 := by
  apply UInt8.toBitVec_inj.mp
  ext i hi
  simp [wordByte]

/-- A bit of the mask of byte `k`, seen from byte `j`. -/
theorem byteMask_bit {j k i : ℕ} (hj : j < 8) (hi : i < 8) :
    ((0xFF : BitVec 64) <<< (8 * k)).getLsbD (8 * j + i) = decide (j = k) := by
  have hmask : ∀ n : ℕ, (0xFF : BitVec 64).getLsbD n = decide (n < 8) := by
    intro n
    have h : (0xFF : BitVec 64) = (allOnes 8).setWidth 64 := by decide
    rw [h, getLsbD_setWidth, getLsbD_allOnes]
    by_cases hn : n < 8 <;> simp [hn]
    omega
  rw [getLsbD_shiftLeft, hmask]
  by_cases hjk : j = k
  · subst hjk
    simp [hi]
    omega
  · by_cases hle : 8 * j + i < 8 * k
    · simp [hle, hjk]
    · have hfar : ¬ 8 * j + i - 8 * k < 8 := by omega
      simp [hfar, hjk]

/-- Replacing one byte of a word leaves the other bytes alone. -/
theorem wordByte_setWordByte {w : BitVec 64} {j k : ℕ} (hj : j < 8) (hk : k < 8) (b : UInt8) :
    wordByte (setWordByte w k b) j = if j = k then b else wordByte w j := by
  apply UInt8.toBitVec_inj.mp
  ext i hi
  have hmask := byteMask_bit (k := k) hj hi
  have hvalue : (b.toBitVec.setWidth 64 <<< (8 * k)).getLsbD (8 * j + i) =
      (decide (j = k) && b.toBitVec.getLsbD i) := by
    rw [getLsbD_shiftLeft, getLsbD_setWidth]
    by_cases hjk : j = k
    · subst hjk
      have hwide : 8 * j + i < 64 := by omega
      have hin : i < 64 := by omega
      simp [hwide, hin]
    · by_cases hle : 8 * j + i < 8 * k
      · simp [hle, hjk]
      have hout : b.toBitVec.getLsbD (8 * j + i - 8 * k) = false := by
        apply getLsbD_of_ge
        omega
      simp [hout, hjk]
  have hwide : 8 * j + i < 64 := by omega
  rw [← getLsbD_eq_getElem, ← getLsbD_eq_getElem]
  simp only [wordByte, setWordByte, getLsbD_extractLsb', getLsbD_or,
    getLsbD_and, getLsbD_not, hmask, hvalue, hi, hwide, decide_true, Bool.true_and]
  by_cases hjk : j = k
  · subst hjk
    simp
  · simp [hjk, hi]

end Windoge.WordBytes
