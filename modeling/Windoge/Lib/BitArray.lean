import Mathlib

/-!
# Bit arrays in byte memory

Bit `i` of a byte memory is bit `i % 8` of byte `i / 8`. Setting a list of bits one after the
other changes exactly these bits, and only bytes that hold one of them.
-/

namespace Windoge.BitArray

open BitVec

/-- The value of one bit. -/
def bitAt (bytes : ℕ → UInt8) (i : ℕ) : Bool := (bytes (i / 8)).toBitVec.getLsbD (i % 8)

/-- A byte with one bit set (`b |= 1 << i`) or cleared (`b &= ~(1 << i)`). -/
def withBit (byte : UInt8) (i : ℕ) (on : Bool) : UInt8 :=
  ⟨if on then byte.toBitVec ||| 1#8 <<< i else byte.toBitVec &&& ~~~(1#8 <<< i)⟩

/-- The memory after one bit has been stored. -/
def putBit (bytes : ℕ → UInt8) (i : ℕ) (on : Bool) : ℕ → UInt8 :=
  Function.update bytes (i / 8) (withBit (bytes (i / 8)) (i % 8) on)

/-- The memory after the listed bits, counted from `base`, have been stored. -/
def putBits (bytes : ℕ → UInt8) (base : ℕ) (indices : List ℕ) (on : Bool) : ℕ → UInt8 :=
  indices.foldl (fun bytes i => putBit bytes (base + i) on) bytes

variable {bytes : ℕ → UInt8} {byte : UInt8} {base i j a : ℕ} {on : Bool} {indices : List ℕ}

/-- Storing a bit in a byte changes that bit only. -/
theorem withBit_getLsbD (hi : i < 8) (hj : j < 8) :
    (withBit byte i on).toBitVec.getLsbD j = if j = i then on else byte.toBitVec.getLsbD j := by
  have hone : (1#8 <<< i).getLsbD j = decide (j = i) := by
    rw [getLsbD_shiftLeft, getLsbD_one]
    by_cases hij : j = i
    · simp [hij, hi]
    have hne : decide (j - i = 0) = false ∨ j < i := by
      rw [decide_eq_false_iff_not]
      omega
    rcases hne with hne | hlt
    · simp [hne, hij]
    · simp [hlt, hij]
  cases on with
  | false =>
    change (byte.toBitVec &&& ~~~(1#8 <<< i)).getLsbD j = _
    rw [getLsbD_and, getLsbD_not, hone]
    by_cases hij : j = i <;> simp [hij, hj]
  | true =>
    change (byte.toBitVec ||| 1#8 <<< i).getLsbD j = _
    rw [getLsbD_or, hone]
    by_cases hij : j = i <;> simp [hij]

/-- Storing a bit changes that bit only. -/
theorem bitAt_putBit : bitAt (putBit bytes i on) j = if j = i then on else bitAt bytes j := by
  unfold bitAt putBit
  by_cases hbyte : j / 8 = i / 8
  · have hij : j % 8 = i % 8 ↔ j = i := by omega
    rw [hbyte, Function.update_self, withBit_getLsbD (by omega) (by omega)]
    simp only [hij]
  · have hij : j ≠ i := fun h => hbyte (by rw [h])
    rw [Function.update_of_ne hbyte, if_neg hij]

/-- Storing a bit leaves the other bytes alone. -/
theorem putBit_of_ne (h : a ≠ i / 8) : putBit bytes i on a = bytes a := Function.update_of_ne h _ _

/-- Storing bits changes exactly the listed ones. -/
theorem bitAt_putBits : bitAt (putBits bytes base indices on) (base + j) =
    if j ∈ indices then on else bitAt bytes (base + j) := by
  induction indices generalizing bytes with
  | nil => simp [putBits]
  | cons i indices ih =>
    rw [putBits, List.foldl_cons, ← putBits, ih, bitAt_putBit]
    by_cases hmem : j ∈ indices <;> simp [hmem]

/-- Storing bits leaves the bits in front of them alone. -/
theorem bitAt_putBits_of_lt (h : j < base) : bitAt (putBits bytes base indices on) j = bitAt bytes j := by
  induction indices generalizing bytes with
  | nil => rfl
  | cons i indices ih => rw [putBits, List.foldl_cons, ← putBits, ih, bitAt_putBit, if_neg (by omega)]

/-- A memory is determined by its bits. -/
theorem eq_of_bitAt_eq {bytes' : ℕ → UInt8} (h : ∀ i, bitAt bytes i = bitAt bytes' i) : bytes = bytes' := by
  funext a
  apply UInt8.eq_of_toBitVec_eq
  apply eq_of_getLsbD_eq
  intro i hi
  have hbit := h (8 * a + i)
  have hbyte : (8 * a + i) / 8 = a := by omega
  have hindex : (8 * a + i) % 8 = i := by omega
  rwa [bitAt, bitAt, hbyte, hindex] at hbit

/-- Clearing bits that were clear before they were set brings the memory back. -/
theorem putBits_restore (h : ∀ i ∈ indices, bitAt bytes (base + i) = false) :
    putBits (putBits bytes base indices true) base indices false = bytes := by
  apply eq_of_bitAt_eq
  intro i
  by_cases hi : i < base
  · rw [bitAt_putBits_of_lt hi, bitAt_putBits_of_lt hi]
  obtain ⟨j, rfl⟩ := Nat.exists_eq_add_of_le (Nat.le_of_not_lt hi)
  rw [bitAt_putBits, bitAt_putBits]
  split_ifs with hmem
  · exact (h j hmem).symm
  · rfl

/-- Storing bits leaves every byte alone that holds none of them. -/
theorem putBits_of_ne (h : ∀ i ∈ indices, a ≠ (base + i) / 8) : putBits bytes base indices on a = bytes a := by
  induction indices generalizing bytes with
  | nil => rfl
  | cons i indices ih =>
    rw [putBits, List.foldl_cons, ← putBits, ih (List.forall_mem_cons.mp h).2]
    exact putBit_of_ne (h i List.mem_cons_self)

end Windoge.BitArray
