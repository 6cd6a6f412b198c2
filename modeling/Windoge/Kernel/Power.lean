import Mathlib

/-!
# Powers

The kernel's `math_power` multiplies as often as the exponent says; that of the user library squares and
multiplies over the bits of the exponent. Both compute in 64 bits.
-/

namespace Windoge.Power

/-- `math_power` of the kernel. -/
def kernelMathPower (base : BitVec 64) (exponent : ℤ) : BitVec 64 :=
  if exponent < 0 then 0 else if exponent = 0 then 1 else (· * base)^[exponent.toNat] 1

/-- The loop of the user library. -/
def powerLoop (exp : ℕ) (res b : BitVec 64) : BitVec 64 :=
  if exp = 0 then res else powerLoop (exp / 2) (if exp % 2 = 1 then res * b else res) (b * b)

/-- `math_power` of the user library. -/
def libraryMathPower (base : BitVec 64) (exp : ℤ) : BitVec 64 :=
  if exp < 0 then 0 else powerLoop exp.toNat 1 base

/-- What is left of the exponent goes to the square. -/
theorem powerLoop_eq (exp : ℕ) (res b : BitVec 64) : powerLoop exp res b = res * b ^ exp := by
  induction exp using Nat.strongRecOn generalizing res b with
  | ind exp ih =>
    rw [powerLoop]
    have hsplit : b ^ exp = b ^ (exp % 2) * (b * b) ^ (exp / 2) := by
      rw [← sq, ← pow_mul, ← pow_add, Nat.mod_add_div]
    split_ifs with hzero hodd
    · rw [hzero, pow_zero, mul_one]
    · rw [ih _ (by omega), hsplit, hodd, pow_one, mul_assoc]
    · rw [ih _ (by omega), hsplit, Nat.mod_two_ne_one.mp hodd, pow_zero, one_mul]

/-- Both give the power modulo 2^64. -/
theorem powers_agree (base : BitVec 64) (exponent : ℤ) :
    kernelMathPower base exponent = libraryMathPower base exponent ∧ libraryMathPower base exponent =
      if exponent < 0 then 0 else BitVec.ofNat 64 (base.toNat ^ exponent.toNat) := by
  have hpower : BitVec.ofNat 64 (base.toNat ^ exponent.toNat) = base ^ exponent.toNat := by
    rw [← BitVec.natCast_eq_ofNat]
    simp
  rw [kernelMathPower, libraryMathPower, powerLoop_eq, mul_right_iterate_apply_one, one_mul, hpower]
  refine ⟨?_, rfl⟩
  split_ifs with hneg hzero
  · rfl
  · rw [hzero]
    rfl
  · rfl

end Windoge.Power
