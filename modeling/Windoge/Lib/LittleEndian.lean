import Mathlib

/-!
# Little-endian byte fields

Encoders store a number byte by byte, least significant first, and decoders join the bytes
with shifts. Both directions are stated once for the widths the on-disk formats use.
-/

namespace Windoge.LittleEndian

open List

/-- The `i`-th byte of a number, least significant first. -/
def byteAt (n i : ℕ) : UInt8 := UInt8.ofNat (n >>> (8 * i) &&& 0xFF)

/-- The low `width` bytes of a number, least significant first. -/
def encode (width n : ℕ) : List UInt8 := (List.range width).map (byteAt n)

/-- Join bytes with shifts, the first byte lowest. -/
def decode : List UInt8 → ℕ
  | [] => 0
  | b :: rest => b.toNat ||| decode rest <<< 8

/-- An encoded field has its declared width. -/
@[simp] theorem encode_length (width n : ℕ) : (encode width n).length = width := by
  simp [encode]

/-- The lowest byte is the remainder modulo 256. -/
theorem byteAt_toNat (n i : ℕ) : (byteAt n i).toNat = n / 256 ^ i % 256 := by
  have hmask : ∀ m : ℕ, m &&& 0xFF = m % 256 := fun m => Nat.and_two_pow_sub_one_eq_mod m 8
  rw [byteAt, hmask, UInt8.toNat_ofNat', Nat.shiftRight_eq_div_pow, Nat.pow_mul, Nat.mod_mod_of_dvd _ (by decide)]

/-- Peeling the lowest byte off a field leaves the field of the quotient. -/
theorem encode_succ (width n : ℕ) : encode (width + 1) n = byteAt n 0 :: encode width (n / 256) := by
  have htail : ∀ i, byteAt n (i + 1) = byteAt (n / 256) i := by
    intro i
    apply UInt8.toNat_inj.mp
    rw [byteAt_toNat, byteAt_toNat, Nat.pow_succ', Nat.div_div_eq_div_mul]
  simp only [encode, range_succ_eq_map, map_cons, map_map, Function.comp_def, htail]

/-- Joining with a shift adds the higher part. -/
theorem decode_cons (b : UInt8) (rest : List UInt8) : decode (b :: rest) = b.toNat + 256 * decode rest := by
  have h := Nat.shiftLeft_add_eq_or_of_lt (i := 8) b.toNat_lt (decode rest)
  rw [decode, Nat.or_comm, ← h, Nat.shiftLeft_eq, add_comm, mul_comm]

/-- Reading a stored field returns the number modulo the field's range. -/
theorem decode_encode (width n : ℕ) : decode (encode width n) = n % 256 ^ width := by
  induction width generalizing n with
  | zero => simp [encode, decode, Nat.mod_one]
  | succ width ih =>
    rw [encode_succ, decode_cons, ih, byteAt_toNat, Nat.pow_zero, Nat.div_one, Nat.pow_succ', Nat.mod_mul]

/-- A number that fits its field is read back unchanged. -/
theorem decode_encode_of_lt {width n : ℕ} (h : n < 256 ^ width) : decode (encode width n) = n := by
  rw [decode_encode, Nat.mod_eq_of_lt h]

/-- The bytes of a field are the encoding of its number. -/
theorem encode_decode (bytes : List UInt8) : encode bytes.length (decode bytes) = bytes := by
  induction bytes with
  | nil => rfl
  | cons b rest ih =>
    have hb := b.toNat_lt
    have hlow : byteAt (decode (b :: rest)) 0 = b := by
      apply UInt8.toNat_inj.mp
      rw [byteAt_toNat, decode_cons]
      omega
    have hhigh : decode (b :: rest) / 256 = decode rest := by
      rw [decode_cons]
      omega
    rw [length_cons, encode_succ, hlow, hhigh, ih]

end Windoge.LittleEndian
