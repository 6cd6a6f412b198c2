import Windoge.Lib.LittleEndian

/-!
# Blocks written as literals and back references

A block is stored as a list of sequences. Each sequence carries literal bytes and then copies
earlier output; the last one has literals only. The byte layout is a token with two four-bit
lengths, extension bytes for a length of fifteen or more, the literals, and a two-byte offset.

`Factors` says that a list of sequences describes a block from a given position on, with every
copy checked byte by byte against the block. A decoder that replays such a list rebuilds the
block, whichever encoder chose the matches.
-/

namespace Windoge.Sequences

open LittleEndian List UInt8

/-- Literals followed by a copy of `matchLength` bytes from `matchOffset` back; a sequence of
match length zero is literals only. -/
structure Sequence where
  literals : List UInt8
  matchLength : ℕ
  matchOffset : ℕ

/-- Copy `count` bytes, each from `offset` positions before the current end. -/
def copyBack (offset : ℕ) : ℕ → List UInt8 → List UInt8
  | 0, out => out
  | count + 1, out => copyBack offset count (out ++ [out.getD (out.length - offset) 0])

/-- The bytes of a length extension: full bytes of 255 and one smaller byte that ends it. -/
def encodeLength (length : ℕ) : List UInt8 :=
  List.replicate (length / 255) 255 ++ [UInt8.ofNat (length % 255)]

/-- A length of fifteen or more continues after the token. -/
def encodeExtension (length : ℕ) : List UInt8 :=
  if 15 ≤ length then encodeLength (length - 15) else []

/-- The token packs both lengths, each capped at fifteen. -/
def encodeToken (literals match_ : ℕ) : UInt8 :=
  UInt8.ofNat ((min literals 15) <<< 4 ||| min match_ 15)

/-- The part of a sequence after its literals; a literals-only sequence has none. -/
def encodeCopy (length offset : ℕ) : List UInt8 :=
  if length = 0 then [] else encode 2 offset ++ encodeExtension (length - 4)

/-- The bytes of one sequence. -/
def Sequence.encode (s : Sequence) : List UInt8 :=
  encodeToken s.literals.length (s.matchLength - 4) ::
    (encodeExtension s.literals.length ++ (s.literals ++ encodeCopy s.matchLength s.matchOffset))

/-- The bytes of a list of sequences. -/
def encodeAll (sequences : List Sequence) : List UInt8 := sequences.flatMap Sequence.encode

/-- The sequences describe the block from `start` on. Copies reach back at most `window` bytes
and never before the block, and at least one literal follows the last copy. -/
inductive Factors (window : ℕ) (block : List UInt8) : ℕ → List Sequence → Prop
  | last {start : ℕ} (hstart : start < block.length) :
      Factors window block start [⟨block.drop start, 0, 0⟩]
  | copy {start literals length offset : ℕ} {rest : List Sequence}
      (hlength : 4 ≤ length) (hoffset : 0 < offset) (hwindow : offset ≤ window)
      (hback : offset ≤ start + literals) (hroom : start + literals + length < block.length)
      (hmatch : ∀ k < length,
        block.getD (start + literals - offset + k) 0 = block.getD (start + literals + k) 0)
      (hrest : Factors window block (start + literals + length) rest) :
      Factors window block start (⟨(block.drop start).take literals, length, offset⟩ :: rest)

/-- A copy whose bytes agree with the block extends a prefix of it to a longer prefix. -/
theorem copyBack_take (block : List UInt8) (offset count position : ℕ) (hoffset : 0 < offset)
    (hback : offset ≤ position) (hroom : position + count ≤ block.length)
    (hmatch : ∀ k < count, block.getD (position - offset + k) 0 = block.getD (position + k) 0) :
    copyBack offset count (block.take position) = block.take (position + count) := by
  induction count generalizing position with
  | zero => rfl
  | succ count ih =>
    have hlen : (block.take position).length = position := by rw [length_take]; omega
    have hread : (block.take position).getD (position - offset) 0 = block.getD position 0 := by
      rw [getD_eq_getElem?_getD, getElem?_take_of_lt (by omega), ← getD_eq_getElem?_getD]
      simpa using hmatch 0 (by omega)
    have hsnoc : block.take position ++ [block.getD position 0] = block.take (position + 1) := by
      rw [take_add_one, getD_eq_getElem?_getD, getElem?_eq_getElem (by omega)]
      rfl
    rw [copyBack, hlen, hread, hsnoc, ih (position + 1) (by omega) (by omega)]
    · congr 1; omega
    · intro k hk
      have h := hmatch (k + 1) (by omega)
      rw [show position + 1 - offset + k = position - offset + (k + 1) by omega, h]
      congr 1; omega

/-- A copy never changes what was written before it. -/
theorem copyBack_append (offset count : ℕ) (before out : List UInt8) (hback : offset ≤ out.length) :
    copyBack offset count (before ++ out) = before ++ copyBack offset count out := by
  induction count generalizing out with
  | zero => rfl
  | succ count ih =>
    have hread : (before ++ out).getD ((before ++ out).length - offset) 0 = out.getD (out.length - offset) 0 := by
      rw [length_append, getD_eq_getElem?_getD, getD_eq_getElem?_getD, getElem?_append_right (by omega)]
      congr 2; omega
    rw [copyBack, copyBack, hread, append_assoc, ih _ (by simp; omega)]

/-- Both halves of a token are read back from it. -/
theorem encodeToken_toNat (literals match_ : ℕ) :
    (encodeToken literals match_).toNat = min literals 15 * 16 + min match_ 15 := by
  have hlow : min match_ 15 < 2 ^ 4 := by omega
  rw [encodeToken, ← Nat.shiftLeft_add_eq_or_of_lt hlow, toNat_ofNat', Nat.shiftLeft_eq]
  omega

/-- The length of a length extension. -/
@[simp] theorem encodeLength_length (length : ℕ) : (encodeLength length).length = length / 255 + 1 := by
  simp [encodeLength]

/-- Appending the next full byte of an extension. -/
theorem encodeLength_of_le {length : ℕ} (h : 255 ≤ length) :
    encodeLength length = 255 :: encodeLength (length - 255) := by
  have hdiv : length / 255 = (length - 255) / 255 + 1 := by omega
  have hmod : length % 255 = (length - 255) % 255 := by omega
  rw [encodeLength, encodeLength, hdiv, hmod, replicate_succ, cons_append]

/-- A short length is its own last byte. -/
theorem encodeLength_of_lt {length : ℕ} (h : length < 255) : encodeLength length = [ofNat length] := by
  rw [encodeLength, Nat.div_eq_of_lt h, Nat.mod_eq_of_lt h]
  rfl

/-- An extension costs at most one byte for every 255 and one more. -/
theorem encodeExtension_length_le (length : ℕ) : (encodeExtension length).length ≤ length / 255 + 1 := by
  unfold encodeExtension
  split
  · rw [encodeLength_length]; omega
  · simp

/-- The size of a sequence in terms of its parts. -/
theorem Sequence.encode_length (s : Sequence) :
    s.encode.length = 1 + (encodeExtension s.literals.length).length + s.literals.length +
      (encodeCopy s.matchLength s.matchOffset).length := by
  simp only [Sequence.encode, length_cons, length_append]
  omega

/-- A copy of four or more bytes is stored in fewer bytes than it produces. -/
theorem encodeCopy_length_lt (length offset : ℕ) (h : 4 ≤ length) :
    (encodeCopy length offset).length + 1 < length := by
  have hne : length ≠ 0 := by omega
  rw [encodeCopy, if_neg hne, length_append, LittleEndian.encode_length, encodeExtension]
  split
  · rw [encodeLength_length]; omega
  · simp; omega

variable {sequences : List Sequence} {block : List UInt8} {window start : ℕ}

section

variable (h : Factors window block start sequences)
include h

/-- A stored description of a block exceeds it by at most one byte in 255 and two more. -/
theorem Factors.encodeAll_length_le :
    (encodeAll sequences).length ≤ block.length - start + (block.length - start) / 255 + 2 := by
  induction h with
  | @last start hstart =>
    have hext := encodeExtension_length_le (block.drop start).length
    simp only [encodeAll, flatMap_cons, flatMap_nil, append_nil,
      Sequence.encode_length, encodeCopy, if_pos, length_nil, length_drop] at hext ⊢
    omega
  | @copy start literals length offset rest hlength _ _ _ hroom _ _ ih =>
    have hext := encodeExtension_length_le literals
    have hcopy := encodeCopy_length_lt length offset hlength
    have hlits : ((block.drop start).take literals).length = literals := by
      rw [length_take, length_drop]; omega
    simp only [encodeAll, flatMap_cons, length_append, Sequence.encode_length, hlits] at ih ⊢
    omega

/-- A description is never empty. -/
theorem Factors.encodeAll_pos : 0 < (encodeAll sequences).length := by
  cases h <;> simp [encodeAll, Sequence.encode]

/-- Every copy reaches back to an earlier byte of the block. -/
theorem Factors.copy_within {s : Sequence} (hs : s ∈ sequences) (hcopy : s.matchLength ≠ 0) :
    0 < s.matchOffset ∧ s.matchOffset + s.matchLength < block.length := by
  induction h with
  | last _ => exact absurd (mem_singleton.mp hs ▸ rfl) hcopy
  | copy _ hoffset _ hback hroom _ _ ih =>
    rcases mem_cons.mp hs with rfl | hrest
    · exact ⟨hoffset, by dsimp only; omega⟩
    · exact ih hrest

end

/-!
## Plain expansion of a block

The reference reading of a block of sequences: lengths, literals and copies are taken from the
front of the input, and every copy reads the whole output produced so far. Nothing is buffered
and nothing is forgotten. A block ends after literals or after a copy; the lower half of the last
token is then not looked at.
-/

open Option

/-- A copy as it was met: how far back it reaches, and how many bytes there were before it. -/
structure Copy where
  offset : ℕ
  produced : ℕ

/-- Add extension bytes to a length, up to and including the first below 255. -/
def readExtension (length : ℕ) : List UInt8 → Option (ℕ × List UInt8)
  | [] => none
  | b :: rest =>
    if b.toNat = 255 then readExtension (length + b.toNat) rest else some (length + b.toNat, rest)

/-- A length from its half of the token; fifteen continues in extension bytes. -/
def readLength (nibble length : ℕ) (input : List UInt8) : Option (ℕ × List UInt8) :=
  if nibble = 15 then readExtension length input else some (length, input)

/-- Expand the rest of a block behind the output it has produced so far. -/
def expandFrom : ℕ → List UInt8 → List UInt8 → Option (List UInt8 × List Copy)
  | _, [], out => some (out, [])
  | 0, _ :: _, _ => none
  | fuel + 1, token :: input, out => do
    let (literalLength, input) ← readLength (token.toNat / 16) (token.toNat / 16) input
    if input.length < literalLength then
      none
    else
      let out := out ++ input.take literalLength
      match input.drop literalLength with
      | [] => some (out, [])
      | [_] => none
      | low :: high :: input =>
        let offset := decode [low, high]
        if offset = 0 ∨ out.length < offset then
          none
        else do
          let (matchLength, input) ← readLength (token.toNat % 16) (token.toNat % 16 + 4) input
          let (result, copies) ← expandFrom fuel input (copyBack offset matchLength out)
          some (result, ⟨offset, out.length⟩ :: copies)

/-- Expand a block, with the copies in it. Every round takes a token, so the length of the block is
enough. -/
def expand (block : List UInt8) : Option (List UInt8 × List Copy) :=
  expandFrom block.length block []

variable {input rest : List UInt8}

section

variable {fuel literalLength : ℕ} {token : UInt8} {out : List UInt8}
  (hlength : readLength (token.toNat / 16) (token.toNat / 16) input = some (literalLength, rest))
include hlength

/-- A last sequence of literals only. -/
theorem expandFrom_literals (hall : rest.length = literalLength) :
    expandFrom (fuel + 1) (token :: input) out = some (out ++ rest, []) := by
  have hdrop : rest.drop literalLength = [] := List.drop_eq_nil_of_le (by omega)
  have htake : rest.take literalLength = rest := List.take_of_length_le (by omega)
  simp [expandFrom, hlength, hall, htake, hdrop]

/-- A sequence with a copy, followed by the rest of the block. -/
theorem expandFrom_copy {matchLength : ℕ} {low high : UInt8} {tail after result : List UInt8}
    {copies : List Copy} (hfits : literalLength ≤ rest.length)
    (hcopy : rest.drop literalLength = low :: high :: tail) (hpos : 0 < decode [low, high])
    (hback : decode [low, high] ≤ (out ++ rest.take literalLength).length)
    (hmatch : readLength (token.toNat % 16) (token.toNat % 16 + 4) tail = some (matchLength, after))
    (hrest : expandFrom fuel after
      (copyBack (decode [low, high]) matchLength (out ++ rest.take literalLength)) = some (result, copies)) :
    expandFrom (fuel + 1) (token :: input) out =
      some (result, ⟨decode [low, high], (out ++ rest.take literalLength).length⟩ :: copies) := by
  have hshort : ¬ rest.length < literalLength := by omega
  have hvalid : ¬ (decode [low, high] = 0 ∨ (out ++ rest.take literalLength).length < decode [low, high]) := by
    omega
  simp only [expandFrom, hlength, bind_eq_bind, bind_some, if_neg hshort, hcopy, if_neg hvalid, hmatch, hrest]

end

/-- Reading a length takes bytes off the front only. -/
theorem readExtension_length {length result : ℕ} (h : readExtension length input = some (result, rest)) :
    rest.length < input.length := by
  induction input generalizing length with
  | nil => cases h
  | cons b input ih =>
    rw [readExtension] at h
    split at h
    · exact (ih h).trans (lt_add_one _)
    · cases h
      exact lt_add_one _

theorem readLength_length {nibble length result : ℕ}
    (h : readLength nibble length input = some (result, rest)) : rest.length ≤ input.length := by
  rw [readLength] at h
  split at h
  · exact (readExtension_length h).le
  · cases h
    exact le_rfl

end Windoge.Sequences
