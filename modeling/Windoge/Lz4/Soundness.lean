import Windoge.Lz4.RoundTrip
import Windoge.Lz4.Steps

/-!
# What the decoder accepts

Every byte string the decoder accepts is a header followed by blocks, and what it writes is the
plain expansion of each block: the ring of 4096 bytes and the buffers around it make no
difference. The lemmas read a step that succeeded backwards, from its outcome to the bytes it
must have met.
-/

namespace Windoge.Lz4

open Sequences LittleEndian EStateM.Result List Windoge.Flow Function

/-- A block of an archive: its bytes, what they expand to, and the copies in them. -/
structure Lz4Block where
  encoded : List UInt8
  output : List UInt8
  copies : List Copy

/-- The block with its frame header. -/
def Lz4Block.frame (b : Lz4Block) : List UInt8 :=
  encode 4 b.output.length ++ encode 4 b.encoded.length ++ b.encoded

/-- The output is the plain expansion of the bytes, and every copy reaches back to a byte of the
block that is still in the window. -/
structure Lz4Block.Expands (b : Lz4Block) : Prop where
  expand : Sequences.expand b.encoded = some (b.output, b.copies)
  offsets : ∀ c ∈ b.copies, 1 ≤ c.offset ∧ c.offset ≤ min lz4WindowSize c.produced

variable {σ P : Type} [DecidableEq P] {api : FileApi σ P} {files : σ → P → Option (List UInt8)}
  {base : P → Option (List UInt8)} {src dst : P} {archive : List UInt8}

section Steps

variable (works : api.Works files) {before out input after : List UInt8} {d d' : Lz4Decoder σ P}
include works

variable {originalSize fuel target result : ℕ} {rest : List UInt8}

section

variable (h : Decoding files base src dst archive out (input ++ after) d)
include h

/-- A length that was read is the one at the front of the block. -/
theorem lz4ReadLength_reads {length : ℕ}
    (hok : lz4ReadLength api (archive.length - after.length) fuel length d = .ok result d') :
    ∃ rest, readExtension length input = some (result, rest) ∧
      Decoding files base src dst archive out (rest ++ after) d' := by
  induction fuel generalizing length input d with
  | zero => cases hok
  | succ fuel ih =>
    have hindex := h.index_add
    rw [length_append] at hindex
    rw [lz4ReadLength, get_bind] at hok
    split_ifs at hok
    · cases hok
    cases input with
    | nil => simp only [length_nil] at hindex; omega
    | cons b tail =>
      obtain ⟨d₁, htake, h₁⟩ := lz4Take_spec works [b] 1 rfl h
      rw [bind_ok htake] at hok
      simp only [getD_cons_zero] at hok
      rw [readExtension]
      split at hok
      · cases hok
      split at hok
      · rename_i hfull
        rw [if_pos hfull]
        exact ih h₁ hok
      · rename_i hlast
        cases hok
        exact ⟨tail, by rw [if_neg hlast], h₁⟩

theorem lz4FullLength_reads {nibble length : ℕ}
    (hok : lz4FullLength api (archive.length - after.length) nibble length d = .ok result d') :
    ∃ rest, readLength nibble length input = some (result, rest) ∧
      Decoding files base src dst archive out (rest ++ after) d' := by
  rw [lz4FullLength] at hok
  rw [readLength]
  split at hok
  · rename_i hlong
    rw [if_pos hlong]
    exact lz4ReadLength_reads works h hok
  · rename_i hshort
    cases hok
    exact ⟨input, by rw [if_neg hshort], h⟩

end

/-- The literals that were copied are the ones after the token. -/
theorem lz4DecodeLiterals_reads {token : UInt8}
    (h : Decoding files base src dst archive out (token :: input ++ after) d)
    (hok : lz4DecodeLiterals api target (archive.length - after.length) d = .ok result d') :
    result = token.toNat ∧ ∃ length rest,
      readLength (token.toNat / 16) (token.toNat / 16) input = some (length, rest) ∧
      length ≤ rest.length ∧
      Decoding files base src dst archive (out ++ rest.take length) (rest.drop length ++ after) d' := by
  obtain ⟨d₁, htake, h₁⟩ := lz4Take_spec works [token] 1 rfl h
  rw [lz4DecodeLiterals, bind_ok htake] at hok
  simp only [getD_cons_zero, Nat.shiftRight_eq_div_pow] at hok
  obtain ⟨length, d₂, hlength, hok⟩ := bind_eq_ok hok
  obtain ⟨rest, hread, h₂⟩ := lz4FullLength_reads works h₁ hlength
  have hindex := h₂.index_add
  rw [length_append] at hindex
  rw [get_bind] at hok
  split_ifs at hok
  · cases hok
  have hfits : length ≤ rest.length := by omega
  have hsplit : rest ++ after = rest.take length ++ (rest.drop length ++ after) := by
    rw [← append_assoc, take_append_drop]
  have hlen := length_take_of_le hfits
  rw [hsplit] at h₂
  obtain ⟨d₃, hcopy, h₃⟩ := lz4CopyLiterals_spec works length (rest.take length) hlen.le h₂
  rw [hlen] at hcopy
  rw [bind_ok hcopy] at hok
  cases hok
  exact ⟨rfl, length, rest, hread, hfits, h₃⟩

/-- The copy that was made is the one after the literals, and stays inside the block. -/
theorem lz4DecodeCopy_reads {token : ℕ}
    (h : Decoding files base src dst archive (before ++ out) (input ++ after) d)
    (hok : lz4DecodeCopy api before.length target (archive.length - after.length) token d = .ok () d') :
    ∃ low high tail length rest, input = low :: high :: tail ∧
      (1 ≤ decode [low, high] ∧ decode [low, high] ≤ lz4WindowSize ∧ decode [low, high] ≤ out.length) ∧
      readLength (token % 16) (token % 16 + 4) tail = some (length, rest) ∧
      Decoding files base src dst archive (before ++ copyBack (decode [low, high]) length out)
        (rest ++ after) d' := by
  have hindex := h.index_add
  rw [length_append] at hindex
  rw [lz4DecodeCopy, get_bind] at hok
  split_ifs at hok
  · cases hok
  obtain _ | ⟨low, _ | ⟨high, tail⟩⟩ := input
  · rw [length_nil] at hindex
    omega
  · rw [length_singleton] at hindex
    omega
  obtain ⟨d₁, htake, h₁⟩ := lz4Take_spec works [low, high] 2 rfl h
  rw [bind_ok htake] at hok
  rw [get_bind] at hok
  split_ifs at hok
  · cases hok
  have hproduced : d₁.output.produced = before.length + out.length := by rw [h₁.produced, length_append]
  obtain ⟨length, d₂, hlength, hok⟩ := bind_eq_ok hok
  have hmask := Nat.and_two_pow_sub_one_eq_mod token 4
  rw [hmask] at hlength
  obtain ⟨rest, hread, h₂⟩ := lz4FullLength_reads works h₁ hlength
  split_ifs at hok
  · cases hok
  obtain ⟨d₃, hcopy, h₃⟩ := lz4CopyMatch_spec works (decode [low, high]) length h₂ (by omega)
    (by omega) (by rw [length_append]; omega)
  rw [hcopy] at hok
  cases hok
  rw [copyBack_append _ _ _ _ (by omega)] at h₃
  exact ⟨low, high, tail, length, rest, rfl, by omega, hread, h₃⟩

/-- A sequence loop that ends at the end of its block has made its plain expansion. -/
theorem lz4DecodeBlock_reads {rounds : ℕ} (hrounds : input.length ≤ rounds)
    (h : Decoding files base src dst archive (before ++ out) (input ++ after) d)
    (hok : lz4DecodeBlock api before.length target (archive.length - after.length) fuel d = .ok () d')
    (hend : d'.srcIdx = archive.length - after.length) :
    ∃ result copies, expandFrom rounds input out = some (result, copies) ∧
      (∀ c ∈ copies, 1 ≤ c.offset ∧ c.offset ≤ min lz4WindowSize c.produced) ∧
      Decoding files base src dst archive (before ++ result) after d' := by
  induction fuel generalizing input out d rounds with
  | zero => cases hok
  | succ fuel ih =>
    have hindex := h.index_add
    rw [length_append] at hindex
    have hnothing : input = [] → expandFrom rounds input out = some (out, []) := by
      rintro rfl
      cases rounds <;> rfl
    rw [lz4DecodeBlock, get_bind] at hok
    split at hok
    · rename_i hopen
      cases input with
      | nil => simp only [length_nil] at hindex; omega
      | cons token input =>
        obtain ⟨rounds, rfl⟩ : ∃ n, rounds = n + 1 := ⟨rounds - 1, by simp at hrounds; omega⟩
        obtain ⟨more, d₁, hround, hok⟩ := bind_eq_ok hok
        obtain ⟨result, d₂, hliterals, hround⟩ := bind_eq_ok hround
        obtain ⟨rfl, length, rest, hread, hfits, h₂⟩ := lz4DecodeLiterals_reads works h hliterals
        have hindex₂ := h₂.index_add
        rw [length_append, length_drop] at hindex₂
        rw [get_bind] at hround
        split at hround
        · -- The target is reached with the literals: they are the last bytes of the block.
          split_ifs at hround
          · cases hround
          cases hround
          cases hok
          have hall : rest.length = length := by omega
          rw [drop_eq_nil_of_le (by omega), nil_append, take_of_length_le (by omega), append_assoc] at h₂
          exact ⟨_, [], expandFrom_literals hread hall, by simp, h₂⟩
        · obtain ⟨_, d₃, hcopy, hround⟩ := bind_eq_ok hround
          cases hround
          rw [append_assoc] at h₂
          obtain ⟨low, high, tail, matchLength, rest', hdrop, hoffset, hmatch, h₃⟩ :=
            lz4DecodeCopy_reads works h₂ hcopy
          have hshorter : rest'.length ≤ rounds := by
            have h₁ := readLength_length hread
            have h₂ := readLength_length hmatch
            have h₃ := congrArg List.length hdrop
            simp only [length_drop, length_cons] at h₃ hrounds
            omega
          obtain ⟨final, copies, hexpand, hcopies, hfinal⟩ := ih hshorter h₃ hok
          refine ⟨final, _, expandFrom_copy hread hfits hdrop hoffset.1 hoffset.2.2 hmatch hexpand, ?_, hfinal⟩
          intro c hc
          rcases mem_cons.mp hc with rfl | hc
          · dsimp only
            omega
          · exact hcopies c hc
    · -- The loop is left with the index at the end of the block.
      cases hok
      have hempty : input = [] := eq_nil_of_length_eq_zero (by omega)
      refine ⟨out, [], hnothing hempty, by simp, ?_⟩
      rwa [hempty] at h

/-- The bounds that were read are those of a frame header. -/
theorem lz4BlockBounds_reads {bounds : ℕ × ℕ} (h : Decoding files base src dst archive out rest d)
    (hok : lz4BlockBounds api originalSize archive.length d = .ok bounds d') :
    ∃ size encoded after, rest = encode 4 size ++ encode 4 encoded.length ++ (encoded ++ after) ∧
      bounds = (out.length + size, archive.length - after.length) ∧
      Decoding files base src dst archive out (encoded ++ after) d' := by
  have hindex := h.index_add
  rw [lz4BlockBounds, get_bind] at hok
  split_ifs at hok
  · cases hok
  have hheader : (rest.take 8).length = 8 := length_take_of_le (by omega)
  rw [← take_append_drop 8 rest] at h
  obtain ⟨d₁, htake, h₁⟩ := lz4Take_spec works (rest.take 8) 8 hheader h
  have hindex₁ := h₁.index_add
  rw [bind_ok htake, get_bind] at hok
  split_ifs at hok
  · cases hok
  cases hok
  set compressed := decode ((rest.take 8).drop 4) with hcompressed
  have hencoded : ((rest.drop 8).take compressed).length = compressed := length_take_of_le (by omega)
  have hfields : encode 4 (decode ((rest.take 8).take 4)) ++ encode 4 compressed = rest.take 8 := by
    have hfirst := encode_decode ((rest.take 8).take 4)
    have hsecond := encode_decode ((rest.take 8).drop 4)
    rw [length_take, hheader, min_eq_left (by decide)] at hfirst
    rw [length_drop, hheader, Nat.add_sub_cancel_left 4 4] at hsecond
    rw [hfirst, hsecond, take_append_drop]
  rw [← take_append_drop compressed (rest.drop 8)] at h₁
  refine ⟨decode ((rest.take 8).take 4), (rest.drop 8).take compressed, (rest.drop 8).drop compressed, ?_, ?_, h₁⟩
  · rw [hencoded, hfields, take_append_drop, take_append_drop]
  · rw [h₁.produced, length_drop]
    congr 1
    omega

/-- The frames that were decoded stand at the front of what was left to read. -/
theorem lz4DecodeBlocks_reads (h : Decoding files base src dst archive out rest d)
    (hok : lz4DecodeBlocks api true originalSize archive.length fuel d = .ok () d') :
    ∃ (blocks : List Lz4Block) (after : List UInt8), (∀ b ∈ blocks, b.Expands) ∧
      rest = blocks.flatMap Lz4Block.frame ++ after ∧
      Decoding files base src dst archive (out ++ blocks.flatMap Lz4Block.output) after d' := by
  induction fuel generalizing out rest d with
  | zero => cases hok
  | succ fuel ih =>
    rw [lz4DecodeBlocks_succ] at hok
    split at hok
    · obtain ⟨bounds, d₁, hbounds, hok⟩ := bind_eq_ok hok
      obtain ⟨size, encoded, after, rfl, rfl, h₁⟩ := lz4BlockBounds_reads works h hbounds
      obtain ⟨_, d₂, hblock, hok⟩ := bind_eq_ok hok
      rw [get_bind] at hok
      split at hok
      · cases hok
      rename_i hchecked
      simp only [ne_eq, not_or, not_not] at hchecked
      rw [h.produced] at hblock
      have hopened : Decoding files base src dst archive (out ++ []) (encoded ++ after) d₁ := by
        rwa [append_nil]
      obtain ⟨output, copies, hexpand, hcopies, h₂⟩ := lz4DecodeBlock_reads works le_rfl hopened hblock hchecked.2
      have hsize : output.length = size := by
        have hproduced := h₂.produced
        rw [length_append] at hproduced
        omega
      obtain ⟨blocks, final, hexpands, hrest, h₃⟩ := ih h₂ hok
      refine ⟨⟨encoded, output, copies⟩ :: blocks, final, ?_, ?_, ?_⟩
      · intro b hb
        rcases mem_cons.mp hb with rfl | hb
        · exact ⟨hexpand, hcopies⟩
        · exact hexpands b hb
      · rw [flatMap_cons, Lz4Block.frame, hrest, hsize]
        simp only [append_assoc]
      · rwa [flatMap_cons, ← append_assoc]
    · cases hok
      exact ⟨[], rest, by simp, rfl, by simpa using h⟩

/-- A file without frames is one block. -/
theorem lz4DecodeBlocks_reads_unframed (hpos : 0 < originalSize)
    (h : Decoding files base src dst archive [] input d)
    (hok : lz4DecodeBlocks api false originalSize archive.length fuel d = .ok () d') :
    ∃ b : Lz4Block, b.Expands ∧ input = b.encoded ∧ Decoding files base src dst archive b.output [] d' := by
  cases fuel with
  | zero => cases hok
  | succ fuel =>
    rw [lz4DecodeBlocks_succ, if_pos (by rw [h.produced]; exact hpos)] at hok
    obtain ⟨bounds, d₁, hbounds, hok⟩ := bind_eq_ok hok
    cases hbounds
    obtain ⟨_, d₂, hblock, hok⟩ := bind_eq_ok hok
    rw [get_bind] at hok
    split at hok
    · cases hok
    rename_i hchecked
    simp only [ne_eq, not_or, not_not] at hchecked
    cases hok
    rw [h.produced] at hblock
    have hopened : Decoding files base src dst archive ([] ++ []) (input ++ []) d := by
      rwa [append_nil, append_nil]
    obtain ⟨output, copies, hexpand, hcopies, h₂⟩ := lz4DecodeBlock_reads works le_rfl hopened hblock hchecked.2
    exact ⟨⟨input, output, copies⟩, ⟨hexpand, hcopies⟩, rfl, h₂⟩

/-- The checks at the end pass only with the original size produced and nothing left. -/
theorem lz4Finish_reads (h : Decoding files base src dst archive out rest d)
    (hok : lz4Finish api originalSize archive.length d = .ok () d') :
    rest = [] ∧ out.length = originalSize ∧ files d'.fs = update base dst (some out) := by
  have hindex := h.index_add
  have hchecked : out.length = originalSize ∧ rest = [] := by
    rw [lz4Finish, get_bind] at hok
    split at hok
    · cases hok
    · rename_i hchecked
      rw [h.produced] at hchecked
      exact ⟨by omega, eq_nil_of_length_eq_zero (by omega)⟩
  obtain ⟨rfl, rfl⟩ := hchecked
  obtain ⟨d'', hfinish, hfiles⟩ := lz4Finish_spec works h
  rw [hfinish] at hok
  cases hok
  exact ⟨rfl, rfl, hfiles⟩

end Steps

section Files

variable (works : api.Works files) (fs : σ) (history : ℕ → UInt8) {srcPath dstPath : P}
  (hsrc : files fs srcPath = some archive) (hdst : files fs dstPath = none)
include works hsrc hdst

/-- The blocks of an accepted file, and what it leaves. -/
theorem kernelLz4Decompress_expands
    (hcode : (kernelLz4Decompress api history fs srcPath archive.length dstPath).code = 0) :
    ∃ blocks : List Lz4Block, (∀ b ∈ blocks, b.Expands) ∧
      (if lz4IsFramed archive then archive.drop 8 = blocks.flatMap Lz4Block.frame
        else archive.drop 4 = blocks.flatMap Lz4Block.encoded ∧ blocks.length ≤ 1) ∧
      files (kernelLz4Decompress api history fs srcPath archive.length dstPath).fs =
        update (files fs) dstPath (some (blocks.flatMap Lz4Block.output)) ∧
      (blocks.flatMap Lz4Block.output).length = lz4OriginalSize archive := by
  have hlen : 4 ≤ archive.length := by
    by_contra hshort
    rw [kernelLz4Decompress_short fs history srcPath dstPath (by omega)] at hcode
    cases hcode
  by_cases hempty : lz4OriginalSize archive = 0
  · obtain ⟨haccepted, hcreated⟩ := kernelLz4Decompress_empty works fs history hsrc hdst hlen hempty
    have hexact := haccepted.mp hcode
    refine ⟨[], by simp, ?_, hcreated hcode, hempty.symm⟩
    split
    · rename_i hframed
      rw [if_pos hframed] at hexact
      exact drop_eq_nil_of_le hexact.le
    · rename_i hframed
      rw [if_neg hframed] at hexact
      exact ⟨drop_eq_nil_of_le hexact.le, zero_le⟩
  · obtain ⟨d, h, hresult⟩ := kernelLz4Decompress_opened works fs history hsrc hdst hlen hempty
    cases hall : lz4DecodeAll api archive d with
    | error e d' =>
      rw [hresult, hall] at hcode
      cases hcode
    | ok a d' =>
      rw [hresult, hall]
      obtain ⟨_, d₁, hblocks, hfinish⟩ := bind_eq_ok hall
      cases hframed : lz4IsFramed archive with
      | true =>
        rw [hframed, if_pos rfl] at h
        rw [hframed] at hblocks
        obtain ⟨blocks, after, hexpands, hdrop, h₁⟩ := lz4DecodeBlocks_reads works h hblocks
        obtain ⟨rfl, hsize, hfiles⟩ := lz4Finish_reads works h₁ hfinish
        rw [append_nil] at hdrop
        exact ⟨blocks, hexpands, hdrop, hfiles, hsize⟩
      | false =>
        rw [hframed, if_neg Bool.false_ne_true] at h
        rw [hframed] at hblocks
        obtain ⟨b, hexpands, hdrop, h₁⟩ := lz4DecodeBlocks_reads_unframed works (pos_of_ne_zero hempty) h hblocks
        obtain ⟨-, hsize, hfiles⟩ := lz4Finish_reads works h₁ hfinish
        refine ⟨[b], by simpa using hexpands, ?_, by simpa using hfiles, by simpa using hsize⟩
        exact ⟨by simpa using hdrop, le_rfl⟩

end Files

/-- On any byte string as archive, with a store that works and records what is read of it and a
destination that is absent: the decoder's loops end, it reads the archive only and only before its
end, and if it returns 0 then the file is a header and blocks, the output is the plain expansion
of each block against its own full output, its length is the one in the header, and every copy
reaches back between one byte and the smaller of 4096 and what its block has produced. -/
theorem decoder_matches_plain_expansion (works : api.Works files) {reads : σ → List (P × ℕ × ℕ)}
    (records : api.Records reads) (fs : σ) (history : ℕ → UInt8) (srcPath dstPath : P)
    (hsrc : files fs srcPath = some archive) (hdst : files fs dstPath = none) :
    let result := kernelLz4Decompress api history fs srcPath archive.length dstPath
    LoopsSettle api files srcPath archive ∧ (∀ r ∈ reads result.fs, r ∈ reads fs ∨
        r.1 = srcPath ∧ r.2.1 < archive.length ∧ r.2.1 + r.2.2 ≤ archive.length) ∧
      (result.code = 0 → ∃ blocks : List Lz4Block, (∀ b ∈ blocks, b.Expands) ∧
        (if lz4IsFramed archive then archive.drop 8 = blocks.flatMap Lz4Block.frame
          else archive.drop 4 = blocks.flatMap Lz4Block.encoded ∧ blocks.length ≤ 1) ∧
        files result.fs dstPath = some (blocks.flatMap Lz4Block.output) ∧
        (blocks.flatMap Lz4Block.output).length = lz4OriginalSize archive) := by
  refine ⟨loopsSettle works srcPath archive, kernelLz4Decompress_reads records history fs srcPath dstPath
    archive.length, fun hcode => ?_⟩
  obtain ⟨blocks, hexpands, hlayout, hfiles, hsize⟩ :=
    kernelLz4Decompress_expands works fs history hsrc hdst hcode
  exact ⟨blocks, hexpands, hlayout, by rw [hfiles, update_self], hsize⟩

/-- A header for ten bytes, and a block of one literal and a match that overlaps itself. -/
theorem decoder_matches_plain_expansion_overlap :
    let archive : List UInt8 := [10, 0, 0, 0, 0x15, 0x61, 1, 0]
    let fs : (String → Option (List UInt8)) × List (String × ℕ × ℕ) :=
      (Function.update (fun _ => none) "a.lz4" (some archive), [])
    let result := kernelLz4Decompress memoryApi.recording (fun _ => 0) fs "a.lz4" archive.length "b"
    result.code = 0 ∧ LoopsSettle memoryApi.recording Prod.fst "a.lz4" archive ∧ (∀ r ∈ result.fs.2, r ∈ fs.2 ∨
        r.1 = "a.lz4" ∧ r.2.1 < archive.length ∧ r.2.1 + r.2.2 ≤ archive.length) ∧
      (result.code = 0 → ∃ blocks : List Lz4Block, (∀ b ∈ blocks, b.Expands) ∧
        (if lz4IsFramed archive then archive.drop 8 = blocks.flatMap Lz4Block.frame
          else archive.drop 4 = blocks.flatMap Lz4Block.encoded ∧ blocks.length ≤ 1) ∧
        result.fs.1 "b" = some (blocks.flatMap Lz4Block.output) ∧
        (blocks.flatMap Lz4Block.output).length = lz4OriginalSize archive) :=
  ⟨by decide +kernel, decoder_matches_plain_expansion (memoryApi_works.recording)
    (recording_records memoryApi) _ _ "a.lz4" "b" rfl rfl⟩

/-!
## Cut and extended archives

An archive that lost bytes at its end, or got bytes added there, is refused. The frame headers
tell how much is left to come, so a cut shows up in the first frame it touches; added bytes are
left over when the original size has been produced. A cut inside the eight header bytes leaves
a file without the marker, and what is left of the marker is too short for a sequence.
-/

variable {api : FileApi σ P} {files : σ → P → Option (List UInt8)}
  {base : P → Option (List UInt8)} {src dst : P} {archive cut : List UInt8} {d : Lz4Decoder σ P}

section Blocks

variable (works : api.Works files)
include works

/-- A frame that is cut inside its header or its encoding has no bounds. -/
theorem lz4BlockBounds_cut {out encoded rest : List UInt8} (size originalSize : ℕ)
    (hencoded : encoded.length < 2 ^ 32)
    (hcut : cut <+: encode 4 size ++ encode 4 encoded.length ++ (encoded ++ rest))
    (hshort : cut.length < 8 + encoded.length) (h : Decoding files base src dst archive out cut d) :
    ∃ d', lz4BlockBounds api originalSize archive.length d = .error () d' := by
  have hindex := h.index_add
  rw [lz4BlockBounds, get_bind]
  by_cases hheader : cut.length < 8
  · exact ⟨d, by rw [if_pos (by omega)]; rfl⟩
  have hfields : cut.take 8 = encode 4 size ++ encode 4 encoded.length := by
    obtain ⟨tail, htail⟩ := hcut
    have htake := congrArg (take 8) htail
    rwa [take_append_of_le_length (by omega), take_left' (by simp)] at htake
  rw [← take_append_drop 8 cut, hfields] at h
  obtain ⟨d₁, htake, h₁⟩ := lz4Take_spec works _ 8 (by simp) h
  have hindex₁ := h₁.index_add
  rw [length_drop] at hindex₁
  have hsecond : decode ((encode 4 size ++ encode 4 encoded.length).drop 4) = encoded.length := by
    rw [drop_left' (encode_length 4 size), decode_encode_of_lt (by omega)]
  refine ⟨d₁, ?_⟩
  rw [if_neg (by omega), bind_ok htake, get_bind, if_pos]
  · rfl
  · exact .inr (.inr (.inr (by rw [hsecond]; omega)))

/-- The outer loop stops at the first frame that is not whole. -/
theorem lz4DecodeBlocks_cut {content body : List UInt8} {position : ℕ} (hframed : Framed content position body)
    (hsmall : content.length < 2 ^ 32) (fuel : ℕ) (hcut : cut <+: body) (hproper : cut ≠ body)
    (h : Decoding files base src dst archive (content.take position) cut d) :
    ∃ d', lz4DecodeBlocks api true content.length archive.length fuel d = .error () d' := by
  induction hframed generalizing fuel d cut with
  | done => exact absurd (prefix_nil.mp hcut) hproper
  | @frame position size sequences rest hpos hsize hfactors hencoded _ ih =>
    cases fuel with
    | zero => exact ⟨d, rfl⟩
    | succ fuel =>
      by_cases hshort : cut.length < 8 + (encodeAll sequences).length
      · obtain ⟨d₁, hbounds⟩ := lz4BlockBounds_cut works size content.length hencoded hcut hshort h
        have hmore : d.output.produced < content.length := by rw [h.produced, length_take]; omega
        rw [lz4DecodeBlocks]
        simp only [get_bind, if_pos hmore, ↓reduceIte]
        exact ⟨d₁, bind_error hbounds⟩
      · -- The frame is whole, so the cut is in the frames after it.
        obtain ⟨rest', rfl, hrest'⟩ : ∃ rest', cut = encode 4 size ++
            encode 4 (encodeAll sequences).length ++ (encodeAll sequences ++ rest') ∧ rest' <+: rest := by
          rw [← append_assoc] at hcut
          obtain ⟨rest', rfl⟩ := prefix_of_prefix_length_le (prefix_append _ _) hcut (by simp; omega)
          exact ⟨rest', by rw [append_assoc], (prefix_append_right_inj _).mp hcut⟩
        have hproper' : rest' ≠ rest := by
          rintro rfl
          exact hproper rfl
        obtain ⟨d₁, hframe, h₁⟩ := lz4DecodeBlocks_frame works hsmall hpos hsize hfactors hencoded h
        obtain ⟨d₂, hlater⟩ := ih fuel hrest' hproper' h₁
        exact ⟨d₂, hframe.trans hlater⟩

/-- What is left of the marker in a cut header is not a sequence. -/
theorem lz4DecodeBlocks_marker {originalSize : ℕ} (fuel : ℕ) (hsize : originalSize ≠ 0)
    (hcut : cut <+: lz4Marker) (hproper : cut ≠ lz4Marker) (h : Decoding files base src dst archive [] cut d) :
    ∃ d', lz4DecodeBlocks api false originalSize archive.length fuel d = .error () d' := by
  have hindex := h.index_add
  have hproduced : d.output.produced = 0 := h.produced
  cases fuel with
  | zero => exact ⟨d, rfl⟩
  | succ fuel =>
    rw [lz4DecodeBlocks]
    simp only [get_bind, if_pos (show d.output.produced < originalSize by omega), Bool.false_eq_true, ↓reduceIte]
    cases cut with
    | nil =>
      -- No byte is left: the loop over sequences is not entered.
      have hdone : lz4DecodeBlock api d.output.produced originalSize archive.length
          (archive.length + 1) d = .ok () d := by
        rw [lz4DecodeBlock, get_bind, if_neg (by simp at hindex; omega)]
        rfl
      refine ⟨d, ?_⟩
      rw [bind_ok (pure_run (originalSize, archive.length) d), bind_ok hdone, get_bind,
        if_pos (.inl (by dsimp only; omega))]
      rfl
    | cons token rest =>
      -- `L` announces four literals, and at most two bytes follow.
      obtain ⟨rfl, hrest⟩ := cons_prefix_cons.mp hcut
      have hlen : rest.length < 3 := by
        have hle := hrest.length_le
        have hne : rest.length ≠ 3 := fun heq => hproper (congrArg _ (hrest.eq_of_length heq))
        simp only [length_cons, length_nil] at hle
        omega
      obtain ⟨d₁, htoken, h₁⟩ := lz4Take_spec works [0x4C] 1 rfl h
      have hindex₁ := h₁.index_add
      have hliterals : lz4DecodeLiterals api originalSize archive.length d = .error () d₁ := by
        rw [lz4DecodeLiterals, bind_ok htoken]
        change (lz4FullLength api archive.length 4 4 >>= _) d₁ = _
        rw [lz4FullLength, if_neg (by decide), bind_ok (pure_run 4 d₁), get_bind, if_pos (.inr (by omega))]
        rfl
      have hblock : lz4DecodeBlock api d.output.produced originalSize archive.length
          (archive.length + 1) d = .error () d₁ := by
        rw [lz4DecodeBlock, get_bind, if_pos (by simp at hindex; omega)]
        exact bind_error (bind_error hliterals)
      refine ⟨d₁, ?_⟩
      rw [bind_ok (pure_run (originalSize, archive.length) d)]
      exact bind_error hblock

end Blocks

section Files

variable (works : api.Works files) (fs : σ) (history : ℕ → UInt8) {srcPath dstPath : P}
  {content body : List UInt8} (hsmall : content.length < 2 ^ 32)
include works hsmall

omit hsmall in
/-- A file is refused when decoding it stops early. -/
theorem kernelLz4Decompress_refused (hsrc : files fs srcPath = some archive)
    (hdst : files fs dstPath = none) (hlen : 4 ≤ archive.length)
    (hsize : lz4OriginalSize archive = content.length) (hpos : content ≠ [])
    (hstops : ∀ d, Decoding files (files fs) srcPath dstPath archive []
        (archive.drop (if lz4IsFramed archive then 8 else 4)) d →
      ∃ d', lz4DecodeAll api archive d = .error () d') :
    (kernelLz4Decompress api history fs srcPath archive.length dstPath).code = -1 := by
  have hnonzero : lz4OriginalSize archive ≠ 0 := by
    rw [hsize]
    exact (length_pos_of_ne_nil hpos).ne'
  obtain ⟨d, h, hresult⟩ := kernelLz4Decompress_opened works fs history hsrc hdst hlen hnonzero
  obtain ⟨d', hstop⟩ := hstops d h
  rw [hresult, hstop]

/-- An archive that lost frames or a part of one is refused. -/
theorem cut_frames_refused (hframed : Framed content 0 body) (hpos : content ≠ []) (hcut : cut <+: body)
    (hproper : cut ≠ body) (hsrc : files fs srcPath = some (archiveOf content cut))
    (hdst : files fs dstPath = none) :
    (kernelLz4Decompress api history fs srcPath (archiveOf content cut).length dstPath).code = -1 := by
  have hsize := lz4OriginalSize_archiveOf cut hsmall
  have hmarker := lz4IsFramed_archiveOf content cut
  refine kernelLz4Decompress_refused works fs history hsrc hdst
    (by rw [archiveOf_length]; omega) hsize hpos fun d h => ?_
  rw [hmarker, if_pos rfl, archiveOf_drop] at h
  obtain ⟨d', hstop⟩ := lz4DecodeBlocks_cut works hframed hsmall
    ((archiveOf content cut).length + 1) hcut hproper h
  exact ⟨d', by rw [lz4DecodeAll, hmarker, hsize, bind_error hstop]⟩

/-- An archive with bytes added is refused. -/
theorem extended_refused (hframed : Framed content 0 body) {extra : List UInt8} (hpos : content ≠ [])
    (hextra : extra ≠ []) (hsrc : files fs srcPath = some (archiveOf content (body ++ extra)))
    (hdst : files fs dstPath = none) :
    (kernelLz4Decompress api history fs srcPath (archiveOf content (body ++ extra)).length
      dstPath).code = -1 := by
  have hlen := archiveOf_length content (body ++ extra)
  rw [length_append] at hlen
  have hsize := lz4OriginalSize_archiveOf (body ++ extra) hsmall
  have hmarker := lz4IsFramed_archiveOf content (body ++ extra)
  refine kernelLz4Decompress_refused works fs history hsrc hdst (by omega) hsize hpos fun d h => ?_
  rw [hmarker, if_pos rfl, archiveOf_drop] at h
  obtain ⟨d₁, hblocks, h₁⟩ := lz4DecodeBlocks_spec works hframed hsmall
    ((archiveOf content (body ++ extra)).length + 1) (by omega) h
  have hindex := h₁.index_add
  have hleft := length_pos_of_ne_nil hextra
  refine ⟨d₁, ?_⟩
  rw [lz4DecodeAll, hmarker, hsize, bind_ok hblocks, lz4Finish, get_bind, if_pos (.inr (by omega))]
  rfl

/-- An archive cut inside its marker is refused. -/
theorem cut_marker_refused (hpos : content ≠ []) (hcut : cut <+: lz4Marker) (hproper : cut ≠ lz4Marker)
    (hsrc : files fs srcPath = some (encode 4 content.length ++ cut)) (hdst : files fs dstPath = none) :
    (kernelLz4Decompress api history fs srcPath (encode 4 content.length ++ cut).length dstPath).code = -1 := by
  have hsize : lz4OriginalSize (encode 4 content.length ++ cut) = content.length := by
    rw [lz4OriginalSize, take_left' (encode_length _ _), decode_encode_of_lt (by omega)]
  have hshort : cut.length < 4 := by
    have hle := hcut.length_le
    exact lt_of_le_of_ne hle fun heq => hproper (hcut.eq_of_length heq)
  have hmarker : lz4IsFramed (encode 4 content.length ++ cut) = false := by
    rw [lz4IsFramed, decide_eq_false (by simp; omega), Bool.false_and]
  refine kernelLz4Decompress_refused works fs history hsrc hdst (by simp) hsize hpos fun d h => ?_
  rw [hmarker, if_neg Bool.false_ne_true, drop_left' (encode_length _ _)] at h
  have hnonzero : content.length ≠ 0 := (length_pos_of_ne_nil hpos).ne'
  obtain ⟨d', hstop⟩ := lz4DecodeBlocks_marker works
    ((encode 4 content.length ++ cut).length + 1) hnonzero hcut hproper h
  exact ⟨d', by rw [lz4DecodeAll, hmarker, hsize, bind_error hstop]⟩

/-- A cut archive is cut before the marker, inside it, or after it. -/
theorem cut_archive_refused (hframed : Framed content 0 body) (hpos : content ≠ [])
    (hcut : cut <+: archiveOf content body) (hproper : cut ≠ archiveOf content body)
    (hsrc : files fs srcPath = some cut) (hdst : files fs dstPath = none) :
    (kernelLz4Decompress api history fs srcPath cut.length dstPath).code = -1 := by
  by_cases hheader : cut.length < 4
  · exact kernelLz4Decompress_short fs history srcPath dstPath hheader
  rw [archiveOf, append_assoc] at hcut hproper
  obtain ⟨cut, rfl⟩ := prefix_of_prefix_length_le (prefix_append _ _) hcut (by rw [encode_length]; omega)
  rw [prefix_append_right_inj] at hcut
  have hproper : cut ≠ lz4Marker ++ body := fun heq => hproper (congrArg _ heq)
  by_cases hmarker : lz4Marker.length ≤ cut.length
  · obtain ⟨cut, rfl⟩ := prefix_of_prefix_length_le (prefix_append _ _) hcut hmarker
    rw [prefix_append_right_inj] at hcut
    rw [← append_assoc] at hsrc ⊢
    exact cut_frames_refused works fs history hsmall hframed hpos hcut
      (fun heq => hproper (congrArg _ heq)) hsrc hdst
  · have hinside := prefix_of_prefix_length_le hcut (prefix_append lz4Marker body) (by omega)
    exact cut_marker_refused works fs history hsmall hpos hinside (fun heq => hmarker (by rw [heq])) hsrc hdst

end Files

/-- Every archive of a file that is not empty is refused when it is cut short anywhere and when
anything is appended to it, wherever the changed archive is stored. -/
theorem changed_archive_rejected (works : api.Works files) (fs : σ) (srcPath packedPath : P)
    (data : List UInt8) (hpos : data ≠ []) (hsize : data.length < 2 ^ 32)
    (hsrc : files fs srcPath = some data) (hpacked : files fs packedPath = none) :
    let packed := kernelLz4Compress api fs srcPath data.length packedPath
    packed.code = 0 ∧ ∃ archive, files packed.fs packedPath = some archive ∧
      ∀ changed, changed ≠ archive → (changed <+: archive ∨ archive <+: changed) →
        ∀ fs' history changedPath dstPath, files fs' changedPath = some changed → files fs' dstPath = none →
          (kernelLz4Decompress api history fs' changedPath changed.length dstPath).code = -1 := by
  intro packed
  obtain ⟨hcode, body, hframed, hfiles⟩ := kernelLz4Compress_spec works fs hsize hsrc hpacked
  refine ⟨hcode, archiveOf data body, by rw [hfiles, update_self], ?_⟩
  intro changed hchanged hprefix fs' history changedPath dstPath hstored habsent
  rcases hprefix with hcut | ⟨extra, rfl⟩
  · exact cut_archive_refused works fs' history hsize hframed hpos hcut hchanged hstored habsent
  have hextra : extra ≠ [] := by
    rintro rfl
    exact hchanged (append_nil _)
  have hjoined : archiveOf data body ++ extra = archiveOf data (body ++ extra) := by
    simp only [archiveOf, append_assoc]
  rw [hjoined] at hstored ⊢
  exact extended_refused works fs' history hsize hframed hpos hextra hstored habsent

/-- Sixteen equal bytes packed in the memory store. -/
theorem changed_archive_rejected_memory :
    let data : List UInt8 := List.replicate 16 0x61
    let fs : String → Option (List UInt8) := Function.update (fun _ => none) "a.txt" (some data)
    let packed := kernelLz4Compress memoryApi fs "a.txt" data.length "a.lz4"
    packed.code = 0 ∧ ∃ archive, packed.fs "a.lz4" = some archive ∧
      ∀ changed, changed ≠ archive → (changed <+: archive ∨ archive <+: changed) →
        ∀ (fs' : String → Option (List UInt8)) history changedPath dstPath, fs' changedPath = some changed →
          fs' dstPath = none →
          (kernelLz4Decompress memoryApi history fs' changedPath changed.length dstPath).code = -1 :=
  changed_archive_rejected memoryApi_works _ "a.txt" "a.lz4" (replicate 16 0x61) (by decide)
    (by decide) (update_self _ _ _) rfl

end Windoge.Lz4
