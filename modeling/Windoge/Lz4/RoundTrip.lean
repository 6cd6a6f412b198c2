import Windoge.Lz4.Decode

/-!
# Decoding an archive gives back its content

A block is decoded by induction over the sequences that describe it, an archive by induction over
its frames. Nothing here depends on how the matches were chosen, so the result holds for every
encoder whose sequences describe its blocks.
-/

namespace Windoge.Lz4

open Sequences LittleEndian List Windoge.Flow Function

variable {σ P : Type} [DecidableEq P] {api : FileApi σ P} {files : σ → P → Option (List UInt8)}
  {base : P → Option (List UInt8)} {src dst : P} {archive : List UInt8} {d : Lz4Decoder σ P}
  {content out rest : List UInt8} {sequences : List Sequence}

section Blocks

variable (works : api.Works files)
include works

/-- The token and the literals of a sequence are consumed together. -/
theorem lz4DecodeLiterals_spec (s : Sequence) (rest : List UInt8) (target blockEnd : ℕ)
    (hsmall : s.literals.length < 2 ^ 32) (htarget : out.length + s.literals.length ≤ target)
    (hend : archive.length ≤ blockEnd + (encodeCopy s.matchLength s.matchOffset ++ rest).length)
    (h : Decoding files base src dst archive out (s.encode ++ rest) d) :
    ∃ d', lz4DecodeLiterals api target blockEnd d =
        .ok (encodeToken s.literals.length (s.matchLength - 4)).toNat d' ∧
      Decoding files base src dst archive (out ++ s.literals)
        (encodeCopy s.matchLength s.matchOffset ++ rest) d' := by
  rw [Sequence.encode, cons_append, append_assoc, append_assoc] at h
  obtain ⟨d₁, htoken, h₁⟩ := lz4Take_spec works [encodeToken s.literals.length (s.matchLength - 4)] 1 rfl h
  have hnibble : (encodeToken s.literals.length (s.matchLength - 4)).toNat >>> 4 = min s.literals.length 15 := by
    rw [encodeToken_toNat, Nat.shiftRight_eq_div_pow]
    omega
  obtain ⟨d₂, hlength, h₂⟩ := lz4FullLength_spec works blockEnd s.literals.length 0 h₁
    (by rw [length_append]; omega) (by unfold uint64Max; omega)
  rw [add_zero, add_zero] at hlength
  have hindex := h₂.index_add
  rw [length_append] at hindex
  have hroom : ¬ (target - d₂.output.produced < s.literals.length ∨
      blockEnd - d₂.srcIdx < s.literals.length) := by
    rw [h₂.produced]; omega
  obtain ⟨d₃, hcopy, h₃⟩ := lz4CopyLiterals_spec works s.literals.length s.literals le_rfl h₂
  refine ⟨d₃, ?_, h₃⟩
  rw [lz4DecodeLiterals, bind_ok htoken]
  simp only [getD_cons_zero, hnibble]
  rw [bind_ok hlength]
  simp only [get_bind, if_neg hroom]
  rw [bind_ok hcopy, pure_run]

/-- The copy of a sequence replays earlier bytes of the same block. -/
theorem lz4DecodeCopy_spec (rest : List UInt8) (literals length offset : ℕ)
    (blockStart target blockEnd : ℕ) (hsmall : length < 2 ^ 32) (hlength : 4 ≤ length) (hpos : 0 < offset)
    (hwindow : offset ≤ lz4WindowSize) (hback : blockStart + offset ≤ out.length)
    (htarget : out.length + length ≤ target) (hend : archive.length ≤ blockEnd + rest.length)
    (h : Decoding files base src dst archive out (encodeCopy length offset ++ rest) d) :
    ∃ d', lz4DecodeCopy api blockStart target blockEnd (encodeToken literals (length - 4)).toNat d = .ok () d' ∧
      Decoding files base src dst archive (copyBack offset length out) rest d' := by
  rw [encodeCopy, if_neg (by omega), append_assoc] at h
  have hindex := h.index_add
  rw [length_append, encode_length] at hindex
  obtain ⟨d₁, hbytes, h₁⟩ := lz4Take_spec works (encode 2 offset) 2 (encode_length _ _) h
  have hoffset : decode (encode 2 offset) = offset := decode_encode_of_lt (lt_of_le_of_lt hwindow (by decide))
  have hnibble : (encodeToken literals (length - 4)).toNat &&& 0x0F = min (length - 4) 15 := by
    rw [Nat.and_two_pow_sub_one_eq_mod _ 4, encodeToken_toNat]
    omega
  obtain ⟨d₂, hfull, h₂⟩ := lz4FullLength_spec works blockEnd (length - 4) 4 h₁ hend (by unfold uint64Max; omega)
  have hchecked : ¬ (offset = 0 ∨ lz4WindowSize < offset ∨ d₁.output.produced - blockStart < offset) := by
    rw [h₁.produced]; omega
  have hfits : ¬ target - d₁.output.produced < length := by rw [h₁.produced]; omega
  obtain ⟨d₃, hcopy, h₃⟩ := lz4CopyMatch_spec works offset length h₂ hpos hwindow (by omega)
  refine ⟨d₃, ?_, h₃⟩
  rw [lz4DecodeCopy]
  simp only [get_bind, if_neg (show ¬ blockEnd - d.srcIdx < 2 by
    simp only [length_append] at hindex; omega)]
  rw [bind_ok hbytes]
  simp only [hoffset, get_bind, if_neg hchecked, hnibble]
  rw [bind_ok hfull, show length - 4 + 4 = length by omega, if_neg hfits, hcopy]

/-- The sequence loop rebuilds the rest of a block from sequences that describe it. -/
theorem lz4DecodeBlock_spec {before block : List UInt8} {start : ℕ}
    (hfactors : Factors lz4WindowSize block start sequences) (hsmall : block.length < 2 ^ 32) (fuel : ℕ)
    (hfuel : (encodeAll sequences).length < fuel)
    (h : Decoding files base src dst archive (before ++ block.take start) (encodeAll sequences ++ rest) d) :
    ∃ d', lz4DecodeBlock api before.length (before.length + block.length)
        (archive.length - rest.length) fuel d = .ok () d' ∧
      Decoding files base src dst archive (before ++ block) rest d' := by
  have hout {k : ℕ} (hk : k ≤ block.length) : (before ++ block.take k).length = before.length + k := by
    rw [length_append, length_take_of_le hk]
  induction hfactors generalizing fuel d with
  | @last start hstart =>
    have hindex := h.index_add
    simp only [encodeAll, flatMap_cons, flatMap_nil, append_nil] at h hindex hfuel
    rw [length_append] at hindex
    obtain _ | fuel := fuel
    · omega
    have hpos : 0 < (Sequence.encode ⟨block.drop start, 0, 0⟩).length := by simp [Sequence.encode]
    have hlits : (block.drop start).length = block.length - start := length_drop
    have hstarted := @hout start (by omega)
    have hcond : d.srcIdx < archive.length - rest.length ∧ d.output.produced < before.length + block.length := by
      rw [h.produced, hstarted]; omega
    obtain ⟨d₁, hliterals, h₁⟩ := lz4DecodeLiterals_spec works ⟨block.drop start, 0, 0⟩ rest
      (before.length + block.length) (archive.length - rest.length)
      (show (block.drop start).length < _ by omega) (show _ + (block.drop start).length ≤ _ by omega)
      (by simp only [encodeCopy, ↓reduceIte, nil_append]; omega) h
    rw [append_assoc, take_append_drop, encodeCopy, if_pos rfl, nil_append] at h₁
    have hend : d₁.srcIdx = archive.length - rest.length := by
      have := h₁.index_add
      omega
    refine ⟨d₁, ?_, h₁⟩
    rw [lz4DecodeBlock]
    simp only [get_bind, if_pos hcond]
    have hround : lz4DecodeSequence api before.length (before.length + block.length)
        (archive.length - rest.length) d = .ok false d₁ := by
      rw [lz4DecodeSequence, bind_ok hliterals]
      simp only [get_bind, h₁.produced, length_append, ↓reduceIte, hend, ne_eq, not_true_eq_false, pure_run]
    rw [bind_ok hround]
    rfl
  | @copy start literals length offset sequences hlength hpos hwindow hback hroom hmatch _ ih =>
    have hindex := h.index_add
    have hlits : ((block.drop start).take literals).length = literals := by
      rw [length_take, length_drop]; omega
    simp only [encodeAll, flatMap_cons, append_assoc, length_append] at h hindex hfuel
    obtain _ | fuel := fuel
    · omega
    have hpos' : 0 < (Sequence.encode ⟨(block.drop start).take literals, length, offset⟩).length := by
      simp [Sequence.encode]
    have hstarted := @hout start (by omega)
    have hcond : d.srcIdx < archive.length - rest.length ∧ d.output.produced < before.length + block.length := by
      rw [h.produced, hstarted]; omega
    obtain ⟨d₁, hliterals, h₁⟩ := lz4DecodeLiterals_spec works
      ⟨(block.drop start).take literals, length, offset⟩ (encodeAll sequences ++ rest)
      (before.length + block.length) (archive.length - rest.length)
      (show ((block.drop start).take literals).length < _ by omega)
      (show _ + ((block.drop start).take literals).length ≤ _ by omega)
      (by simp only [length_append]; omega) h
    have hjoined : before ++ block.take start ++ (block.drop start).take literals =
        before ++ block.take (start + literals) := by
      rw [append_assoc, take_add]
    have hout₁ := @hout (start + literals) (by omega)
    rw [hjoined] at h₁
    obtain ⟨d₂, hcopy, h₂⟩ := lz4DecodeCopy_spec works (encodeAll sequences ++ rest)
      ((block.drop start).take literals).length length offset before.length
      (before.length + block.length) (archive.length - rest.length) (by omega) hlength hpos hwindow
      (by omega) (by omega) (by simp only [length_append]; omega) h₁
    rw [copyBack_append _ _ _ _ (by rw [length_take]; omega),
      copyBack_take block offset length (start + literals) hpos hback (by omega) hmatch] at h₂
    obtain ⟨d₃, hrest, h₃⟩ := ih fuel (by unfold encodeAll; omega) h₂
    refine ⟨d₃, ?_, h₃⟩
    rw [lz4DecodeBlock]
    simp only [get_bind, if_pos hcond]
    have hround : lz4DecodeSequence api before.length (before.length + block.length)
        (archive.length - rest.length) d = .ok true d₂ := by
      rw [lz4DecodeSequence, bind_ok hliterals]
      have hgo : ¬ d₁.output.produced = before.length + block.length := by rw [h₁.produced, hout₁]; omega
      simp only [get_bind, if_neg hgo]
      rw [bind_ok hcopy, pure_run]
    rwa [bind_ok hround]

/-- A frame header gives the bounds of its block. -/
theorem lz4BlockBounds_spec {encoded : List UInt8} (size originalSize : ℕ) (hpos : 0 < size)
    (hsize : out.length + size ≤ originalSize) (horiginal : originalSize < 2 ^ 32)
    (hsome : 0 < encoded.length) (hencoded : encoded.length < 2 ^ 32)
    (h : Decoding files base src dst archive out
      (encode 4 size ++ encode 4 encoded.length ++ (encoded ++ rest)) d) :
    ∃ d', lz4BlockBounds api originalSize archive.length d =
        .ok (out.length + size, archive.length - rest.length) d' ∧
      Decoding files base src dst archive out (encoded ++ rest) d' := by
  have hindex := h.index_add
  simp only [length_append, encode_length] at hindex
  obtain ⟨d₁, htake, h₁⟩ := lz4Take_spec works (encode 4 size ++ encode 4 encoded.length) 8 (by simp) h
  have hindex₁ := h₁.index_add
  rw [length_append] at hindex₁
  have hfirst : decode ((encode 4 size ++ encode 4 encoded.length).take 4) = size := by
    rw [take_left' (encode_length 4 size), decode_encode_of_lt (by omega)]
  have hsecond : decode ((encode 4 size ++ encode 4 encoded.length).drop 4) = encoded.length := by
    rw [drop_left' (encode_length 4 size), decode_encode_of_lt (by omega)]
  have hchecked : ¬ (size = 0 ∨ encoded.length = 0 ∨ originalSize - d₁.output.produced < size ∨
      archive.length - d₁.srcIdx < encoded.length) := by
    rw [h₁.produced]; omega
  refine ⟨d₁, ?_, h₁⟩
  rw [lz4BlockBounds]
  simp only [get_bind, if_neg (show ¬ archive.length - d.srcIdx < 8 by omega)]
  rw [bind_ok htake]
  simp only [hfirst, hsecond, get_bind, if_neg hchecked, pure_run]
  rw [h₁.produced, show d₁.srcIdx + encoded.length = archive.length - rest.length by omega]

/-- A round of the outer loop decodes the frame that comes next. -/
theorem lz4DecodeBlocks_frame {position size fuel : ℕ} (hsmall : content.length < 2 ^ 32)
    (hpos : 0 < size) (hsize : position + size ≤ content.length)
    (hfactors : Factors lz4WindowSize ((content.drop position).take size) 0 sequences)
    (hencoded : (encodeAll sequences).length < 2 ^ 32)
    (h : Decoding files base src dst archive (content.take position)
      (encode 4 size ++ encode 4 (encodeAll sequences).length ++ (encodeAll sequences ++ rest)) d) :
    ∃ d', lz4DecodeBlocks api true content.length archive.length (fuel + 1) d =
        lz4DecodeBlocks api true content.length archive.length fuel d' ∧
      Decoding files base src dst archive (content.take (position + size)) rest d' := by
  set block := (content.drop position).take size with hblock
  have hblockLen : block.length = size := by rw [hblock, length_take, length_drop]; omega
  have hbefore : (content.take position).length = position := by rw [length_take]; omega
  obtain ⟨d₁, hbounds, h₁⟩ := lz4BlockBounds_spec works size content.length hpos
    (by omega) hsmall hfactors.encodeAll_pos hencoded h
  have hindex := h₁.index_add
  rw [length_append] at hindex
  obtain ⟨d₂, hdecode, h₂⟩ := lz4DecodeBlock_spec works hfactors (by omega)
    (archive.length + 1) (by omega) (by simpa using h₁)
  rw [hblockLen, hbefore] at hdecode
  have hjoin : content.take position ++ block = content.take (position + size) := by rw [hblock, take_add]
  rw [hjoin] at h₂
  have hproduced : d₂.output.produced = position + size := by rw [h₂.produced, length_take]; omega
  have hend : d₂.srcIdx = archive.length - rest.length := by
    have := h₂.index_add
    omega
  refine ⟨d₂, ?_, h₂⟩
  rw [lz4DecodeBlocks]
  simp only [get_bind, if_pos (show d.output.produced < content.length by
    rw [h.produced]; omega), ↓reduceIte]
  rw [bind_ok hbounds]
  simp only [h.produced, hbefore]
  rw [bind_ok hdecode]
  simp only [get_bind, hproduced, hend, ne_eq, not_true_eq_false, or_self, ↓reduceIte]

/-- The outer loop rebuilds the content from the frames that are left, and stops there. -/
theorem lz4DecodeBlocks_spec {body extra : List UInt8} {position : ℕ} (hframed : Framed content position body)
    (hsmall : content.length < 2 ^ 32) (fuel : ℕ) (hfuel : body.length < fuel)
    (h : Decoding files base src dst archive (content.take position) (body ++ extra) d) :
    ∃ d', lz4DecodeBlocks api true content.length archive.length fuel d = .ok () d' ∧
      Decoding files base src dst archive content extra d' := by
  induction hframed generalizing fuel d with
  | done =>
    obtain _ | fuel := fuel
    · omega
    rw [take_length, nil_append] at h
    refine ⟨d, ?_, h⟩
    rw [lz4DecodeBlocks]
    simp only [get_bind, if_neg (show ¬ d.output.produced < content.length by
      rw [h.produced]; omega), pure_run]
  | @frame position size sequences rest hpos hsize hfactors hencoded _ ih =>
    obtain _ | fuel := fuel
    · omega
    rw [append_assoc, append_assoc (encodeAll sequences)] at h
    obtain ⟨d₁, hframe, h₁⟩ := lz4DecodeBlocks_frame works hsmall hpos hsize hfactors hencoded h
    obtain ⟨d₂, hrest, h₂⟩ := ih fuel (by simp only [length_append, encode_length] at hfuel; omega) h₁
    exact ⟨d₂, hframe.trans hrest, h₂⟩

/-- The last append completes the destination. -/
theorem lz4Finish_spec (h : Decoding files base src dst archive content [] d) :
    ∃ d', lz4Finish api content.length archive.length d = .ok () d' ∧
      files d'.fs = update base dst (some content) := by
  obtain ⟨stored, hfiles, hout⟩ := h.stored
  have hindex := h.index_add
  rw [length_nil, add_zero] at hindex
  rw [lz4Finish]
  simp only [get_bind, h.produced, hindex, ne_eq, not_true_eq_false, or_self, ↓reduceIte]
  by_cases hdata : 0 < d.output.data.length
  · obtain ⟨hcode, happend⟩ := works.append d.fs d.output.path stored d.output.data
      (by rw [hfiles, h.output_path]; simp)
    refine ⟨{ d with fs := (api.fsAppendData d.fs d.output.path d.output.data).2 }, ?_, ?_⟩
    · simp only [if_pos hdata, modify_bind, hcode, not_true_eq_false, ↓reduceIte, pure_run]
    · rw [happend, hfiles, h.output_path, update_idem, hout]
  · have hnil : d.output.data = [] := eq_nil_of_length_eq_zero (by omega)
    refine ⟨d, by simp only [if_neg hdata, pure_run], ?_⟩
    rw [hfiles, ← hout, hnil, append_nil]

end Blocks

/-- Decompressing an archive to a new path succeeds and leaves exactly the content. -/
theorem kernelLz4Decompress_spec (works : api.Works files) (fs : σ) (history : ℕ → UInt8) {srcPath dstPath : P}
    {body : List UInt8} (hsmall : content.length < 2 ^ 32) (hframed : Framed content 0 body)
    (hsrc : files fs srcPath = some (archiveOf content body)) (hdst : files fs dstPath = none) :
    let result := kernelLz4Decompress api history fs srcPath (archiveOf content body).length dstPath
    result.code = 0 ∧ files result.fs = update (files fs) dstPath (some content) := by
  have hlen := archiveOf_length content body
  have hsize := lz4OriginalSize_archiveOf body hsmall
  have hmarker := lz4IsFramed_archiveOf content body
  intro result
  by_cases hempty : content.length = 0
  · obtain rfl := eq_nil_of_length_eq_zero hempty
    have hbody : body = [] := by
      cases hframed with
      | done => rfl
      | frame hpos hsize => simp at hsize; omega
    obtain ⟨haccepted, hcreated⟩ := kernelLz4Decompress_empty works fs history hsrc hdst (by omega) hsize
    have hcode := haccepted.mpr (by rw [hmarker, hlen, hbody]; rfl)
    exact ⟨hcode, hcreated hcode⟩
  · obtain ⟨d, h, hresult⟩ := kernelLz4Decompress_opened works fs history hsrc hdst (by omega)
      (by rw [hsize]; exact hempty)
    have hwhole : Decoding files (files fs) srcPath dstPath (archiveOf content body)
        (content.take 0) (body ++ []) d := by
      rwa [append_nil]
    obtain ⟨d₁, hblocks, h₁⟩ := lz4DecodeBlocks_spec works hframed hsmall
      ((archiveOf content body).length + 1) (by omega) hwhole
    obtain ⟨d₂, hfinish, h₂⟩ := lz4Finish_spec works h₁
    have hall : lz4DecodeAll api (archiveOf content body) d = .ok () d₂ := by
      rw [lz4DecodeAll, hmarker, hsize, bind_ok hblocks, hfinish]
    have hdone : result = ⟨0, "[LZ4] Decompression completed successfully.", d₂.fs⟩ := by
      rwa [hall] at hresult
    rw [hdone]
    exact ⟨rfl, h₂⟩

/-- Packing and unpacking is the identity: for any data of less than 4 GiB in a file, compressing
it to a new path succeeds, and decompressing the archive to another new path succeeds and writes
exactly the data. The ring may hold anything when the decoder starts. -/
theorem lz4_round_trip (works : api.Works files) (fs : σ) (history : ℕ → UInt8)
    (srcPath packedPath outPath : P) (data : List UInt8) (hsize : data.length < 2 ^ 32)
    (hsrc : files fs srcPath = some data) (hpacked : files fs packedPath = none)
    (hout : files fs outPath = none) (hne : packedPath ≠ outPath) :
    let packed := kernelLz4Compress api fs srcPath data.length packedPath
    packed.code = 0 ∧ ∃ archive, files packed.fs packedPath = some archive ∧
      let unpacked := kernelLz4Decompress api history packed.fs packedPath archive.length outPath
      unpacked.code = 0 ∧ files unpacked.fs outPath = some data := by
  intro packed
  obtain ⟨hcode, body, hframed, hfiles⟩ := kernelLz4Compress_spec works fs hsize hsrc hpacked
  have harchive : files packed.fs packedPath = some (archiveOf data body) := by rw [hfiles, update_self]
  obtain ⟨hdone, hresult⟩ := kernelLz4Decompress_spec works packed.fs history hsize hframed
    harchive (by rw [hfiles, update_of_ne hne.symm, hout])
  refine ⟨hcode, archiveOf data body, harchive, hdone, ?_⟩
  rw [hresult, update_self]

/-- Sixteen equal bytes survive packing and unpacking in the memory store. -/
theorem lz4_round_trip_memory :
    let data : List UInt8 := List.replicate 16 0x61
    let fs : String → Option (List UInt8) := Function.update (fun _ => none) "a.txt" (some data)
    let packed := kernelLz4Compress memoryApi fs "a.txt" data.length "a.lz4"
    packed.code = 0 ∧ ∃ archive, packed.fs "a.lz4" = some archive ∧
      let unpacked :=
        kernelLz4Decompress memoryApi (fun _ => 0) packed.fs "a.lz4" archive.length "b.txt"
      unpacked.code = 0 ∧ unpacked.fs "b.txt" = some data :=
  lz4_round_trip memoryApi_works _ (fun _ => 0) "a.txt" "a.lz4" "b.txt" (replicate 16 0x61)
    (by decide) (Function.update_self _ _ _) rfl rfl (by decide)

end Windoge.Lz4
