import Windoge.Lz4.Writer

/-!
# Writing an archive

An archive is the original size, the marker `LZ4C`, and one frame for every 4096-byte block: the
block's size, the size of its encoding, and the encoding. `Framed` describes the frames without
saying which encoder produced them; `kernel_lz4_compress` writes frames of this form.
-/

namespace Windoge.Lz4

open Sequences LittleEndian List Windoge.Flow Function

/-- `LZ4_READ_AHEAD_SIZE`. -/
def lz4ReadAheadSize : ℕ := 4096

/-- `LZ4_OUTPUT_SIZE`. -/
def lz4OutputSize : ℕ := 65536

/-- The four bytes `LZ4C` after the original size. -/
def lz4Marker : List UInt8 := [0x4C, 0x5A, 0x34, 0x43]

/-- `body` holds the frames of the bytes of `content` from `position` on. -/
inductive Framed (content : List UInt8) : ℕ → List UInt8 → Prop
  | done : Framed content content.length []
  | frame {position size : ℕ} {sequences : List Sequence} {rest : List UInt8}
      (hpos : 0 < size) (hsize : position + size ≤ content.length)
      (hfactors : Factors lz4WindowSize ((content.drop position).take size) 0 sequences)
      (hencoded : (encodeAll sequences).length < 2 ^ 32)
      (hrest : Framed content (position + size) rest) :
      Framed content position
        (encode 4 size ++ encode 4 (encodeAll sequences).length ++ (encodeAll sequences ++ rest))

/-- The whole archive of `content` with the frames in `body`. -/
def archiveOf (content body : List UInt8) : List UInt8 :=
  encode 4 content.length ++ lz4Marker ++ body

theorem archiveOf_length (content body : List UInt8) : (archiveOf content body).length = 8 + body.length := by
  simp only [archiveOf, length_append, encode_length, lz4Marker, length_cons, length_nil]

variable {σ P : Type} (api : FileApi σ P)

/-- The block loop of `kernel_lz4_compress`. -/
def kernelLz4CompressLoop (srcPath : P) (sourceSize : ℕ) : ℕ → ℕ → Write σ P Unit
  | 0, _ => throw ()
  | fuel + 1, offset => do
    if offset < sourceSize then
      let requested := if lz4ReadAheadSize < sourceSize - offset then lz4ReadAheadSize
        else sourceSize - offset
      let output ← get
      let (bytesRead, sourceBuffer, fs) := api.fsReadRawAt output.fs srcPath offset requested
      modify fun w => { w with fs := fs }
      if bytesRead ≤ 0 ∨ bytesRead.toNat ≠ requested then
        throw ()
      else
        match lz4CompressBlock api sourceBuffer ⟨fs, none, [], lz4BlockBufferSize⟩ with
        | .error _ _ => throw ()
        | .ok _ block =>
          if block.data.length = 0 ∨ lz4BlockBufferSize ≤ block.data.length then
            throw ()
          else do
            lz4Write api (encode 4 requested ++ encode 4 block.data.length)
            lz4Write api block.data
            kernelLz4CompressLoop srcPath sourceSize fuel (offset + requested)
    else pure ()

/-- `kernel_lz4_compress`. -/
def kernelLz4Compress (fs : σ) (srcPath : P) (srcSize : ℕ) (dstPath : P) : Lz4Outcome σ :=
  if uint32Max < srcSize then
    ⟨-1, "[LZ4] Error: Source file is too large to compress.", fs⟩
  else
    let (created, fs) := api.fsCreate fs dstPath
    if created ≠ 0 then
      ⟨-1, "[LZ4] Error: Unable to create compressed file.", fs⟩
    else
      let archive : Write σ P Unit := do
        lz4Write api (encode 4 srcSize ++ lz4Marker)
        kernelLz4CompressLoop api srcPath srcSize (srcSize + 1) 0
        lz4WriteFlush api
      match archive ⟨fs, some dstPath, [], lz4OutputSize⟩ with
      | .ok _ output => ⟨0, "[LZ4] Compression completed successfully.", output.fs⟩
      | .error _ output =>
        ⟨-1, "[LZ4] Error: Unable to read source or write archive.",
          (api.fsDelete output.fs dstPath).2⟩

/-- The bytes already in the destination followed by the buffered ones are `out`, and no other
file differs from `base`. -/
structure Lz4Writer.Holds [DecidableEq P] (files : σ → P → Option (List UInt8))
    (base : P → Option (List UInt8)) (path : P) (capacity : ℕ) (out : List UInt8)
    (w : Lz4Writer σ P) : Prop where
  path_eq : w.path = some path
  capacity_eq : w.capacity = capacity
  room : w.data.length < capacity
  stored : ∃ stored, files w.fs = Function.update base path (some stored) ∧ stored ++ w.data = out

variable {api} [DecidableEq P] {files : σ → P → Option (List UInt8)}
  {base : P → Option (List UInt8)} {path : P} {capacity : ℕ}

section

variable (works : api.Works files)
include works

/-- Flushing moves the buffered bytes to the file and empties the buffer. -/
theorem lz4WriteFlush_spec {out : List UInt8} {w : Lz4Writer σ P} (hpath : w.path = some path)
    (hcap : w.capacity = capacity) (hpos : 0 < capacity)
    (hstored : ∃ stored, files w.fs = update base path (some stored) ∧
      stored ++ w.data = out) : ∃ w', lz4WriteFlush api w = .ok () w' ∧ w'.data = [] ∧
      w'.Holds files base path capacity out := by
  obtain ⟨stored, hfiles, rfl⟩ := hstored
  rw [lz4WriteFlush]
  by_cases hempty : w.data.length = 0
  · have hnil := eq_nil_of_length_eq_zero hempty
    refine ⟨w, by simp [hnil], hnil, hpath, hcap, by omega, stored, hfiles, rfl⟩
  obtain ⟨hcode, happend⟩ := works.append w.fs path stored w.data (by simp [hfiles])
  refine ⟨{ w with fs := (api.fsAppendData w.fs path w.data).2, data := [] }, ?_, rfl,
    hpath, hcap, hpos, stored ++ w.data, ?_, by simp⟩
  · simp only [get_bind, if_neg hempty, hpath, hcode, ne_eq, not_true_eq_false, ↓reduceIte, modify_run]
  · rw [happend, hfiles, update_idem]

/-- The copying loop appends its bytes, flushing whenever the buffer fills. -/
theorem lz4WriteLoop_spec (fuel : ℕ) (data out : List UInt8) (w : Lz4Writer σ P)
    (hfuel : data.length < fuel) (hw : w.Holds files base path capacity out) :
    ∃ w', lz4WriteLoop api fuel data w = .ok () w' ∧ w'.Holds files base path capacity (out ++ data) := by
  induction fuel generalizing data out w with
  | zero => omega
  | succ fuel ih =>
    have hroom := hw.room
    have hcap := hw.capacity_eq
    obtain ⟨stored, hfiles, hout⟩ := hw.stored
    rw [lz4WriteLoop]
    by_cases hempty : data.length = 0
    · obtain rfl := eq_nil_of_length_eq_zero hempty
      exact ⟨w, by simp, by simpa using hw⟩
    simp only [if_neg hempty, get_bind, modify_bind]
    set batch := if data.length < w.capacity - w.data.length then data.length
      else w.capacity - w.data.length with hbatch
    have hbatch' : 0 < batch ∧ batch ≤ data.length ∧ w.data.length + batch ≤ capacity := by
      rw [hbatch]; split <;> omega
    have hrest : out ++ data = out ++ data.take batch ++ data.drop batch := by
      rw [append_assoc, take_append_drop]
    have hsplit : stored ++ (w.data ++ data.take batch) = out ++ data.take batch := by
      rw [← append_assoc, hout]
    have hdrop : (data.drop batch).length < fuel := by rw [length_drop]; omega
    have hlen : (w.data ++ data.take batch).length = w.data.length + batch := by
      rw [length_append, length_take]; omega
    rw [hrest]
    by_cases hfull : (w.data ++ data.take batch).length = w.capacity
    · obtain ⟨w', hflush, -, hw'⟩ := lz4WriteFlush_spec works
        (w := { w with data := w.data ++ data.take batch }) hw.path_eq hcap
        (by omega) ⟨stored, hfiles, hsplit⟩
      have hsome : w.path.isNone = false := by rw [hw.path_eq]; rfl
      simp only [if_pos hfull, hsome, Bool.false_eq_true, ↓reduceIte]
      rw [bind_ok hflush]
      exact ih _ _ w' hdrop hw'
    · simp only [if_neg hfull]
      exact ih _ _ _ hdrop ⟨hw.path_eq, hcap, by simp only; omega, stored, hfiles, hsplit⟩

theorem lz4Write_spec (data out : List UInt8) (w : Lz4Writer σ P) (hw : w.Holds files base path capacity out) :
    ∃ w', lz4Write api data w = .ok () w' ∧ w'.Holds files base path capacity (out ++ data) :=
  lz4WriteLoop_spec works _ data out w (lt_add_one _) hw

/-- The block loop writes the frames of the rest of the source. -/
theorem kernelLz4CompressLoop_spec {srcPath : P} {content : List UInt8} (hne : srcPath ≠ path)
    (hsrc : base srcPath = some content) (fuel offset : ℕ) (out : List UInt8) (w : Lz4Writer σ P)
    (hoffset : offset ≤ content.length) (hfuel : content.length < fuel + offset)
    (hw : w.Holds files base path capacity out) :
    ∃ w' body, kernelLz4CompressLoop api srcPath content.length fuel offset w = .ok () w' ∧
      w'.Holds files base path capacity (out ++ body) ∧ Framed content offset body := by
  induction fuel generalizing offset out w with
  | zero => omega
  | succ fuel ih =>
    rw [kernelLz4CompressLoop]
    by_cases hmore : offset < content.length
    · obtain ⟨stored, hfiles, hout⟩ := hw.stored
      set requested := if lz4ReadAheadSize < content.length - offset then lz4ReadAheadSize
        else content.length - offset with hrequested
      have hbounds : 0 < requested ∧ requested ≤ 4096 ∧ offset + requested ≤ content.length := by
        rw [hrequested, lz4ReadAheadSize]; split <;> omega
      have hcontent : files w.fs srcPath = some content := by rw [hfiles, update_of_ne hne, hsrc]
      obtain ⟨hcode, hbytes, hread⟩ := works.read w.fs srcPath content offset requested hcontent
      set block := (content.drop offset).take requested with hblock
      have hlen : block.length = requested := by rw [hblock, length_take, length_drop]; omega
      obtain ⟨hencode, hsome, hfits⟩ := @lz4CompressBlock_spec σ P api block
        ⟨(api.fsReadRawAt w.fs srcPath offset requested).2.2, none, [], lz4BlockBufferSize⟩
        (by omega) (by omega) rfl rfl
      set encoded := encodeAll (lz4BlockSequences block)
      have hread_ok : ¬ ((block.length : Int) ≤ 0 ∨ (block.length : Int).toNat ≠ requested) := by
        rw [Int.toNat_natCast]; omega
      have hblock_ok : ¬ (encoded.length = 0 ∨ lz4BlockBufferSize ≤ encoded.length) := by omega
      have hw₁ : Lz4Writer.Holds files base path capacity out
          { w with fs := (api.fsReadRawAt w.fs srcPath offset requested).2.2 } :=
        ⟨hw.path_eq, hw.capacity_eq, hw.room, stored, by rw [hread, hfiles], hout⟩
      obtain ⟨w₂, hheader, hw₂⟩ := lz4Write_spec works (encode 4 requested ++ encode 4 encoded.length) out _ hw₁
      obtain ⟨w₃, hdata, hw₃⟩ := lz4Write_spec works encoded _ w₂ hw₂
      obtain ⟨w', body, hloop, hw', hframed⟩ := ih (offset + requested) _ w₃ hbounds.2.2 (by omega) hw₃
      refine ⟨w', encode 4 requested ++ encode 4 encoded.length ++ (encoded ++ body), ?_,
        by simpa only [append_assoc] using hw', ?_⟩
      · simp only [if_pos hmore, get_bind, modify_bind, hcode, if_neg hread_ok, hbytes, hencode, if_neg hblock_ok]
        rw [bind_ok hheader, bind_ok hdata, hloop]
      · exact .frame hbounds.1 hbounds.2.2 (lz4BlockSequences_factors block (by omega))
          (hfits.trans (by decide)) hframed
    · obtain rfl : offset = content.length := by omega
      exact ⟨w, [], by simp, by simpa using hw, .done⟩

/-- Compressing a file of less than 4 GiB to a new path succeeds and leaves an archive of it. -/
theorem kernelLz4Compress_spec (fs : σ) {srcPath dstPath : P} {content : List UInt8}
    (hsize : content.length < 2 ^ 32) (hsrc : files fs srcPath = some content)
    (hdst : files fs dstPath = none) :
    (kernelLz4Compress api fs srcPath content.length dstPath).code = 0 ∧ ∃ body, Framed content 0 body ∧
        files (kernelLz4Compress api fs srcPath content.length dstPath).fs =
          update (files fs) dstPath (some (archiveOf content body)) := by
  have hne : srcPath ≠ dstPath := by
    rintro rfl
    simp [hsrc] at hdst
  obtain ⟨hcreate, hcreated⟩ := works.create fs dstPath hdst
  obtain ⟨w₁, hheader, hw₁⟩ := lz4Write_spec works (encode 4 content.length ++ lz4Marker) []
    ⟨(api.fsCreate fs dstPath).2, some dstPath, [], lz4OutputSize⟩
    ⟨rfl, rfl, by simp [lz4OutputSize], [], hcreated, rfl⟩
  obtain ⟨w₂, body, hloop, hw₂, hframed⟩ := kernelLz4CompressLoop_spec works hne hsrc
    (content.length + 1) 0 _ w₁ (by omega) (by omega) hw₁
  obtain ⟨w₃, hflush, hempty, hw₃⟩ := lz4WriteFlush_spec works hw₂.path_eq hw₂.capacity_eq
    (by simp [lz4OutputSize]) hw₂.stored
  obtain ⟨stored, hfiles, hout⟩ := hw₃.stored
  have hsmall : ¬ uint32Max < content.length := by unfold uint32Max; omega
  have hresult : kernelLz4Compress api fs srcPath content.length dstPath =
      ⟨0, "[LZ4] Compression completed successfully.", w₃.fs⟩ := by
    simp only [kernelLz4Compress, if_neg hsmall, hcreate, ne_eq, not_true_eq_false, ↓reduceIte]
    rw [bind_ok hheader, bind_ok hloop, hflush]
  rw [hresult]
  refine ⟨rfl, body, hframed, ?_⟩
  rw [hfiles]
  congr 2
  simpa [hempty, archiveOf] using hout

end

/-!
## The kernel's decoder

`kernel_lz4_decompress` with its read-ahead buffer, its 4096-byte history ring and its 64 KiB
output buffer. Every `failed = 1` of the C code is a thrown error: from there the function only
deletes the destination and returns `-1`. Loop counters and indices stay below the archive size
and the original size, so they are natural numbers here; the one overflow test of the source, in
`lz4_read_length`, is kept.
-/

/-- `UINT64_MAX`. -/
def uint64Max : ℕ := 18446744073709551615

/-- `lz4_read_buffer_t`; `length` in the C structure is the length of `data`. -/
structure Lz4ReadBuffer (P : Type) where
  path : P
  fileSize : ℕ
  start : ℕ
  data : List UInt8

/-- `lz4_decode_output_t`; `length` in the C structure is the length of `data`. -/
structure Lz4DecodeOutput (P : Type) where
  path : P
  history : ℕ → UInt8
  data : List UInt8
  produced : ℕ

/-- The local variables of `kernel_lz4_decompress` that its loops change, and the files. -/
structure Lz4Decoder (σ P : Type) where
  fs : σ
  input : Lz4ReadBuffer P
  output : Lz4DecodeOutput P
  srcIdx : ℕ

/-- A decoder action; a failed decode is a thrown error. -/
abbrev Decode (σ P : Type) := EStateM Unit (Lz4Decoder σ P)

variable (api : FileApi σ P)

/-- Refill the read-ahead buffer when it does not hold the byte at `offset`. -/
def lz4Refill (offset : ℕ) : Decode σ P Unit := do
  let d ← get
  if offset < d.input.start ∨ d.input.data.length ≤ offset - d.input.start then
    let requested := if lz4ReadAheadSize < d.input.fileSize - offset then lz4ReadAheadSize
      else d.input.fileSize - offset
    let (bytesRead, data, fs) := api.fsReadRawAt d.fs d.input.path offset requested
    modify fun d => { d with fs := fs }
    if bytesRead ≤ 0 then
      throw ()
    else modify fun d => { d with input := { d.input with start := offset, data := data } }
  else pure ()

/-- `lz4_read_at`; every round copies at least one byte. -/
def lz4ReadAt : ℕ → ℕ → ℕ → Decode σ P (List UInt8)
  | 0, _, length => if length = 0 then pure [] else throw ()
  | fuel + 1, offset, length => do
    if length = 0 then
      pure []
    else
      let d ← get
      if d.input.fileSize ≤ offset then
        throw ()
      else do
        lz4Refill api offset
        let d ← get
        let bufferOffset := offset - d.input.start
        let available := d.input.data.length - bufferOffset
        let batch := if length < available then length else available
        let rest ← lz4ReadAt fuel (offset + batch) (length - batch)
        pure ((d.input.data.drop bufferOffset).take batch ++ rest)

/-- `lz4_read_at` at the current index, advancing it past the bytes. -/
def lz4Take (length : ℕ) : Decode σ P (List UInt8) := do
  let d ← get
  let bytes ← lz4ReadAt api length d.srcIdx length
  modify fun d => { d with srcIdx := d.srcIdx + length }
  pure bytes

/-- `lz4_output_byte`. -/
def lz4OutputByte (value : UInt8) : Decode σ P Unit := do
  modify fun d => { d with output := { d.output with
    history := Function.update d.output.history (d.output.produced &&& (lz4WindowSize - 1)) value
    data := d.output.data ++ [value]
    produced := d.output.produced + 1 } }
  let d ← get
  if d.output.data.length = lz4OutputSize then
    let (code, fs) := api.fsAppendData d.fs d.output.path d.output.data
    modify fun d => { d with fs := fs }
    if code ≠ 0 then
      throw ()
    else modify fun d => { d with output := { d.output with data := [] } }
  else pure ()

/-- `lz4_read_length`: extension bytes up to and including the first below 255. -/
def lz4ReadLength (limit : ℕ) : ℕ → ℕ → Decode σ P ℕ
  | 0, _ => throw ()
  | fuel + 1, length => do
    let d ← get
    if limit ≤ d.srcIdx then
      throw ()
    else do
      let bytes ← lz4Take api 1
      let extension := (bytes.getD 0 0).toNat
      if uint64Max - length < extension then
        throw ()
      else if extension = 255 then
        lz4ReadLength limit fuel (length + extension)
      else pure (length + extension)

/-- A length nibble of fifteen continues in extension bytes. -/
def lz4FullLength (limit nibble length : ℕ) : Decode σ P ℕ := do
  if nibble = 15 then
    let d ← get
    lz4ReadLength api limit (limit - d.srcIdx + 1) length
  else pure length

/-- Output a list of bytes one by one. -/
def lz4OutputBytes : List UInt8 → Decode σ P Unit
  | [] => pure ()
  | b :: rest => do
    lz4OutputByte api b
    lz4OutputBytes rest

/-- The literal loop, in batches of at most 512 bytes. -/
def lz4CopyLiterals : ℕ → ℕ → Decode σ P Unit
  | 0, remaining => if remaining = 0 then pure () else throw ()
  | fuel + 1, remaining => do
    if remaining = 0 then
      pure ()
    else do
      let batch := if 512 < remaining then 512 else remaining
      let literals ← lz4Take api batch
      lz4OutputBytes api literals
      lz4CopyLiterals fuel (remaining - batch)

/-- The match loop: each byte comes from the ring, `matchOffset` positions back. -/
def lz4CopyMatch (matchOffset : ℕ) : ℕ → Decode σ P Unit
  | 0 => pure ()
  | count + 1 => do
    let d ← get
    let historyIdx := (d.output.produced - matchOffset) &&& (lz4WindowSize - 1)
    lz4OutputByte api (d.output.history historyIdx)
    lz4CopyMatch matchOffset count

/-- The first half of a round of the sequence loop: the token and its literals. -/
def lz4DecodeLiterals (blockTarget blockEnd : ℕ) : Decode σ P ℕ := do
  let tokenByte ← lz4Take api 1
  let token := (tokenByte.getD 0 0).toNat
  let literalLength ← lz4FullLength api blockEnd (token >>> 4) (token >>> 4)
  let d ← get
  if blockTarget - d.output.produced < literalLength ∨ blockEnd - d.srcIdx < literalLength then
    throw ()
  else do
    lz4CopyLiterals api literalLength literalLength
    pure token

/-- The second half of a round: the offset, the match length and the copy. -/
def lz4DecodeCopy (blockStart blockTarget blockEnd token : ℕ) : Decode σ P Unit := do
  let d ← get
  if blockEnd - d.srcIdx < 2 then
    throw ()
  else do
    let offsetBytes ← lz4Take api 2
    let matchOffset := decode offsetBytes
    let d ← get
    if matchOffset = 0 ∨ lz4WindowSize < matchOffset ∨
        d.output.produced - blockStart < matchOffset then
      throw ()
    else do
      let matchLength ← lz4FullLength api blockEnd (token &&& 0x0F) ((token &&& 0x0F) + 4)
      if blockTarget - d.output.produced < matchLength then
        throw ()
      else lz4CopyMatch api matchOffset matchLength

/-- One round of the sequence loop; returns whether the loop goes on. -/
def lz4DecodeSequence (blockStart blockTarget blockEnd : ℕ) : Decode σ P Bool := do
  let token ← lz4DecodeLiterals api blockTarget blockEnd
  let d ← get
  if d.output.produced = blockTarget then
    if d.srcIdx ≠ blockEnd then throw () else pure false
  else do
    lz4DecodeCopy api blockStart blockTarget blockEnd token
    pure true

/-- The sequence loop of one block. -/
def lz4DecodeBlock (blockStart blockTarget blockEnd : ℕ) : ℕ → Decode σ P Unit
  | 0 => throw ()
  | fuel + 1 => do
    let d ← get
    if d.srcIdx < blockEnd ∧ d.output.produced < blockTarget then do
      let more ← lz4DecodeSequence api blockStart blockTarget blockEnd
      if more then lz4DecodeBlock blockStart blockTarget blockEnd fuel else pure ()
    else pure ()

/-- The header of a framed block: its target and end, after the checks of both sizes. -/
def lz4BlockBounds (originalSize srcSize : ℕ) : Decode σ P (ℕ × ℕ) := do
  let d ← get
  if srcSize - d.srcIdx < 8 then
    throw ()
  else do
    let blockHeader ← lz4Take api 8
    let blockOriginalSize := decode (blockHeader.take 4)
    let blockCompressedSize := decode (blockHeader.drop 4)
    let d ← get
    if blockOriginalSize = 0 ∨ blockCompressedSize = 0 ∨
        originalSize - d.output.produced < blockOriginalSize ∨
        srcSize - d.srcIdx < blockCompressedSize then
      throw ()
    else pure (d.output.produced + blockOriginalSize, d.srcIdx + blockCompressedSize)

/-- The outer loop: one round for each block, or a single round without frames. -/
def lz4DecodeBlocks (framed : Bool) (originalSize srcSize : ℕ) : ℕ → Decode σ P Unit
  | 0 => throw ()
  | fuel + 1 => do
    let d ← get
    if d.output.produced < originalSize then do
      let blockStart := d.output.produced
      let (blockTarget, blockEnd) ←
        if framed then lz4BlockBounds api originalSize srcSize else pure (originalSize, srcSize)
      lz4DecodeBlock api blockStart blockTarget blockEnd (srcSize + 1)
      let d ← get
      if d.output.produced ≠ blockTarget ∨ d.srcIdx ≠ blockEnd then
        throw ()
      else if framed then lz4DecodeBlocks framed originalSize srcSize fuel else pure ()
    else pure ()

/-- The checks and the last append after the loops. -/
def lz4Finish (originalSize srcSize : ℕ) : Decode σ P Unit := do
  let d ← get
  if d.output.produced ≠ originalSize ∨ d.srcIdx ≠ srcSize then
    throw ()
  else if 0 < d.output.data.length then
    let (code, fs) := api.fsAppendData d.fs d.output.path d.output.data
    modify fun d => { d with fs := fs }
    if code ≠ 0 then throw () else pure ()
  else pure ()

/-- The size and the marker at the start of an archive. A missing or different marker means a
single block without frames. -/
def lz4ReadHeader (srcSize : ℕ) : Decode σ P (ℕ × Bool) := do
  let header ← lz4ReadAt api 4 0 4
  let originalSize := decode header
  if 8 ≤ srcSize then
    tryCatch (do let marker ← lz4ReadAt api 4 4 4; pure (originalSize, marker == lz4Marker))
      fun _ => pure (originalSize, false)
  else pure (originalSize, false)

/-- `kernel_lz4_decompress`, started with the ring contents `history` an earlier call left. -/
def kernelLz4Decompress (history : ℕ → UInt8) (fs : σ) (srcPath : P) (srcSize : ℕ) (dstPath : P) :
    Lz4Outcome σ :=
  if srcSize < 4 then
    ⟨-1, "[LZ4] Error: Compressed file is too small.", fs⟩
  else
    match lz4ReadHeader api srcSize ⟨fs, ⟨srcPath, srcSize, uint64Max, []⟩,
        ⟨dstPath, history, [], 0⟩, 0⟩ with
    | .error _ d => ⟨-1, "[LZ4] Error: Unable to read compressed header.", d.fs⟩
    | .ok (originalSize, framed) d =>
      if originalSize = 0 then
        let expectedSize := if framed then 8 else 4
        if srcSize ≠ expectedSize then
          ⟨-1, "[LZ4] Error: Invalid empty archive or destination.", d.fs⟩
        else
          let (created, fs) := api.fsCreate d.fs dstPath
          if created ≠ 0 then ⟨-1, "[LZ4] Error: Invalid empty archive or destination.", fs⟩
          else ⟨0, "[LZ4] Decompression completed successfully.", fs⟩
      else
        let (created, fs) := api.fsCreate d.fs dstPath
        if created ≠ 0 then
          ⟨-1, "[LZ4] Error: Unable to create decompressed file.", fs⟩
        else
          let blocks : Decode σ P Unit := do
            lz4DecodeBlocks api framed originalSize srcSize (srcSize + 1)
            lz4Finish api originalSize srcSize
          match blocks { d with fs := fs, srcIdx := if framed then 8 else 4 } with
          | .ok _ d => ⟨0, "[LZ4] Decompression completed successfully.", d.fs⟩
          | .error _ d =>
            ⟨-1, "[LZ4] Error: Invalid or unreadable compressed data.",
              (api.fsDelete d.fs dstPath).2⟩

end Windoge.Lz4
