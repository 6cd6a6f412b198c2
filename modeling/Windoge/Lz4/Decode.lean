import Windoge.Lz4.Archive

/-!
# What the decoder's steps do on a readable archive

`Decoding` relates a decoder state to the bytes already produced and the archive bytes not yet
consumed. It says where the produced bytes are (destination file, output buffer, ring) and that
the read-ahead buffer holds a true slice of the archive. Each step of the decoder moves bytes
from the unread part to the produced part.
-/

namespace Windoge.Lz4

open Sequences LittleEndian List Windoge.Flow Function UInt8

variable {σ P : Type} [DecidableEq P] {api : FileApi σ P} {files : σ → P → Option (List UInt8)}
  {base : P → Option (List UInt8)} {src dst : P} {archive : List UInt8}

/-- The read-ahead buffer holds a true slice of the archive. -/
structure Reading (files : σ → P → Option (List UInt8)) (src : P) (archive : List UInt8)
    (d : Lz4Decoder σ P) : Prop where
  content : files d.fs src = some archive
  input_path : d.input.path = src
  input_size : d.input.fileSize = archive.length
  input_slice : d.input.data = (archive.drop d.input.start).take d.input.data.length

/-- Only the read-ahead buffer differs, and every file is as before. -/
structure SameButInput (files : σ → P → Option (List UInt8)) (d d' : Lz4Decoder σ P) : Prop where
  files_eq : files d'.fs = files d.fs
  output_eq : d'.output = d.output
  index_eq : d'.srcIdx = d.srcIdx

/-- The decoder has produced `out` and has `rest` of the archive left to read. -/
structure Decoding (files : σ → P → Option (List UInt8)) (base : P → Option (List UInt8))
    (src dst : P) (archive out rest : List UInt8) (d : Lz4Decoder σ P) : Prop where
  reading : Reading files src archive d
  distinct : src ≠ dst
  index_le : d.srcIdx ≤ archive.length
  unread : archive.drop d.srcIdx = rest
  output_path : d.output.path = dst
  produced : d.output.produced = out.length
  room : d.output.data.length < lz4OutputSize
  ring : ∀ i < out.length, out.length ≤ i + lz4WindowSize →
    d.output.history (i % lz4WindowSize) = out.getD i 0
  stored : ∃ stored, files d.fs = Function.update base dst (some stored) ∧
    stored ++ d.output.data = out

variable {d : Lz4Decoder σ P} {rest out : List UInt8}

theorem Decoding.index_add (h : Decoding files base src dst archive out rest d) :
    d.srcIdx + rest.length = archive.length := by
  have hlen := congrArg length h.unread
  have hle := h.index_le
  rw [length_drop] at hlen
  omega

theorem slice_of_slice {data : List UInt8} {start : ℕ} (hdata : data = (archive.drop start).take data.length)
    (offset batch : ℕ) (hstart : start ≤ offset) (hbatch : offset - start + batch ≤ data.length) :
    (data.drop (offset - start)).take batch = (archive.drop offset).take batch := by
  rw [hdata, drop_take, take_take, drop_drop,
    min_eq_left (by omega), show start + (offset - start) = offset by omega]

section Steps

variable (works : api.Works files)
include works

/-- After a refill the buffer holds the byte at `offset`. -/
theorem lz4Refill_spec (h : Reading files src archive d) (offset : ℕ) (hoffset : offset < archive.length) :
    ∃ d', lz4Refill api offset d = .ok () d' ∧ Reading files src archive d' ∧ SameButInput files d d' ∧
      d'.input.start ≤ offset ∧ offset - d'.input.start < d'.input.data.length := by
  rw [lz4Refill]
  simp only [get_bind]
  split
  · set requested := if lz4ReadAheadSize < d.input.fileSize - offset then lz4ReadAheadSize
      else d.input.fileSize - offset with hrequested
    have hpos : 0 < requested ∧ requested ≤ archive.length - offset := by
      rw [hrequested, h.input_size, lz4ReadAheadSize]; split <;> omega
    obtain ⟨hcode, hbytes, hread⟩ := works.read d.fs d.input.path archive offset requested
      (by rw [h.input_path, h.content])
    have hlen : ((archive.drop offset).take requested).length = requested := by
      rw [length_take, length_drop]; omega
    have hok : ¬ (((archive.drop offset).take requested).length : Int) ≤ 0 := by rw [hlen]; omega
    let input : Lz4ReadBuffer P :=
      { d.input with start := offset, data := (archive.drop offset).take requested }
    refine ⟨⟨(api.fsReadRawAt d.fs d.input.path offset requested).2.2, input, d.output, d.srcIdx⟩,
      ?_, ?_, ⟨hread, rfl, rfl⟩, le_rfl, by simp only [input, hlen]; omega⟩
    · simp only [modify_bind, hcode, if_neg hok, hbytes, modify_run, input]
    · exact ⟨by rw [hread, h.content], h.input_path, h.input_size, by simp only [input, hlen]⟩
  · exact ⟨d, rfl, h, ⟨rfl, rfl, rfl⟩, by omega, by omega⟩

/-- Reading inside the archive returns the exact slice. -/
theorem lz4ReadAt_spec (fuel : ℕ) (h : Reading files src archive d) (offset length : ℕ)
    (hfuel : length ≤ fuel) (hbound : offset + length ≤ archive.length) :
    ∃ d', lz4ReadAt api fuel offset length d = .ok ((archive.drop offset).take length) d' ∧
      Reading files src archive d' ∧ SameButInput files d d' := by
  induction fuel generalizing d offset length with
  | zero =>
    obtain rfl : length = 0 := by omega
    exact ⟨d, by simp [lz4ReadAt], h, rfl, rfl, rfl⟩
  | succ fuel ih =>
    rw [lz4ReadAt]
    by_cases hzero : length = 0
    · exact ⟨d, by simp [hzero], h, rfl, rfl, rfl⟩
    have hinside : ¬ d.input.fileSize ≤ offset := by rw [h.input_size]; omega
    obtain ⟨d₁, hrefill, h₁, hsame₁, hstart, hdata⟩ := lz4Refill_spec works h offset (by omega)
    simp only [if_neg hzero, get_bind, if_neg hinside]
    rw [bind_ok hrefill]
    simp only [get_bind]
    set batch := if length < d₁.input.data.length - (offset - d₁.input.start) then length
      else d₁.input.data.length - (offset - d₁.input.start) with hbatch
    have hbounds : 0 < batch ∧ batch ≤ length ∧ offset - d₁.input.start + batch ≤ d₁.input.data.length := by
      rw [hbatch]; split <;> omega
    obtain ⟨d₂, hrest, h₂, hsame₂⟩ := ih h₁ (offset + batch) (length - batch) (by omega) (by omega)
    refine ⟨d₂, ?_, h₂, hsame₂.files_eq.trans hsame₁.files_eq,
      hsame₂.output_eq.trans hsame₁.output_eq, hsame₂.index_eq.trans hsame₁.index_eq⟩
    rw [bind_ok hrest, pure_run, slice_of_slice h₁.input_slice offset batch hstart hbounds.2.2]
    congr 1
    rw [← drop_drop, ← take_add, show batch + (length - batch) = length by omega]

/-- Taking bytes consumes them. -/
theorem lz4Take_spec (bytes : List UInt8) (count : ℕ) (hcount : bytes.length = count)
    (h : Decoding files base src dst archive out (bytes ++ rest) d) :
    ∃ d', lz4Take api count d = .ok bytes d' ∧ Decoding files base src dst archive out rest d' := by
  subst hcount
  have hindex := h.index_add
  rw [length_append] at hindex
  obtain ⟨d₁, hread, h₁, hsame⟩ := lz4ReadAt_spec works bytes.length h.reading d.srcIdx
    bytes.length le_rfl (by omega)
  refine ⟨{ d₁ with srcIdx := d₁.srcIdx + bytes.length }, ?_, ?_⟩
  · rw [lz4Take]
    simp only [get_bind]
    rw [bind_ok hread, h.unread, take_left]
    rfl
  · obtain ⟨hfiles, houtput, hidx⟩ := hsame
    refine ⟨⟨h₁.content, h₁.input_path, h₁.input_size, h₁.input_slice⟩, h.distinct,
      by simp only [hidx]; omega, ?_, by rw [houtput, h.output_path],
      by rw [houtput, h.produced], by rw [houtput]; exact h.room,
      by rw [houtput]; exact h.ring, by rw [houtput, hfiles]; exact h.stored⟩
    simp only [hidx, ← drop_drop, h.unread, drop_left]

/-- One produced byte goes to the ring and to the output, which is flushed when full. -/
theorem lz4OutputByte_spec (h : Decoding files base src dst archive out rest d) (b : UInt8) :
    ∃ d', lz4OutputByte api b d = .ok () d' ∧ Decoding files base src dst archive (out ++ [b]) rest d' := by
  have hroom := h.room
  obtain ⟨stored, hfiles, hout⟩ := h.stored
  have hmask : d.output.produced &&& (lz4WindowSize - 1) = out.length % lz4WindowSize := by
    rw [h.produced]
    exact Nat.and_two_pow_sub_one_eq_mod _ 12
  have hring : ∀ i < (out ++ [b]).length, (out ++ [b]).length ≤ i + lz4WindowSize →
      update d.output.history (out.length % lz4WindowSize) b (i % lz4WindowSize) = (out ++ [b]).getD i 0 := by
    intro i hi hnear
    simp only [length_append, length_singleton] at hi hnear
    rcases Nat.lt_succ_iff_lt_or_eq.mp hi with hlt | rfl
    · have hslot : i % lz4WindowSize ≠ out.length % lz4WindowSize := by
        unfold lz4WindowSize at hnear ⊢
        omega
      rw [update_of_ne hslot, h.ring i hlt (by omega), getD_eq_getElem?_getD,
        getD_eq_getElem?_getD, getElem?_append_left hlt]
    · simp
  rw [lz4OutputByte]
  simp only [modify_bind, get_bind, hmask]
  let history := update d.output.history (out.length % lz4WindowSize) b
  by_cases hfull : (d.output.data ++ [b]).length = lz4OutputSize
  · obtain ⟨hcode, happend⟩ := works.append d.fs d.output.path stored (d.output.data ++ [b])
      (by rw [hfiles, h.output_path]; simp)
    refine ⟨⟨(api.fsAppendData d.fs d.output.path (d.output.data ++ [b])).2, d.input,
      ⟨d.output.path, history, [], d.output.produced + 1⟩, d.srcIdx⟩, ?_, ?_⟩
    · simp only [if_pos hfull, hcode, ne_eq, not_true_eq_false, ↓reduceIte, modify_bind, modify_run, history]
    · refine ⟨⟨?_, h.reading.2, h.reading.3, h.reading.4⟩, h.distinct, h.index_le, h.unread,
        h.output_path, by simp [h.produced], by simp [lz4OutputSize], hring,
        stored ++ (d.output.data ++ [b]), ?_, ?_⟩
      · rw [happend, h.output_path, update_of_ne h.distinct, h.reading.content]
      · rw [happend, hfiles, h.output_path, update_idem]
      · simp only [append_nil, ← hout, append_assoc]
  · refine ⟨⟨d.fs, d.input, ⟨d.output.path, history, d.output.data ++ [b],
      d.output.produced + 1⟩, d.srcIdx⟩, ?_, ?_⟩
    · simp only [if_neg hfull, pure_run, history]
    · refine ⟨⟨h.reading.1, h.reading.2, h.reading.3, h.reading.4⟩, h.distinct, h.index_le, h.unread,
        h.output_path, by simp [h.produced], ?_, hring, stored, hfiles, by simp [← hout]⟩
      simp only [length_append, length_singleton] at hfull ⊢
      omega

/-- Extension bytes are summed up to the first one below 255. -/
theorem lz4ReadLength_spec (limit fuel extra length : ℕ)
    (h : Decoding files base src dst archive out (encodeLength extra ++ rest) d) (hfuel : extra / 255 < fuel)
    (hlimit : archive.length ≤ limit + rest.length) (hmax : length + extra ≤ uint64Max) :
    ∃ d', lz4ReadLength api limit fuel length d = .ok (length + extra) d' ∧
      Decoding files base src dst archive out rest d' := by
  induction fuel generalizing extra length d with
  | zero => omega
  | succ fuel ih =>
    have hindex := h.index_add
    rw [length_append, encodeLength_length] at hindex
    rw [lz4ReadLength]
    simp only [get_bind, if_neg (show ¬ limit ≤ d.srcIdx by omega)]
    by_cases hfull : 255 ≤ extra
    · rw [encodeLength_of_le hfull, cons_append] at h
      obtain ⟨d₁, htake, h₁⟩ := lz4Take_spec works [255] 1 rfl h
      obtain ⟨d₂, hread, h₂⟩ := ih (extra - 255) (length + 255) h₁ (by omega) (by omega)
      refine ⟨d₂, ?_, h₂⟩
      rw [bind_ok htake]
      simp only [getD_cons_zero, reduceToNat, ↓reduceIte]
      rw [if_neg (by omega), hread, show length + 255 + (extra - 255) = length + extra by omega]
    · rw [encodeLength_of_lt (by omega), singleton_append] at h
      obtain ⟨d₁, htake, h₁⟩ := lz4Take_spec works [ofNat extra] 1 rfl h
      have hbyte : (ofNat extra).toNat = extra := by rw [toNat_ofNat', Nat.mod_eq_of_lt (by omega)]
      refine ⟨d₁, ?_, h₁⟩
      rw [bind_ok htake]
      simp only [getD_cons_zero, hbyte]
      rw [if_neg (by omega), if_neg (by omega), pure_run]

/-- A length written with its extension is read back from its nibble and the extension. -/
theorem lz4FullLength_spec (limit length added : ℕ)
    (h : Decoding files base src dst archive out (encodeExtension length ++ rest) d)
    (hlimit : archive.length ≤ limit + rest.length) (hmax : length + added ≤ uint64Max) :
    ∃ d', lz4FullLength api limit (min length 15) (min length 15 + added) d = .ok (length + added) d' ∧
      Decoding files base src dst archive out rest d' := by
  rw [lz4FullLength]
  by_cases hlong : 15 ≤ length
  · rw [encodeExtension, if_pos hlong] at h
    have hindex := h.index_add
    rw [length_append, encodeLength_length] at hindex
    obtain ⟨d', hread, h'⟩ := lz4ReadLength_spec works limit (limit - d.srcIdx + 1)
      (length - 15) (15 + added) h (by omega) hlimit (by omega)
    refine ⟨d', ?_, h'⟩
    rw [min_eq_right hlong, if_pos rfl, get_bind, hread]
    congr 1; omega
  · rw [encodeExtension, if_neg hlong, nil_append] at h
    rw [min_eq_left (by omega), if_neg (by omega)]
    exact ⟨d, rfl, h⟩

/-- Producing a list of bytes appends them. -/
theorem lz4OutputBytes_spec (bytes : List UInt8) (h : Decoding files base src dst archive out rest d) :
    ∃ d', lz4OutputBytes api bytes d = .ok () d' ∧
      Decoding files base src dst archive (out ++ bytes) rest d' := by
  induction bytes generalizing out d with
  | nil => exact ⟨d, rfl, by simpa using h⟩
  | cons b bytes ih =>
    obtain ⟨d₁, hbyte, h₁⟩ := lz4OutputByte_spec works h b
    obtain ⟨d₂, hrest, h₂⟩ := ih h₁
    refine ⟨d₂, ?_, by simpa using h₂⟩
    rw [lz4OutputBytes, bind_ok hbyte, hrest]

/-- Literals are moved from the archive to the output. -/
theorem lz4CopyLiterals_spec (fuel : ℕ) (literals : List UInt8) (hfuel : literals.length ≤ fuel)
    (h : Decoding files base src dst archive out (literals ++ rest) d) :
    ∃ d', lz4CopyLiterals api fuel literals.length d = .ok () d' ∧
      Decoding files base src dst archive (out ++ literals) rest d' := by
  induction fuel generalizing out literals d with
  | zero =>
    obtain rfl := eq_nil_of_length_eq_zero (Nat.le_zero.mp hfuel)
    exact ⟨d, rfl, by simpa using h⟩
  | succ fuel ih =>
    rw [lz4CopyLiterals]
    by_cases hempty : literals.length = 0
    · obtain rfl := eq_nil_of_length_eq_zero hempty
      exact ⟨d, rfl, by simpa using h⟩
    simp only [if_neg hempty]
    set batch := if 512 < literals.length then 512 else literals.length with hbatch
    have hbounds : 0 < batch ∧ batch ≤ literals.length := by rw [hbatch]; split <;> omega
    have hlen : (literals.take batch).length = batch := by rw [length_take]; omega
    rw [← take_append_drop batch literals, append_assoc] at h
    obtain ⟨d₁, htake, h₁⟩ := lz4Take_spec works _ batch hlen h
    obtain ⟨d₂, hbytes, h₂⟩ := lz4OutputBytes_spec works (literals.take batch) h₁
    obtain ⟨d₃, hrest, h₃⟩ := ih (literals.drop batch) (by rw [length_drop]; omega) h₂
    refine ⟨d₃, ?_, by simpa [append_assoc] using h₃⟩
    rw [bind_ok htake, bind_ok hbytes, ← length_drop, hrest]

/-- The ring replays earlier output, also where the copy overlaps itself. -/
theorem lz4CopyMatch_spec (offset count : ℕ) (h : Decoding files base src dst archive out rest d)
    (hpos : 0 < offset) (hwindow : offset ≤ lz4WindowSize) (hback : offset ≤ out.length) :
    ∃ d', lz4CopyMatch api offset count d = .ok () d' ∧
      Decoding files base src dst archive (copyBack offset count out) rest d' := by
  induction count generalizing out d with
  | zero => exact ⟨d, rfl, h⟩
  | succ count ih =>
    have hread : d.output.history ((d.output.produced - offset) &&& (lz4WindowSize - 1)) =
        out.getD (out.length - offset) 0 := by
      have hmask : (out.length - offset) &&& (lz4WindowSize - 1) =
          (out.length - offset) % lz4WindowSize := Nat.and_two_pow_sub_one_eq_mod _ 12
      rw [h.produced, hmask, h.ring _ (by omega) (by omega)]
    obtain ⟨d₁, hbyte, h₁⟩ := lz4OutputByte_spec works h (out.getD (out.length - offset) 0)
    obtain ⟨d₂, hrest, h₂⟩ := ih h₁ (by simp; omega)
    refine ⟨d₂, ?_, h₂⟩
    rw [lz4CopyMatch]
    simp only [get_bind, hread]
    rw [bind_ok hbyte, hrest]

end Steps

/-!
## Opening an archive

What `kernel_lz4_decompress` makes of the first eight bytes of a file, whatever they are: the
original size, and whether the marker follows. A file with a size other than zero is then decoded
from the state described here.
-/

/-- The original size in the header. -/
def lz4OriginalSize (archive : List UInt8) : ℕ := decode (archive.take 4)

/-- The header is followed by the marker. -/
def lz4IsFramed (archive : List UInt8) : Bool :=
  decide (8 ≤ archive.length) && (archive.drop 4).take 4 == lz4Marker

/-- The header of a readable file is its first four bytes and the marker test. -/
theorem lz4ReadHeader_reads (works : api.Works files) {d : Lz4Decoder σ P}
    (h : Reading files src archive d) (hlen : 4 ≤ archive.length) :
    ∃ d', lz4ReadHeader api archive.length d = .ok (lz4OriginalSize archive, lz4IsFramed archive) d' ∧
      Reading files src archive d' ∧ SameButInput files d d' := by
  obtain ⟨d₁, hfirst, h₁, hsame₁⟩ := lz4ReadAt_spec works 4 h 0 4 le_rfl (by omega)
  rw [drop_zero] at hfirst
  rw [lz4ReadHeader, bind_ok hfirst]
  by_cases hlong : 8 ≤ archive.length
  · obtain ⟨d₂, hsecond, h₂, hsame₂⟩ := lz4ReadAt_spec works 4 h₁ 4 4 le_rfl (by omega)
    refine ⟨d₂, ?_, h₂, hsame₂.files_eq.trans hsame₁.files_eq,
      hsame₂.output_eq.trans hsame₁.output_eq, hsame₂.index_eq.trans hsame₁.index_eq⟩
    rw [if_pos hlong, lz4IsFramed, decide_eq_true hlong, Bool.true_and]
    apply tryCatch_ok
    rw [bind_ok hsecond]
    rfl
  · refine ⟨d₁, ?_, h₁, hsame₁⟩
    rw [if_neg hlong, lz4IsFramed, decide_eq_false hlong, Bool.false_and]
    rfl

theorem lz4OriginalSize_archiveOf {content : List UInt8} (body : List UInt8)
    (hsmall : content.length < 2 ^ 32) : lz4OriginalSize (archiveOf content body) = content.length := by
  rw [lz4OriginalSize, archiveOf, append_assoc, take_left' (encode_length _ _), decode_encode_of_lt (by omega)]

theorem lz4IsFramed_archiveOf (content body : List UInt8) : lz4IsFramed (archiveOf content body) = true := by
  have hmarker : ((archiveOf content body).drop 4).take 4 = lz4Marker := by
    rw [archiveOf, append_assoc, drop_left' (encode_length _ _)]
    rfl
  rw [lz4IsFramed, hmarker, beq_self_eq_true, Bool.and_true, decide_eq_true_eq, archiveOf_length]
  omega

theorem archiveOf_drop (content body : List UInt8) : (archiveOf content body).drop 8 = body :=
  drop_left' (by simp [lz4Marker])

/-- The loops of `kernel_lz4_decompress`, with the checks after them. -/
def lz4DecodeAll (api : FileApi σ P) (archive : List UInt8) : Decode σ P Unit := do
  lz4DecodeBlocks api (lz4IsFramed archive) (lz4OriginalSize archive) archive.length
    (archive.length + 1)
  lz4Finish api (lz4OriginalSize archive) archive.length

section Opened

variable (works : api.Works files) (fs : σ) (history : ℕ → UInt8) {srcPath dstPath : P}
  (hsrc : files fs srcPath = some archive) (hdst : files fs dstPath = none)
include works hsrc hdst

/-- A file of an original size other than zero is decoded from its first frame or block on. -/
theorem kernelLz4Decompress_opened (hlen : 4 ≤ archive.length) (hsize : lz4OriginalSize archive ≠ 0) :
    ∃ d, Decoding files (files fs) srcPath dstPath archive []
        (archive.drop (if lz4IsFramed archive then 8 else 4)) d ∧
      kernelLz4Decompress api history fs srcPath archive.length dstPath =
        match lz4DecodeAll api archive d with
        | .ok _ d => ⟨0, "[LZ4] Decompression completed successfully.", d.fs⟩
        | .error _ d => ⟨-1, "[LZ4] Error: Invalid or unreadable compressed data.",
            (api.fsDelete d.fs dstPath).2⟩ := by
  have hne : srcPath ≠ dstPath := by
    rintro rfl
    simp [hsrc] at hdst
  obtain ⟨d, hheader, hreading, hsame⟩ := lz4ReadHeader_reads works
    (d := ⟨fs, ⟨srcPath, archive.length, uint64Max, []⟩, ⟨dstPath, history, [], 0⟩, 0⟩)
    ⟨hsrc, rfl, rfl, rfl⟩ hlen
  obtain ⟨hfiles, houtput, -⟩ := hsame
  obtain ⟨hcreate, hcreated⟩ := works.create d.fs dstPath (by rw [hfiles, hdst])
  rw [hfiles] at hcreated
  refine ⟨{ d with
    fs := (api.fsCreate d.fs dstPath).2, srcIdx := if lz4IsFramed archive then 8 else 4 }, ?_, ?_⟩
  · refine ⟨⟨?_, hreading.2, hreading.3, hreading.4⟩, hne, ?_, rfl,
      by rw [houtput], by rw [houtput]; rfl, by rw [houtput]; simp [lz4OutputSize], by simp,
      [], hcreated, by rw [houtput]; rfl⟩
    · rw [hcreated, update_of_ne hne, hsrc]
    · dsimp only
      split
      · rename_i hframed
        simp only [lz4IsFramed, Bool.and_eq_true, decide_eq_true_eq] at hframed
        exact hframed.1
      · exact hlen
  · simp only [kernelLz4Decompress, if_neg (show ¬ archive.length < 4 by omega), hheader,
      if_neg hsize, hcreate, ne_eq, not_true_eq_false, ↓reduceIte]
    rfl

/-- A file of original size zero is accepted when nothing follows its header. -/
theorem kernelLz4Decompress_empty (hlen : 4 ≤ archive.length) (hsize : lz4OriginalSize archive = 0) :
    ((kernelLz4Decompress api history fs srcPath archive.length dstPath).code = 0 ↔
        archive.length = if lz4IsFramed archive then 8 else 4) ∧
      ((kernelLz4Decompress api history fs srcPath archive.length dstPath).code = 0 →
        files (kernelLz4Decompress api history fs srcPath archive.length dstPath).fs =
          update (files fs) dstPath (some [])) := by
  obtain ⟨d, hheader, -, hsame⟩ := lz4ReadHeader_reads works
    (d := ⟨fs, ⟨srcPath, archive.length, uint64Max, []⟩, ⟨dstPath, history, [], 0⟩, 0⟩)
    ⟨hsrc, rfl, rfl, rfl⟩ hlen
  obtain ⟨hfiles, -, -⟩ := hsame
  obtain ⟨hcreate, hcreated⟩ := works.create d.fs dstPath (by rw [hfiles, hdst])
  rw [hfiles] at hcreated
  simp only [kernelLz4Decompress, if_neg (show ¬ archive.length < 4 by omega), hheader, if_pos hsize]
  by_cases hexact : archive.length = if lz4IsFramed archive then 8 else 4
  · rw [if_neg (not_not_intro hexact)]
    simp only [hcreate, ne_eq, not_true_eq_false, if_false]
    exact ⟨iff_of_true trivial hexact, fun _ => hcreated⟩
  · rw [if_pos hexact]
    exact ⟨iff_of_false (by simp) hexact, by simp⟩

end Opened

omit [DecidableEq P] in
theorem kernelLz4Decompress_short (fs : σ) (history : ℕ → UInt8) (srcPath dstPath : P) {size : ℕ}
    (hsize : size < 4) : (kernelLz4Decompress api history fs srcPath size dstPath).code = -1 := by
  rw [kernelLz4Decompress, if_pos hsize]

end Windoge.Lz4
