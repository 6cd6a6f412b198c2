import Windoge.Lz4.RoundTrip

/-!
# The build script's encoder

`lz4_compress_block` and `lz4_compress_data` of `compile.py`. The dictionary is keyed on the
untruncated product, so it confuses fewer words than the kernel's table and finds other matches.
Python integers do not wrap; `append` and `to_bytes` raise on a value that does not fit, which is
`none` here.
-/

namespace Windoge.BuildScript

open Sequences Greedy LittleEndian Lz4 List Function Option

/-- `bytearray.append`: a value that is not a byte raises. -/
def append (value : ℕ) : Option (List UInt8) :=
  if value < 256 then some [UInt8.ofNat value] else none

/-- `int.to_bytes` in little-endian order: a value that does not fit raises. -/
def toBytes (value width : ℕ) : Option (List UInt8) :=
  if value < 256 ^ width then some (encode width value) else none

/-- `write_length`. -/
def writeLength : ℕ → ℕ → Option (List UInt8)
  | 0, _ => none
  | fuel + 1, length =>
    if 255 ≤ length then do
      let full ← append 255
      let rest ← writeLength fuel (length - 255)
      some (full ++ rest)
    else append length

/-- The guarded call of `write_length` for a length of fifteen or more. -/
def writeExtension (length : ℕ) : Option (List UInt8) :=
  if 15 ≤ length then writeLength length (length - 15) else some []

/-- `write_sequence`: the bytes it adds to the output. -/
def writeSequence (data : List UInt8) (anchor stop matchLength matchOffset : ℕ) :
    Option (List UInt8) := do
  let literalLength := stop - anchor
  let encodedMatchLength := matchLength - 4
  let token ← append ((min literalLength 15) <<< 4 ||| min encodedMatchLength 15)
  let extension ← writeExtension literalLength
  let literals := (data.drop anchor).take (stop - anchor)
  if matchLength = 0 then
    some (token ++ (extension ++ literals))
  else do
    let offset ← toBytes matchOffset 2
    let matchExtension ← writeExtension encodedMatchLength
    some (token ++ (extension ++ (literals ++ (offset ++ matchExtension))))

/-- The dictionary key of the word at a position. -/
def key (data : List UInt8) (position : ℕ) : ℕ :=
  (decode ((data.drop position).take 4) * 2654435761) >>> 20

/-- The loop over `range(index + 1, min(match_end, len(data) - 3))`. -/
def learn (data : List UInt8) : ℕ → (ℕ → Option ℕ) → ℕ → ℕ → ℕ → Option ℕ
  | 0, table, _, _ => table
  | fuel + 1, table, position, stop =>
    if position < stop then
      learn data fuel (Function.update table (key data position) (some position)) (position + 1) stop
    else table

/-- The matching loop; returns the final anchor and the bytes added. -/
def compressLoop (data : List UInt8) : ℕ → (ℕ → Option ℕ) → ℕ → ℕ → Option (ℕ × List UInt8)
  | 0, _, _, _ => none
  | fuel + 1, table, anchor, index =>
    if 12 ≤ data.length ∧ index ≤ data.length - 12 then
      let slot := key data index
      let found := table slot
      let table := Function.update table slot (some index)
      match found with
      | none => compressLoop data fuel table anchor (index + 1)
      | some candidate =>
        if 4096 < index - candidate ∨
            (data.drop candidate).take 4 ≠ (data.drop index).take 4 then
          compressLoop data fuel table anchor (index + 1)
        else do
          let maximumMatch := data.length - 5 - index
          let matchLength := extendMatch data candidate index maximumMatch data.length 4
          let written ← writeSequence data anchor index matchLength (index - candidate)
          let matchEnd := index + matchLength
          let table := learn data matchLength table (index + 1) (min matchEnd (data.length - 3))
          let (anchor, rest) ← compressLoop data fuel table matchEnd matchEnd
          some (anchor, written ++ rest)
    else some (anchor, [])

/-- `lz4_compress_block`. -/
def lz4CompressBlock (data : List UInt8) : Option (List UInt8) := do
  let (anchor, compressed) ← compressLoop data (data.length + 1) (fun _ => none) 0 0
  if 0 < data.length then do
    let last ← writeSequence data anchor data.length 0 0
    some (compressed ++ last)
  else some compressed

/-- The loop over the 4096-byte blocks of `lz4_compress_data`. -/
def compressBlocks (data : List UInt8) : ℕ → ℕ → Option (List UInt8)
  | 0, _ => none
  | fuel + 1, offset =>
    if offset < data.length then do
      let block := (data.drop offset).take 4096
      let encodedBlock ← lz4CompressBlock block
      let size ← toBytes block.length 4
      let encodedSize ← toBytes encodedBlock.length 4
      let rest ← compressBlocks data fuel (offset + 4096)
      some (size ++ encodedSize ++ (encodedBlock ++ rest))
    else some []

/-- `lz4_compress_data`; too long an input raises. -/
def lz4CompressData (data : List UInt8) : Option (List UInt8) :=
  if 0xFFFFFFFF < data.length then none
  else do
    let size ← toBytes data.length 4
    let blocks ← compressBlocks data (data.length + 1) 0
    some (size ++ lz4Marker ++ blocks)

/-- The Python dictionary as a dictionary of earlier positions. -/
def dictionary (data : List UInt8) : Dictionary (ℕ → Option ℕ) where
  lookup table index := table (key data index)
  store table index := Function.update table (key data index) (some index)
  learn table index matchEnd :=
    learn data (matchEnd - index) table (index + 1) (min matchEnd (data.length - 3))

/-- Every stored position is below `reached`. -/
def StoredBelow (table : ℕ → Option ℕ) (reached : ℕ) : Prop :=
  ∀ slot position, table slot = some position → position < reached

/-- Storing a position keeps the dictionary below any bound past it. -/
theorem StoredBelow.update {table : ℕ → Option ℕ} {reached bound : ℕ}
    (h : StoredBelow table reached) (slot position : ℕ) (hposition : position < bound)
    (hle : reached ≤ bound) : StoredBelow (Function.update table slot (some position)) bound := by
  intro other stored hstored
  by_cases heq : other = slot
  · subst heq
    rw [update_self] at hstored
    cases hstored
    exact hposition
  · rw [update_of_ne heq] at hstored
    exact (h other stored hstored).trans_le hle

theorem learn_below (data : List UInt8) (fuel : ℕ) (table : ℕ → Option ℕ) (position stop bound : ℕ)
    (hstop : stop ≤ bound) (h : StoredBelow table bound) :
    StoredBelow (learn data fuel table position stop) bound := by
  induction fuel generalizing table position with
  | zero => exact h
  | succ fuel ih =>
    rw [learn]
    split
    · exact ih _ _ (h.update _ _ (by omega) le_rfl)
    · exact h

theorem dictionary_bounded (data : List UInt8) : (dictionary data).Bounded StoredBelow where
  lookup table reached index candidate h hlookup := h _ _ hlookup
  store table reached h := h.update _ _ (by omega) (by omega)
  learn table index matchEnd hlt h :=
    learn_below data _ table _ _ _ (min_le_left _ _) fun slot position hslot => by
      have := h slot position hslot
      omega

theorem append_of_lt {value : ℕ} (h : value < 256) : append value = some [UInt8.ofNat value] := if_pos h

theorem toBytes_of_lt {value width : ℕ} (h : value < 256 ^ width) :
    toBytes value width = some (encode width value) :=
  if_pos h

/-- `write_length` yields the extension bytes of the length. -/
theorem writeLength_eq (fuel length : ℕ) (hfuel : length / 255 < fuel) :
    writeLength fuel length = some (encodeLength length) := by
  induction fuel generalizing length with
  | zero => omega
  | succ fuel ih =>
    rw [writeLength]
    split
    · rename_i hfull
      rw [append_of_lt (by decide), ih _ (by omega), encodeLength_of_le hfull]
      rfl
    · rename_i hlast
      rw [append_of_lt (by omega), encodeLength_of_lt (by omega)]

theorem writeExtension_eq (length : ℕ) : writeExtension length = some (encodeExtension length) := by
  unfold writeExtension encodeExtension
  split
  · exact writeLength_eq _ _ (by omega)
  · rfl

section

variable (data : List UInt8)

/-- `write_sequence` yields the encoding of the sequence it describes. -/
theorem writeSequence_eq (anchor stop matchLength matchOffset : ℕ) (hstop : stop ≤ data.length)
    (hoffset : matchOffset < 256 ^ 2) : writeSequence data anchor stop matchLength matchOffset =
      some (Sequence.encode ⟨(data.drop anchor).take (stop - anchor), matchLength, matchOffset⟩) := by
  have hlits : ((data.drop anchor).take (stop - anchor)).length = stop - anchor := by
    rw [length_take, length_drop]; omega
  have htoken : (min (stop - anchor) 15) <<< 4 ||| min (matchLength - 4) 15 < 256 := by
    rw [← Nat.shiftLeft_add_eq_or_of_lt (by omega), Nat.shiftLeft_eq]
    omega
  unfold writeSequence
  simp only [append_of_lt htoken, writeExtension_eq, toBytes_of_lt hoffset, bind_eq_bind, bind_some]
  unfold Sequence.encode encodeCopy encodeToken
  simp only [hlits]
  split <;> simp

/-- Comparing two four-byte slices inside the data compares their bytes. -/
theorem slices_eq_iff (candidate index : ℕ) (hcandidate : candidate + 4 ≤ data.length)
    (hindex : index + 4 ≤ data.length) : (data.drop candidate).take 4 = (data.drop index).take 4 ↔
      agreeFour data candidate index = true := by
  have hread : ∀ start k, start + 4 ≤ data.length → k < 4 →
      ((data.drop start).take 4).getD k 0 = data.getD (start + k) 0 := by
    intro start k hstart hk
    rw [getD_eq_getElem?_getD, getElem?_take_of_lt hk, getElem?_drop, ← getD_eq_getElem?_getD]
  rw [agreeFour_iff]
  constructor
  · intro heq k hk
    rw [← hread candidate k hcandidate hk, heq, hread index k hindex hk]
  · intro hagree
    apply ext_getElem
    · simp only [length_take, length_drop]; omega
    · intro k hk _
      rw [length_take] at hk
      rw [← getD_eq_getElem _ 0, ← getD_eq_getElem _ 0, hread _ k hcandidate (by omega),
        hread _ k hindex (by omega), hagree k (by omega)]

/-- The matching loop adds the greedy sequences up to the literals left over at its end. -/
theorem compressLoop_eq (fuel : ℕ) (table : ℕ → Option ℕ) (anchor index : ℕ)
    (hindex : index ≤ data.length) (hfuel : data.length < fuel + index)
    (hbelow : StoredBelow table index) : ∃ anchor' sequences,
      compressLoop data fuel table anchor index = some (anchor', encodeAll sequences) ∧
      greedy (dictionary data) lz4WindowSize data fuel table anchor index =
        sequences ++ [⟨data.drop anchor', 0, 0⟩] := by
  induction fuel generalizing table anchor index with
  | zero => omega
  | succ fuel ih =>
    rw [greedy, compressLoop]
    by_cases hinside : 12 ≤ data.length ∧ index ≤ data.length - 12
    · simp only [if_pos hinside]
      have hstore := (dictionary_bounded data).store table index hbelow
      have hskip := ih _ anchor (index + 1) (by omega) (by omega) hstore
      cases hfound : table (key data index) with
      | none =>
        have hlookup : (dictionary data).lookup table index = none := hfound
        simp only [hlookup]
        exact hskip
      | some candidate =>
        have hlookup : (dictionary data).lookup table index = some candidate := hfound
        have hcandidate := hbelow _ _ hfound
        have hslices := slices_eq_iff data candidate index (by omega) (by omega)
        have hreject : (4096 < index - candidate ∨ (data.drop candidate).take 4 ≠ (data.drop index).take 4) ↔
            (lz4WindowSize < index - candidate ∨ agreeFour data candidate index = false) := by
          rw [ne_eq, hslices, Bool.not_eq_true]
          rfl
        simp only [hlookup, hreject]
        by_cases hno : lz4WindowSize < index - candidate ∨ agreeFour data candidate index = false
        · simp only [if_pos hno]
          exact hskip
        simp only [if_neg hno]
        simp only [not_or, Bool.not_eq_false, lz4WindowSize, not_lt] at hno
        obtain ⟨hfour, hmax, -⟩ := extendMatch_spec candidate index
          (data.length - 5 - index) data.length 4 (by omega)
          ((agreeFour_iff candidate index).mp hno.2)
        set length := extendMatch data candidate index (data.length - 5 - index) data.length 4
        have hlearn : (dictionary data).learn ((dictionary data).store table index) index (index + length) =
              learn data length (update table (key data index) (some index))
                (index + 1) (min (index + length) (data.length - 3)) := by
          simp only [dictionary, Nat.add_sub_cancel_left]
        obtain ⟨anchor', sequences, hloop, hgreedy⟩ := ih _ (index + length) (index + length)
          (by omega) (by omega)
          ((dictionary_bounded data).learn _ index (index + length) (by omega) hstore)
        rw [hlearn] at hloop
        refine ⟨anchor', _ :: sequences, ?_, congrArg (cons _) hgreedy⟩
        rw [writeSequence_eq _ _ _ _ _ (by omega) (by omega)]
        simp only [bind_eq_bind, bind_some, hloop]
        rfl
    · simp only [if_neg hinside]
      exact ⟨anchor, [], rfl, rfl⟩

/-- The sequences the build script emits for a block. -/
def blockSequences (data : List UInt8) : List Sequence :=
  greedy (dictionary data) lz4WindowSize data (data.length + 1) (fun _ => none) 0 0

theorem blockSequences_factors (hpos : 0 < data.length) : Factors lz4WindowSize data 0 (blockSequences data) :=
  greedy_factors _ (dictionary_bounded data) _ _ 0 0 (fun _ _ h => nomatch h) le_rfl hpos

/-- A block is encoded without raising, as the encoding of its sequences. -/
theorem lz4CompressBlock_eq (hpos : 0 < data.length) :
    lz4CompressBlock data = some (encodeAll (blockSequences data)) := by
  obtain ⟨anchor, sequences, hloop, hgreedy⟩ := compressLoop_eq data (data.length + 1)
    (fun _ => none) 0 0 (by omega) (by omega) (fun _ _ h => nomatch h)
  have hrest : (data.drop anchor).take (data.length - anchor) = data.drop anchor :=
    take_of_length_le (by rw [length_drop])
  unfold lz4CompressBlock blockSequences
  simp only [hloop, bind_eq_bind, bind_some, if_pos hpos, hgreedy,
    writeSequence_eq _ _ _ _ _ le_rfl (by decide : 0 < 256 ^ 2), hrest]
  simp [encodeAll]

/-- The block loop yields the frames of the rest of the data. -/
theorem compressBlocks_framed (fuel offset : ℕ) (hfuel : data.length - offset < fuel) :
    ∃ body, compressBlocks data fuel offset = some body ∧ Framed data (min offset data.length) body := by
  induction fuel generalizing offset with
  | zero => omega
  | succ fuel ih =>
    rw [compressBlocks]
    by_cases hmore : offset < data.length
    · set block := (data.drop offset).take 4096 with hblock
      have hlen : block.length = min 4096 (data.length - offset) := by rw [hblock, length_take, length_drop]
      have hfactors := blockSequences_factors block (by omega)
      have hbound := hfactors.encodeAll_length_le
      have hencoded : (encodeAll (blockSequences block)).length < 256 ^ 4 := by omega
      have hsize : block.length < 256 ^ 4 := by omega
      obtain ⟨body, hbody, hframed⟩ := ih (offset + 4096) (by omega)
      refine ⟨encode 4 block.length ++ encode 4 (encodeAll (blockSequences block)).length ++
        (encodeAll (blockSequences block) ++ body), ?_, ?_⟩
      · simp only [if_pos hmore, lz4CompressBlock_eq block (by omega), bind_eq_bind,
          bind_some, toBytes_of_lt hsize, toBytes_of_lt hencoded, hbody]
      · rw [min_eq_left hmore.le]
        have hslice : (data.drop offset).take block.length = block := by
          rw [hblock, length_take, ← take_take, take_length]
        apply Framed.frame (by omega) (by omega) (by rw [hslice]; exact hfactors) hencoded
        rwa [show offset + block.length = min (offset + 4096) data.length by omega]
    · refine ⟨[], if_neg hmore, ?_⟩
      rw [Nat.min_eq_right (by omega)]
      exact .done

/-- Data of less than 4 GiB is packed without raising, into an archive of it. -/
theorem lz4CompressData_framed (hsize : data.length < 2 ^ 32) :
    ∃ body, lz4CompressData data = some (archiveOf data body) ∧ Framed data 0 body := by
  obtain ⟨body, hbody, hframed⟩ := compressBlocks_framed data (data.length + 1) 0 (by omega)
  rw [Nat.zero_min] at hframed
  refine ⟨body, ?_, hframed⟩
  unfold lz4CompressData
  rw [if_neg (by omega)]
  simp only [toBytes_of_lt (by omega : data.length < 256 ^ 4), hbody, bind_eq_bind, bind_some]
  rfl

end

variable {σ P : Type} [DecidableEq P] {api : FileApi σ P} {files : σ → P → Option (List UInt8)}

/-- The kernel unpacks every archive the build script makes: for any data of less than 4 GiB,
decompressing a file that holds its archive succeeds and writes exactly the data. -/
theorem kernel_unpacks_build_archive (works : api.Works files) (fs : σ) (history : ℕ → UInt8)
    (srcPath dstPath : P) (data : List UInt8) (hsize : data.length < 2 ^ 32)
    (hsrc : files fs srcPath = lz4CompressData data) (hdst : files fs dstPath = none) :
    ∃ archive, lz4CompressData data = some archive ∧
      (kernelLz4Decompress api history fs srcPath archive.length dstPath).code = 0 ∧
      files (kernelLz4Decompress api history fs srcPath archive.length dstPath).fs =
        Function.update (files fs) dstPath (some data) := by
  obtain ⟨body, harchive, hframed⟩ := lz4CompressData_framed data hsize
  rw [harchive] at hsrc
  obtain ⟨hcode, hfiles⟩ := kernelLz4Decompress_spec works fs history hsize hframed hsrc hdst
  exact ⟨archiveOf data body, harchive, hcode, hfiles⟩

/-- The kernel unpacks the build script's archive of sixteen equal bytes in the memory store. -/
theorem kernel_unpacks_build_archive_memory :
    let data : List UInt8 := List.replicate 16 0x61
    let fs : String → Option (List UInt8) :=
      update (fun _ => none) "a.lz4" (lz4CompressData data)
    ∃ archive, lz4CompressData data = some archive ∧
      (kernelLz4Decompress memoryApi (fun _ => 0) fs "a.lz4" archive.length "a.elf").code = 0 ∧
      (kernelLz4Decompress memoryApi (fun _ => 0) fs "a.lz4" archive.length "a.elf").fs =
        update fs "a.elf" (some data) :=
  kernel_unpacks_build_archive memoryApi_works _ (fun _ => 0) "a.lz4" "a.elf"
    (replicate 16 0x61) (by decide) (update_self _ _ _) rfl

end Windoge.BuildScript
