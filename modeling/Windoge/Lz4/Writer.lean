import Windoge.Lib.Flow
import Windoge.Lib.Greedy

/-!
# The file operations behind the archiver

`kernel/kutil/lz4_pack.c` reaches files only through `fs_create`, `fs_append_data`,
`fs_read_raw_at` and `fs_delete`. The archiver is modelled over an arbitrary implementation of
these four, with the integer results the C code tests.
-/

namespace Windoge.Lz4

/-- The four operations on a file-system state `σ` with path names `P`. A read returns its result
code and the bytes it stored in the caller's buffer. -/
structure FileApi (σ P : Type) where
  fsCreate : σ → P → Int × σ
  fsAppendData : σ → P → List UInt8 → Int × σ
  fsReadRawAt : σ → P → ℕ → ℕ → Int × List UInt8 × σ
  fsDelete : σ → P → Int × σ

/-- Every operation succeeds: creating an absent file makes it empty, appending concatenates, and
reading returns the exact slice. `files` is the content of each path in a state. -/
structure FileApi.Works {σ P : Type} [DecidableEq P] (api : FileApi σ P)
    (files : σ → P → Option (List UInt8)) : Prop where
  create : ∀ fs path, files fs path = none →
    (api.fsCreate fs path).1 = 0 ∧
      files (api.fsCreate fs path).2 = Function.update (files fs) path (some [])
  append : ∀ fs path content data, files fs path = some content →
    (api.fsAppendData fs path data).1 = 0 ∧
      files (api.fsAppendData fs path data).2 =
        Function.update (files fs) path (some (content ++ data))
  read : ∀ fs path content offset size, files fs path = some content →
    (api.fsReadRawAt fs path offset size).1 = ((content.drop offset).take size).length ∧
      (api.fsReadRawAt fs path offset size).2.1 = (content.drop offset).take size ∧
      files (api.fsReadRawAt fs path offset size).2.2 = files fs

/-- What the archiver reports: the code it returns, the line it prints, and the files it leaves. -/
structure Lz4Outcome (σ : Type) where
  code : Int
  message : String
  fs : σ

/-- A store in memory, indexed by path. -/
def memoryApi : FileApi (String → Option (List UInt8)) String where
  fsCreate fs path := (0, Function.update fs path (some []))
  fsAppendData fs path data :=
    match fs path with
    | some content => (0, Function.update fs path (some (content ++ data)))
    | none => (-1, fs)
  fsReadRawAt fs path offset size :=
    match fs path with
    | some content =>
      (((content.drop offset).take size).length, (content.drop offset).take size, fs)
    | none => (-1, [], fs)
  fsDelete fs path := (1, Function.update fs path none)

theorem memoryApi_works : memoryApi.Works fun fs => fs where
  create _ _ _ := ⟨rfl, rfl⟩
  append fs path content data h := by simp [memoryApi, h]
  read fs path content offset size h := by simp [memoryApi, h]

/-!
## The buffered writer and the sequence encoder

`lz4_write_buffer_t` with the file system it flushes to. A buffer without a path cannot flush:
filling it to its capacity is an error. `length` in the C structure is the length of `data` here.
-/

open Sequences LittleEndian Windoge.Flow List UInt8

/-- `lz4_write_buffer_t`, together with the files it flushes to. -/
structure Lz4Writer (σ P : Type) where
  fs : σ
  path : Option P
  data : List UInt8
  capacity : ℕ

/-- A writer action; `-1` in the C code is a thrown error here. -/
abbrev Write (σ P : Type) := EStateM Unit (Lz4Writer σ P)

variable {σ P : Type} (api : FileApi σ P)

/-- `lz4_write_flush`. -/
def lz4WriteFlush : Write σ P Unit := do
  let buffer ← get
  if buffer.data.length = 0 then
    pure ()
  else match buffer.path with
    | none => throw ()
    | some path =>
      let (code, fs) := api.fsAppendData buffer.fs path buffer.data
      if code ≠ 0 then do
        modify fun b => { b with fs := fs }
        throw ()
      else modify fun b => { b with fs := fs, data := [] }

/-- The copying loop of `lz4_write`. Every round but a first one on a full buffer copies at least
one byte, so one round more than the number of bytes is enough. -/
def lz4WriteLoop : ℕ → List UInt8 → Write σ P Unit
  | 0, data => if data.length = 0 then pure () else throw ()
  | fuel + 1, data => do
    if data.length = 0 then
      pure ()
    else
      let buffer ← get
      let available := buffer.capacity - buffer.data.length
      let batch := if data.length < available then data.length else available
      modify fun b => { b with data := b.data ++ data.take batch }
      let filled ← get
      if filled.data.length = filled.capacity then
        if filled.path.isNone then
          throw ()
        else do
          lz4WriteFlush api
          lz4WriteLoop fuel (data.drop batch)
      else lz4WriteLoop fuel (data.drop batch)

/-- `lz4_write`. -/
def lz4Write (data : List UInt8) : Write σ P Unit := lz4WriteLoop api (data.length + 1) data

/-- `lz4_write_length`: full bytes of 255, then the remainder. -/
def lz4WriteLength : ℕ → ℕ → Write σ P Unit
  | 0, _ => throw ()
  | fuel + 1, length => do
    if 255 ≤ length then do
      lz4Write api [255]
      lz4WriteLength fuel (length - 255)
    else lz4Write api [UInt8.ofNat length]

/-- The guard `length >= 15U && lz4_write_length(output, length - 15U)` of both lengths. -/
def lz4WriteExtension (length : ℕ) : Write σ P Unit :=
  if 15 ≤ length then lz4WriteLength api length (length - 15) else pure ()

/-- `lz4_write_sequence`. -/
def lz4WriteSequence (literals : List UInt8) (matchLength matchOffset : ℕ) : Write σ P Unit := do
  let literalLength := literals.length
  let encodedMatchLength := if 0 < matchLength then matchLength - 4 else 0
  let token := UInt8.ofNat ((if literalLength < 15 then literalLength else 15) <<< 4 |||
    (if encodedMatchLength < 15 then encodedMatchLength else 15))
  lz4Write api [token]
  lz4WriteExtension api literalLength
  lz4Write api literals
  if matchLength = 0 then
    pure ()
  else do
    lz4Write api [UInt8.ofNat (matchOffset &&& 0xFF), UInt8.ofNat (matchOffset >>> 8 &&& 0xFF)]
    lz4WriteExtension api encodedMatchLength

variable {api}

/-- A buffer with room left takes the bytes and touches no file. -/
theorem lz4Write_room (data : List UInt8) (w : Lz4Writer σ P) (hroom : w.data.length + data.length < w.capacity) :
    lz4Write api data w = .ok () { w with data := w.data ++ data } := by
  rw [lz4Write, lz4WriteLoop]
  by_cases hempty : data.length = 0
  · obtain rfl := eq_nil_of_length_eq_zero hempty
    simp
  have hbatch : data.length < w.capacity - w.data.length := by omega
  have hopen : (w.data ++ data).length ≠ w.capacity := by rw [length_append]; omega
  simp only [hempty, ↓reduceIte, get_bind, modify_bind, if_pos hbatch, take_length, drop_length, if_neg hopen]
  cases data with
  | nil => simp at hempty
  | cons b rest => simp [lz4WriteLoop]

/-- The extension bytes of a length are written in order. -/
theorem lz4WriteLength_room (fuel length : ℕ) (w : Lz4Writer σ P) (hfuel : length / 255 < fuel)
    (hroom : w.data.length + (encodeLength length).length < w.capacity) :
    lz4WriteLength api fuel length w = .ok () { w with data := w.data ++ encodeLength length } := by
  induction fuel generalizing length w with
  | zero => omega
  | succ fuel ih =>
    rw [encodeLength_length] at hroom
    rw [lz4WriteLength]
    split
    · rename_i hfull
      rw [bind_ok (lz4Write_room [255] w (by simp; omega)), ih _ _ (by omega)]
      · simp [encodeLength_of_le hfull]
      · simp only [length_append, length_singleton, encodeLength_length]
        omega
    · rename_i hlast
      rw [encodeLength_of_lt (by omega)]
      exact lz4Write_room _ w (by simp; omega)

theorem lz4WriteExtension_room (length : ℕ) (w : Lz4Writer σ P)
    (hroom : w.data.length + (encodeExtension length).length < w.capacity) :
    lz4WriteExtension api length w = .ok () { w with data := w.data ++ encodeExtension length } := by
  unfold lz4WriteExtension
  unfold encodeExtension at hroom ⊢
  split
  · rename_i hlong
    rw [if_pos hlong] at hroom
    exact lz4WriteLength_room _ _ w (by omega) hroom
  · simp

theorem offsetBytes_eq (offset : ℕ) :
    [ofNat (offset &&& 0xFF), ofNat (offset >>> 8 &&& 0xFF)] = encode 2 offset := rfl

/-- Writing a sequence appends exactly its encoding. -/
theorem lz4WriteSequence_room (s : Sequence) (w : Lz4Writer σ P)
    (hroom : w.data.length + s.encode.length < w.capacity) :
    lz4WriteSequence api s.literals s.matchLength s.matchOffset w =
      .ok () { w with data := w.data ++ s.encode } := by
  obtain ⟨literals, matchLength, matchOffset⟩ := s
  rw [Sequence.encode_length] at hroom
  have hencoded : (if 0 < matchLength then matchLength - 4 else 0) = matchLength - 4 := by
    split <;> omega
  have htoken : ofNat ((if literals.length < 15 then literals.length else 15) <<< 4 |||
      (if matchLength - 4 < 15 then matchLength - 4 else 15)) =
        encodeToken literals.length (matchLength - 4) := by
    rw [encodeToken]
    congr 2
    · congr 1; split <;> omega
    · split <;> omega
  simp only at hroom
  rw [lz4WriteSequence]
  simp only [hencoded, htoken]
  rw [bind_ok (lz4Write_room _ w (by simp; omega))]
  rw [bind_ok (lz4WriteExtension_room literals.length _ (by simp; omega))]
  rw [bind_ok (lz4Write_room literals _ (by simp; omega))]
  by_cases hlast : matchLength = 0
  · simp [hlast, Sequence.encode, encodeCopy]
  simp only [encodeCopy, if_neg hlast, length_append, LittleEndian.encode_length] at hroom
  rw [if_neg hlast, offsetBytes_eq]
  rw [bind_ok (lz4Write_room _ _ (by simp; omega))]
  rw [lz4WriteExtension_room (matchLength - 4) _ (by simp; omega)]
  simp [Sequence.encode, encodeCopy, hlast]

/-!
## The kernel's block encoder

`lz4_compress_block` with its 4096-entry hash table. The table starts filled with `UINT32_MAX`
and holds one position per hash value, so it forgets positions and confuses words that share a
hash. The encoder is an instance of greedy matching; what it writes is the encoding of sequences
that describe the block, and it never fills the 8192-byte block buffer.
-/

open Sequences Greedy LittleEndian List Function

/-- `LZ4_WINDOW_SIZE`. -/
def lz4WindowSize : ℕ := 4096

/-- `LZ4_BLOCK_BUFFER_SIZE`. -/
def lz4BlockBufferSize : ℕ := 8192

/-- `UINT32_MAX`, the empty slot of the hash table. -/
def uint32Max : ℕ := 4294967295

/-- `lz4_hash`: the product of the four bytes at `offset` in 32 bits, reduced to its top twelve. -/
def lz4Hash (data : List UInt8) (offset : ℕ) : ℕ :=
  let value := (data.getD offset 0).toNat ||| (data.getD (offset + 1) 0).toNat <<< 8 |||
    (data.getD (offset + 2) 0).toNat <<< 16 ||| (data.getD (offset + 3) 0).toNat <<< 24
  (value * 2654435761 % 2 ^ 32) >>> 20

/-- Record the positions inside a match, as the `for` loop after each emitted match does. -/
def lz4Learn (source : List UInt8) : ℕ → (ℕ → ℕ) → ℕ → ℕ → ℕ → ℕ
  | 0, table, _, _ => table
  | fuel + 1, table, pos, matchEnd =>
    if pos < matchEnd ∧ pos ≤ source.length - 4 then
      lz4Learn source fuel (Function.update table (lz4Hash source pos) pos) (pos + 1) matchEnd
    else table

variable (api : FileApi σ P)

/-- The matching loop of `lz4_compress_block`; returns the final anchor. The stored candidate is
always an earlier position, so `index - candidate` does not wrap. -/
def lz4CompressLoop (source : List UInt8) : ℕ → (ℕ → ℕ) → ℕ → ℕ → Write σ P ℕ
  | 0, _, _, _ => throw ()
  | fuel + 1, table, anchor, index =>
    if 12 ≤ source.length ∧ index ≤ source.length - 12 then
      let hash := lz4Hash source index
      let candidate := table hash
      let table := Function.update table hash index
      if candidate = uint32Max ∨ lz4WindowSize < index - candidate ∨
          agreeFour source candidate index = false then
        lz4CompressLoop source fuel table anchor (index + 1)
      else do
        let maximumMatch := source.length - 5 - index
        let matchLength := extendMatch source candidate index maximumMatch source.length 4
        lz4WriteSequence api ((source.drop anchor).take (index - anchor)) matchLength
          (index - candidate)
        let matchEnd := index + matchLength
        lz4CompressLoop source fuel (lz4Learn source matchLength table (index + 1) matchEnd)
          matchEnd matchEnd
    else pure anchor

/-- `lz4_compress_block`. -/
def lz4CompressBlock (source : List UInt8) : Write σ P Unit := do
  let anchor ← lz4CompressLoop api source (source.length + 1) (fun _ => uint32Max) 0 0
  if 0 < source.length then
    lz4WriteSequence api (source.drop anchor) 0 0
  else pure ()

/-- The hash table as a dictionary of earlier positions. -/
def lz4Dictionary (source : List UInt8) : Dictionary (ℕ → ℕ) where
  lookup table index :=
    if table (lz4Hash source index) = uint32Max then none else some (table (lz4Hash source index))
  store table index := Function.update table (lz4Hash source index) index
  learn table index matchEnd := lz4Learn source (matchEnd - index) table (index + 1) matchEnd

/-- Every slot is empty or holds a position below `reached`. -/
def TableBelow (table : ℕ → ℕ) (reached : ℕ) : Prop :=
  ∀ hash, table hash = uint32Max ∨ table hash < reached

theorem TableBelow.update {table : ℕ → ℕ} {reached bound : ℕ} (h : TableBelow table reached)
    (hash pos : ℕ) (hpos : pos < bound) (hle : reached ≤ bound) :
    TableBelow (update table hash pos) bound := by
  intro other
  by_cases heq : other = hash
  · subst heq
    right
    simpa using hpos
  · rw [update_of_ne heq]
    exact (h other).imp id fun hlt => by omega

section

variable (source : List UInt8)

theorem lz4Learn_below (fuel : ℕ) (table : ℕ → ℕ) (pos matchEnd : ℕ) (h : TableBelow table matchEnd) :
    TableBelow (lz4Learn source fuel table pos matchEnd) matchEnd := by
  induction fuel generalizing table pos with
  | zero => exact h
  | succ fuel ih =>
    rw [lz4Learn]
    split
    · rename_i hinside
      exact ih _ _ (h.update _ _ hinside.1 le_rfl)
    · exact h

/-- The hash table never returns a position that was not stored before. -/
theorem lz4Dictionary_bounded : (lz4Dictionary source).Bounded TableBelow where
  lookup table reached index candidate h hlookup := by
    simp only [lz4Dictionary] at hlookup
    split_ifs at hlookup with hslot
    cases hlookup
    exact (h _).resolve_left hslot
  store table reached h := h.update _ _ (by omega) (by omega)
  learn table index matchEnd hlt h :=
    lz4Learn_below source _ table _ _ fun hash => (h hash).imp id fun hpos => by omega

variable {api}

/-- The matching loop writes the greedy sequences up to the literals left over at its end. -/
theorem lz4CompressLoop_spec (fuel : ℕ) (table : ℕ → ℕ) (anchor index : ℕ) (w : Lz4Writer σ P)
    (hindex : index ≤ source.length) (hfuel : source.length < fuel + index)
    (hroom : w.data.length + (encodeAll (greedy (lz4Dictionary source) lz4WindowSize source
      fuel table anchor index)).length < w.capacity) : ∃ anchor' sequences,
      lz4CompressLoop api source fuel table anchor index w =
        .ok anchor' { w with data := w.data ++ encodeAll sequences } ∧
      greedy (lz4Dictionary source) lz4WindowSize source fuel table anchor index =
        sequences ++ [⟨source.drop anchor', 0, 0⟩] := by
  induction fuel generalizing table anchor index w with
  | zero => omega
  | succ fuel ih =>
    rw [greedy] at hroom ⊢
    rw [lz4CompressLoop]
    by_cases hinside : 12 ≤ source.length ∧ index ≤ source.length - 12
    · simp only [if_pos hinside] at hroom ⊢
      by_cases hslot : table (lz4Hash source index) = uint32Max
      · have hlookup : (lz4Dictionary source).lookup table index = none := if_pos hslot
        simp only [hlookup, hslot, ↓reduceIte, true_or] at hroom ⊢
        exact ih _ _ _ w (by omega) (by omega) hroom
      have hlookup : (lz4Dictionary source).lookup table index =
          some (table (lz4Hash source index)) := if_neg hslot
      simp only [hlookup, hslot, false_or] at hroom ⊢
      set candidate := table (lz4Hash source index)
      by_cases hskip : lz4WindowSize < index - candidate ∨ agreeFour source candidate index = false
      · simp only [if_pos hskip] at hroom ⊢
        exact ih _ _ _ w (by omega) (by omega) hroom
      simp only [if_neg hskip] at hroom ⊢
      simp only [not_or, Bool.not_eq_false] at hskip
      obtain ⟨hfour, hmax, -⟩ := extendMatch_spec candidate index
        (source.length - 5 - index) source.length 4 (by omega)
        ((agreeFour_iff candidate index).mp hskip.2)
      set length := extendMatch source candidate index (source.length - 5 - index) source.length 4
      simp only [encodeAll, flatMap_cons, length_append] at hroom
      let s : Sequence :=
        ⟨(source.drop anchor).take (index - anchor), length, index - candidate⟩
      change w.data.length + (s.encode.length + _) < _ at hroom
      rw [Flow.bind_ok (lz4WriteSequence_room s w (by omega))]
      have hlearn : (lz4Dictionary source).learn ((lz4Dictionary source).store table index)
          index (index + length) = lz4Learn source length (update table (lz4Hash source index) index)
              (index + 1) (index + length) := by
        simp only [lz4Dictionary, Nat.add_sub_cancel_left]
      rw [hlearn] at hroom ⊢
      obtain ⟨anchor', sequences, hloop, hgreedy⟩ := ih
        (lz4Learn source length (update table (lz4Hash source index) index)
          (index + 1) (index + length)) (index + length) (index + length)
        { w with data := w.data ++ s.encode }
        (by omega) (by omega) (by simp only [length_append, encodeAll]; omega)
      refine ⟨anchor', s :: sequences, ?_, congrArg (cons s) hgreedy⟩
      simpa [encodeAll, append_assoc] using hloop
    · simp only [if_neg hinside]
      exact ⟨anchor, [], by simp [encodeAll], rfl⟩

/-- The sequences `lz4_compress_block` emits for a block. -/
def lz4BlockSequences (source : List UInt8) : List Sequence :=
  greedy (lz4Dictionary source) lz4WindowSize source (source.length + 1) (fun _ => uint32Max) 0 0

theorem lz4BlockSequences_factors (hpos : 0 < source.length) :
    Factors lz4WindowSize source 0 (lz4BlockSequences source) :=
  greedy_factors _ (lz4Dictionary_bounded source) _ _ 0 0 (fun _ => Or.inl rfl) le_rfl hpos

/-- A block of at most 4096 bytes is encoded without filling the block buffer. -/
theorem lz4CompressBlock_spec (w : Lz4Writer σ P) (hpos : 0 < source.length)
    (hsize : source.length ≤ 4096) (hempty : w.data = []) (hcap : w.capacity = lz4BlockBufferSize) :
    lz4CompressBlock api source w = .ok () { w with data := encodeAll (lz4BlockSequences source) } ∧
      0 < (encodeAll (lz4BlockSequences source)).length ∧
      (encodeAll (lz4BlockSequences source)).length < lz4BlockBufferSize := by
  have hfactors := lz4BlockSequences_factors source hpos
  have hlength := hfactors.encodeAll_length_le
  have hbound : (encodeAll (lz4BlockSequences source)).length < lz4BlockBufferSize := by
    unfold lz4BlockBufferSize
    omega
  refine ⟨?_, hfactors.encodeAll_pos, hbound⟩
  obtain ⟨anchor, sequences, hloop, hgreedy⟩ := lz4CompressLoop_spec source
    (source.length + 1) (fun _ => uint32Max) 0 0 w (by omega) (by omega)
    (by rw [hempty, hcap]; simpa [lz4BlockSequences] using hbound)
  have hall : encodeAll (lz4BlockSequences source) =
      encodeAll sequences ++ Sequence.encode ⟨source.drop anchor, 0, 0⟩ := by
    rw [lz4BlockSequences, hgreedy]
    simp [encodeAll]
  rw [lz4CompressBlock, Flow.bind_ok hloop, if_pos hpos]
  rw [lz4WriteSequence_room ⟨source.drop anchor, 0, 0⟩, hall, hempty, nil_append]
  rw [hall, length_append] at hbound
  simpa [hempty, hcap] using hbound

/-- A block of one to 4096 bytes is encoded without error. The encoding is at most one byte in 255
and sixteen more longer than the block, its copies reach back 1 to 4095 bytes, and it ends with a
sequence of literals only that holds five bytes or the whole of a shorter block. -/
theorem lz4CompressBlock_bounds (w : Lz4Writer σ P) (hpos : 1 ≤ source.length)
    (hsize : source.length ≤ 4096) (hempty : w.data = []) (hcap : w.capacity = lz4BlockBufferSize) :
    ∃ copies literals encoded,
      lz4CompressBlock api source w = .ok () { w with data := encoded } ∧
      encoded = encodeAll (copies ++ [⟨literals, 0, 0⟩]) ∧
      1 ≤ encoded.length ∧ encoded.length ≤ source.length + source.length / 255 + 16 ∧
      (∀ s ∈ copies, 4 ≤ s.matchLength ∧ 1 ≤ s.matchOffset ∧ s.matchOffset ≤ 4095) ∧
      min source.length 5 ≤ literals.length := by
  obtain ⟨hencode, hsome, -⟩ := @lz4CompressBlock_spec σ P api source w hpos hsize hempty hcap
  have hfactors := lz4BlockSequences_factors source hpos
  have hlength := hfactors.encodeAll_length_le
  obtain ⟨copies, literals, hsplit, hcopies, hlast⟩ := greedy_last (lz4Dictionary source)
    (source.length + 1) (fun _ => uint32Max) 0 0 (.inl rfl)
  change lz4BlockSequences source = _ at hsplit
  refine ⟨copies, literals, _, hencode, by rw [hsplit], hsome, by omega, fun s hs => ?_, hlast⟩
  have hfour := hcopies s hs
  have hwithin := hfactors.copy_within (by rw [hsplit]; exact mem_append_left _ hs)
    (show s.matchLength ≠ 0 by omega)
  omega

end

/-- Sixteen equal bytes in an empty block buffer. -/
theorem lz4CompressBlock_bounds_run :
    ∃ copies literals encoded,
      lz4CompressBlock memoryApi (List.replicate 16 0x61) ⟨fun _ => none, none, [], lz4BlockBufferSize⟩ =
        .ok () ⟨fun _ => none, none, encoded, lz4BlockBufferSize⟩ ∧
      encoded = encodeAll (copies ++ [⟨literals, 0, 0⟩]) ∧
      1 ≤ encoded.length ∧ encoded.length ≤ 16 + 16 / 255 + 16 ∧
      (∀ s ∈ copies, 4 ≤ s.matchLength ∧ 1 ≤ s.matchOffset ∧ s.matchOffset ≤ 4095) ∧
      min 16 5 ≤ literals.length :=
  lz4CompressBlock_bounds (replicate 16 0x61) ⟨fun _ => none, none, [], lz4BlockBufferSize⟩
    (by decide) (by decide) rfl rfl

end Windoge.Lz4
