import Windoge.Lz4.Decode

/-!
# What the decoder can do to its state

Five elementary changes are all the decoder makes, and only one of them reads a file, inside the
size it was told. Whatever the archive holds, the index never moves back and each loop runs out
of bytes before it runs out of rounds.
-/

namespace Windoge.Lz4

open LittleEndian Windoge.Flow Respects

variable {σ P : Type} (api : FileApi σ P)

/-- One elementary change of the decoder. -/
inductive DecoderStep : Lz4Decoder σ P → Lz4Decoder σ P → Prop
  | read (d : Lz4Decoder σ P) (offset requested : ℕ) (hoffset : offset < d.input.fileSize)
      (hsize : offset + requested ≤ d.input.fileSize) :
      DecoderStep d { d with fs := (api.fsReadRawAt d.fs d.input.path offset requested).2.2 }
  | buffer (d : Lz4Decoder σ P) (start : ℕ) (data : List UInt8) :
      DecoderStep d { d with input := { d.input with start := start, data := data } }
  | advance (d : Lz4Decoder σ P) (count : ℕ) : DecoderStep d { d with srcIdx := d.srcIdx + count }
  | output (d : Lz4Decoder σ P) (output : Lz4DecodeOutput P) : DecoderStep d { d with output := output }
  | append (d : Lz4Decoder σ P) (data : List UInt8) :
      DecoderStep d { d with fs := (api.fsAppendData d.fs d.output.path data).2 }

/-- A sequence of elementary changes. -/
abbrev DecoderReaches : Lz4Decoder σ P → Lz4Decoder σ P → Prop :=
  Relation.ReflTransGen (DecoderStep api)

variable {api}

section Reaches

variable {α : Type} {d d' : Lz4Decoder σ P}

/-- Reading the decoder is no step. -/
theorem reaches_get {f : Lz4Decoder σ P → Decode σ P α}
    (hf : ∀ d, DecoderReaches api d (finalState (f d d))) : Respects (DecoderReaches api) (get >>= f) :=
  hf

/-- A change that is a step. -/
theorem reaches_modify {g : Lz4Decoder σ P → Lz4Decoder σ P} {f : PUnit → Decode σ P α}
    (hg : ∀ d, DecoderStep api d (g d)) (hf : Respects (DecoderReaches api) (f ⟨⟩)) :
    Respects (DecoderReaches api) (modify g >>= f) :=
  fun d => (Relation.ReflTransGen.single (hg d)).trans (hf (g d))

/-- Refilling reads inside the file. -/
theorem lz4Refill_reaches {offset : ℕ} (hoffset : offset < d.input.fileSize) :
    DecoderReaches api d (finalState (lz4Refill api offset d)) := by
  rw [lz4Refill, get_bind]
  split
  · set requested := if lz4ReadAheadSize < d.input.fileSize - offset then lz4ReadAheadSize
      else d.input.fileSize - offset with hrequested
    have hsize : offset + requested ≤ d.input.fileSize := by
      rw [hrequested]
      split <;> omega
    have hread : DecoderReaches api d _ := .single (.read d offset requested hoffset hsize)
    simp only [modify_bind]
    split
    · exact hread
    · exact hread.tail (.buffer _ _ _)
  · exact .refl

/-- The archive stays the same. -/
theorem DecoderReaches.input (h : DecoderReaches api d d') :
    d'.input.fileSize = d.input.fileSize ∧ d'.input.path = d.input.path := by
  induction h with
  | refl => exact ⟨rfl, rfl⟩
  | tail _ hstep ih => cases hstep <;> exact ih

/-- Reading goes forward. -/
theorem DecoderReaches.srcIdx_le (h : DecoderReaches api d d') : d.srcIdx ≤ d'.srcIdx := by
  induction h with
  | refl => exact le_rfl
  | tail _ hstep ih => cases hstep <;> first | exact ih | exact ih.trans le_self_add

/-- Filling the input buffer makes steps only. -/
theorem lz4ReadAt_reaches (fuel offset length : ℕ) :
    Respects (DecoderReaches api) (lz4ReadAt api fuel offset length) := by
  induction fuel generalizing offset length with
  | zero =>
    rw [lz4ReadAt]
    split
    · exact .pure _
    · exact .throw _
  | succ fuel ih =>
    rw [lz4ReadAt]
    split
    · exact .pure _
    refine reaches_get fun d => ?_
    split
    · exact .refl
    rename_i hinside
    have hrefill := @lz4Refill_reaches σ P api d offset (Nat.not_le.mp hinside)
    cases hresult : lz4Refill api offset d with
    | error e d' =>
      rw [hresult] at hrefill
      rwa [bind_error hresult]
    | ok a d' =>
      rw [hresult] at hrefill
      rw [bind_ok hresult, get_bind]
      exact hrefill.trans ((ih _ _).bind (fun _ => .pure _) d')

/-- Taking input makes steps only. -/
theorem lz4Take_reaches (length : ℕ) : Respects (DecoderReaches api) (lz4Take api length) := by
  refine reaches_get fun d => (lz4ReadAt_reaches _ _ _).bind (fun bytes => ?_) d
  exact reaches_modify (fun d => .advance d length) (.pure bytes)

/-- An output byte makes steps only. -/
theorem lz4OutputByte_reaches (value : UInt8) : Respects (DecoderReaches api) (lz4OutputByte api value) := by
  refine reaches_modify (fun d => .output d _) (reaches_get fun d => ?_)
  split
  · refine (Relation.ReflTransGen.single (DecoderStep.append d d.output.data)).trans ?_
    simp only [modify_bind]
    split
    · exact .refl
    · exact .single (.output _ _)
  · exact .refl

/-- Output bytes make steps only. -/
theorem lz4OutputBytes_reaches (bytes : List UInt8) :
    Respects (DecoderReaches api) (lz4OutputBytes api bytes) := by
  induction bytes with
  | nil => exact .pure _
  | cons b bytes ih => exact (lz4OutputByte_reaches b).bind fun _ => ih

/-- The bytes of a length make steps only. -/
theorem lz4ReadLength_reaches (limit fuel length : ℕ) :
    Respects (DecoderReaches api) (lz4ReadLength api limit fuel length) := by
  induction fuel generalizing length with
  | zero => exact .throw _
  | succ fuel ih =>
    refine reaches_get fun d => ?_
    split
    · exact .refl
    refine (lz4Take_reaches 1).bind (fun bytes => ?_) d
    dsimp only
    split
    · exact .throw _
    · split
      · exact ih _
      · exact .pure _

/-- A length makes steps only. -/
theorem lz4FullLength_reaches (limit nibble length : ℕ) :
    Respects (DecoderReaches api) (lz4FullLength api limit nibble length) := by
  rw [lz4FullLength]
  split
  · exact reaches_get fun d => lz4ReadLength_reaches _ _ _ d
  · exact .pure _

/-- Literals make steps only. -/
theorem lz4CopyLiterals_reaches (fuel remaining : ℕ) :
    Respects (DecoderReaches api) (lz4CopyLiterals api fuel remaining) := by
  induction fuel generalizing remaining with
  | zero =>
    rw [lz4CopyLiterals]
    split
    · exact .pure _
    · exact .throw _
  | succ fuel ih =>
    rw [lz4CopyLiterals]
    split
    · exact .pure _
    · exact (lz4Take_reaches _).bind fun literals => (lz4OutputBytes_reaches literals).bind fun _ => ih _

/-- A match makes steps only. -/
theorem lz4CopyMatch_reaches (matchOffset count : ℕ) :
    Respects (DecoderReaches api) (lz4CopyMatch api matchOffset count) := by
  induction count with
  | zero => exact .pure _
  | succ count ih => exact reaches_get fun d => (lz4OutputByte_reaches _).bind (fun _ => ih) d

/-- The first half of a sequence makes steps only. -/
theorem lz4DecodeLiterals_reaches (blockTarget blockEnd : ℕ) :
    Respects (DecoderReaches api) (lz4DecodeLiterals api blockTarget blockEnd) := by
  refine (lz4Take_reaches 1).bind fun tokenByte => (lz4FullLength_reaches _ _ _).bind
    fun literalLength => reaches_get fun d => ?_
  split
  · exact .refl
  · exact (lz4CopyLiterals_reaches _ _).bind (fun _ => .pure _) d

/-- The second half of a sequence makes steps only. -/
theorem lz4DecodeCopy_reaches (blockStart blockTarget blockEnd token : ℕ) :
    Respects (DecoderReaches api) (lz4DecodeCopy api blockStart blockTarget blockEnd token) := by
  refine reaches_get fun d => ?_
  split
  · exact .refl
  refine (lz4Take_reaches 2).bind (fun offsetBytes => reaches_get fun d => ?_) d
  split
  · exact .refl
  refine (lz4FullLength_reaches _ _ _).bind (fun matchLength => ?_) d
  split
  · exact .throw _
  · exact lz4CopyMatch_reaches _ _

/-- A sequence makes steps only. -/
theorem lz4DecodeSequence_reaches (blockStart blockTarget blockEnd : ℕ) :
    Respects (DecoderReaches api) (lz4DecodeSequence api blockStart blockTarget blockEnd) := by
  refine (lz4DecodeLiterals_reaches _ _).bind fun token => reaches_get fun d => ?_
  split
  · split
    · exact .refl
    · exact .refl
  · exact (lz4DecodeCopy_reaches _ _ _ _).bind (fun _ => .pure _) d

/-- A block makes steps only. -/
theorem lz4DecodeBlock_reaches (blockStart blockTarget blockEnd fuel : ℕ) :
    Respects (DecoderReaches api) (lz4DecodeBlock api blockStart blockTarget blockEnd fuel) := by
  induction fuel with
  | zero => exact .throw _
  | succ fuel ih =>
    refine reaches_get fun d => ?_
    split
    · refine (lz4DecodeSequence_reaches _ _ _).bind (fun more => ?_) d
      split
      · exact ih
      · exact .pure _
    · exact .refl

/-- A block header makes steps only. -/
theorem lz4BlockBounds_reaches (originalSize srcSize : ℕ) :
    Respects (DecoderReaches api) (lz4BlockBounds api originalSize srcSize) := by
  refine reaches_get fun d => ?_
  split
  · exact .refl
  refine (lz4Take_reaches 8).bind (fun blockHeader => reaches_get fun d => ?_) d
  split
  · exact .refl
  · exact .refl

/-- A round of the outer loop once the bounds of its block are known. -/
def lz4DecodeRound (api : FileApi σ P) (framed : Bool) (originalSize srcSize blockStart fuel : ℕ)
    (bounds : ℕ × ℕ) : Decode σ P Unit := do
  lz4DecodeBlock api blockStart bounds.1 bounds.2 (srcSize + 1)
  let d ← get
  if d.output.produced ≠ bounds.1 ∨ d.srcIdx ≠ bounds.2 then
    throw ()
  else if framed then lz4DecodeBlocks api framed originalSize srcSize fuel else pure ()

/-- The outer loop finds the bounds of a block and decodes it. -/
theorem lz4DecodeBlocks_succ (framed : Bool) (originalSize srcSize fuel : ℕ) (d : Lz4Decoder σ P) :
    lz4DecodeBlocks api framed originalSize srcSize (fuel + 1) d =
      if d.output.produced < originalSize then
        ((if framed then lz4BlockBounds api originalSize srcSize else pure (originalSize, srcSize)) >>=
          lz4DecodeRound api framed originalSize srcSize d.output.produced fuel) d
      else .ok () d := by
  rw [lz4DecodeBlocks, get_bind]
  cases framed with
  | true => split <;> rfl
  | false => split <;> rfl

/-- All blocks make steps only. -/
theorem lz4DecodeBlocks_reaches (framed : Bool) (originalSize srcSize fuel : ℕ) :
    Respects (DecoderReaches api) (lz4DecodeBlocks api framed originalSize srcSize fuel) := by
  induction fuel with
  | zero => exact .throw _
  | succ fuel ih =>
    intro d
    rw [lz4DecodeBlocks_succ]
    split
    · refine bind ?_ (fun bounds => (lz4DecodeBlock_reaches _ _ _ _).bind fun _ =>
        reaches_get fun d => ?_) d
      · split
        · exact lz4BlockBounds_reaches _ _
        · exact .pure _
      · split
        · exact .refl
        · split
          · exact ih d
          · exact .refl
    · exact .refl

/-- The end of the archive makes steps only. -/
theorem lz4Finish_reaches (originalSize srcSize : ℕ) :
    Respects (DecoderReaches api) (lz4Finish api originalSize srcSize) := by
  refine reaches_get fun d => ?_
  split
  · exact .refl
  split
  · refine (Relation.ReflTransGen.single (DecoderStep.append d d.output.data)).trans ?_
    simp only [modify_bind]
    split
    · exact .refl
    · exact .refl
  · exact .refl

/-- The archive header makes steps only. -/
theorem lz4ReadHeader_reaches (srcSize : ℕ) : Respects (DecoderReaches api) (lz4ReadHeader api srcSize) := by
  refine (lz4ReadAt_reaches _ _ _).bind fun header => ?_
  split
  · exact tryCatch ((lz4ReadAt_reaches _ _ _).bind fun _ => .pure _) fun _ => .pure _
  · exact .pure _

end Reaches

/-!
## The decoder's loops end, and read inside the archive

A loop has settled when more rounds would not change its outcome. On a readable file every loop
of the decoder has settled with the rounds it is given, so what it returns is what the unbounded
loop of the source returns.
-/

open EStateM.Result DecoderReaches

variable {api : FileApi σ P}

/-- Rounds beyond `rounds` do not change what the loop does from `d` on. -/
def Settled {α : Type} (loop : ℕ → Decode σ P α) (rounds : ℕ) (d : Lz4Decoder σ P) : Prop :=
  ∀ more, loop (rounds + more) d = loop rounds d

variable {d d' : Lz4Decoder σ P}

section Rounds

/-- Taking bytes moves the index past them. -/
theorem lz4Take_advances {count : ℕ} {bytes : List UInt8} (h : lz4Take api count d = .ok bytes d') :
    d.srcIdx + count ≤ d'.srcIdx := by
  obtain ⟨read, d₁, hread, hrest⟩ := bind_eq_ok (show (lz4ReadAt api count d.srcIdx count >>= _) d = _ from h)
  have hle := ((lz4ReadAt_reaches count d.srcIdx count).ok hread).srcIdx_le
  cases hrest
  exact Nat.add_le_add_right hle count

/-- A round of the sequence loop consumes its token. -/
theorem lz4DecodeSequence_advances {blockStart blockTarget blockEnd : ℕ} {more : Bool}
    (h : lz4DecodeSequence api blockStart blockTarget blockEnd d = .ok more d') :
    d.srcIdx < d'.srcIdx := by
  obtain ⟨token, d₁, hliterals, hrest⟩ := bind_eq_ok h
  obtain ⟨byte, d₂, htake, hlength⟩ := bind_eq_ok hliterals
  have hfirst := lz4Take_advances htake
  have hliteralsEnd : DecoderReaches api d₂ d₁ := by
    refine ok ((lz4FullLength_reaches _ _ _).bind fun length => reaches_get fun d => ?_) hlength
    split
    · exact .refl
    · exact (lz4CopyLiterals_reaches _ _).bind (fun _ => .pure _) d
  have hcopyEnd : DecoderReaches api d₁ d' := by
    refine ok (reaches_get fun d => ?_) hrest
    split
    · split
      · exact .refl
      · exact .refl
    · exact (lz4DecodeCopy_reaches _ _ _ _).bind (fun _ => .pure _) d
  exact hfirst.trans (hliteralsEnd.srcIdx_le.trans hcopyEnd.srcIdx_le)

/-- A frame header is eight bytes. -/
theorem lz4BlockBounds_advances {originalSize srcSize : ℕ} {bounds : ℕ × ℕ}
    (h : lz4BlockBounds api originalSize srcSize d = .ok bounds d') :
    8 ≤ srcSize - d.srcIdx ∧ d.srcIdx + 8 ≤ d'.srcIdx := by
  rw [lz4BlockBounds, get_bind] at h
  split_ifs at h
  · cases h
  obtain ⟨header, d₁, htake, hrest⟩ := bind_eq_ok h
  refine ⟨by omega, ?_⟩
  rw [get_bind] at hrest
  split_ifs at hrest
  · cases hrest
  cases hrest
  exact lz4Take_advances htake

/-- The literal loop copies at least one byte in each round. -/
theorem lz4CopyLiterals_settled (remaining : ℕ) (d : Lz4Decoder σ P) :
    Settled (fun rounds => lz4CopyLiterals api rounds remaining) remaining d := by
  intro more
  suffices h : ∀ fuel remaining (d : Lz4Decoder σ P), remaining ≤ fuel →
      lz4CopyLiterals api (fuel + more) remaining d = lz4CopyLiterals api fuel remaining d from
    h _ _ d le_rfl
  intro fuel
  induction fuel with
  | zero =>
    intro remaining d hle
    obtain rfl : remaining = 0 := by omega
    cases more <;> rfl
  | succ fuel ih =>
    intro remaining d hle
    rw [add_right_comm, lz4CopyLiterals, lz4CopyLiterals]
    by_cases hzero : remaining = 0
    · rw [if_pos hzero, if_pos hzero]
    · rw [if_neg hzero, if_neg hzero]
      refine bind_congr rfl fun literals d₁ _ => bind_congr rfl fun _ d₂ _ => ih _ d₂ ?_
      split <;> omega

/-- The extension loop takes a byte in each round and stops at its limit. -/
theorem lz4ReadLength_settled (limit length : ℕ) (d : Lz4Decoder σ P) :
    Settled (fun rounds => lz4ReadLength api limit rounds length) (limit - d.srcIdx + 1) d := by
  intro more
  suffices h : ∀ fuel length (d : Lz4Decoder σ P), limit - d.srcIdx < fuel →
      lz4ReadLength api limit (fuel + more) length d = lz4ReadLength api limit fuel length d from
    h _ _ d (lt_add_one _)
  intro fuel
  induction fuel with
  | zero => intro length d hlt; omega
  | succ fuel ih =>
    intro length d hlt
    rw [add_right_comm, lz4ReadLength, lz4ReadLength, get_bind, get_bind]
    split
    · rfl
    refine bind_congr rfl fun bytes d₁ htake => ?_
    have hadvance := lz4Take_advances htake
    split
    · rfl
    · split
      · exact ih _ d₁ (by omega)
      · rfl

/-- The sequence loop takes a token in each round and stops at the end of its block. -/
theorem lz4DecodeBlock_settled (blockStart blockTarget blockEnd rounds : ℕ) (d : Lz4Decoder σ P)
    (hrounds : blockEnd - d.srcIdx < rounds) :
    Settled (lz4DecodeBlock api blockStart blockTarget blockEnd) rounds d := by
  intro more
  induction rounds generalizing d with
  | zero => omega
  | succ rounds ih =>
    rw [add_right_comm, lz4DecodeBlock, lz4DecodeBlock, get_bind, get_bind]
    split
    · rename_i hopen
      refine bind_congr rfl fun goesOn d₁ hround => ?_
      have hadvance := lz4DecodeSequence_advances hround
      split
      · exact ih d₁ (by omega)
      · rfl
    · rfl

/-- The outer loop takes a frame header in each round, or makes one round only. -/
theorem lz4DecodeBlocks_settled (framed : Bool) (originalSize srcSize rounds : ℕ) (d : Lz4Decoder σ P)
    (hrounds : srcSize - d.srcIdx < rounds) :
    Settled (lz4DecodeBlocks api framed originalSize srcSize) rounds d := by
  intro more
  induction rounds generalizing d with
  | zero => omega
  | succ rounds ih =>
    rw [add_right_comm, lz4DecodeBlocks_succ, lz4DecodeBlocks_succ]
    split
    · refine bind_congr rfl fun bounds d₁ hbounds => bind_congr rfl fun _ d₂ hblock => ?_
      have hblockEnd := ((lz4DecodeBlock_reaches _ _ _ _).ok hblock).srcIdx_le
      rw [get_bind, get_bind]
      cases framed with
      | false => rfl
      | true =>
        obtain ⟨hroom, hadvance⟩ := lz4BlockBounds_advances hbounds
        split
        · rfl
        · exact ih d₂ (by omega)
    · rfl

end Rounds

section Readable

variable [DecidableEq P] {files : σ → P → Option (List UInt8)} {src : P} {archive : List UInt8}

/-- Reading gets at least one byte in each round. -/
theorem lz4ReadAt_settled (works : api.Works files) (h : Reading files src archive d) (offset length : ℕ) :
    Settled (fun rounds => lz4ReadAt api rounds offset length) length d := by
  intro more
  suffices hall : ∀ fuel offset length (d : Lz4Decoder σ P), Reading files src archive d → length ≤ fuel →
      lz4ReadAt api (fuel + more) offset length d = lz4ReadAt api fuel offset length d from
    hall _ _ _ d h le_rfl
  intro fuel
  induction fuel with
  | zero =>
    intro offset length d h hle
    obtain rfl : length = 0 := by omega
    cases more <;> rfl
  | succ fuel ih =>
    intro offset length d h hle
    rw [add_right_comm, lz4ReadAt, lz4ReadAt]
    by_cases hzero : length = 0
    · rw [if_pos hzero, if_pos hzero]
    rw [if_neg hzero, if_neg hzero, get_bind, get_bind]
    by_cases hend : d.input.fileSize ≤ offset
    · rw [if_pos hend, if_pos hend]
    rw [if_neg hend, if_neg hend]
    obtain ⟨d₁, hrefill, h₁, -, -, hdata⟩ := lz4Refill_spec works h offset (by rw [h.input_size] at hend; omega)
    rw [bind_ok hrefill, bind_ok hrefill, get_bind, get_bind]
    refine bind_congr (ih _ _ d₁ h₁ ?_) fun _ _ _ => rfl
    split <;> omega

/-- Every loop of the decoder has settled with the rounds it is given. -/
structure LoopsSettle (api : FileApi σ P) (files : σ → P → Option (List UInt8)) (src : P)
    (archive : List UInt8) : Prop where
  readAt : ∀ d offset length, Reading files src archive d →
    Settled (fun rounds => lz4ReadAt api rounds offset length) length d
  readLength : ∀ (d : Lz4Decoder σ P) limit length,
    Settled (fun rounds => lz4ReadLength api limit rounds length) (limit - d.srcIdx + 1) d
  copyLiterals : ∀ (d : Lz4Decoder σ P) remaining,
    Settled (fun rounds => lz4CopyLiterals api rounds remaining) remaining d
  decodeBlock : ∀ (d : Lz4Decoder σ P) blockStart blockTarget blockEnd, blockEnd ≤ archive.length →
    Settled (lz4DecodeBlock api blockStart blockTarget blockEnd) (archive.length + 1) d
  decodeBlocks : ∀ (d : Lz4Decoder σ P) framed originalSize,
    Settled (lz4DecodeBlocks api framed originalSize archive.length) (archive.length + 1) d

/-- Every loop comes to its end. -/
theorem loopsSettle (works : api.Works files) (src : P) (archive : List UInt8) :
    LoopsSettle api files src archive where
  readAt _ offset length h := lz4ReadAt_settled works h offset length
  readLength d limit length := lz4ReadLength_settled limit length d
  copyLiterals d remaining := lz4CopyLiterals_settled remaining d
  decodeBlock d _ _ _ hle := lz4DecodeBlock_settled _ _ _ _ d (by omega)
  decodeBlocks d _ _ := lz4DecodeBlocks_settled _ _ _ _ d (by omega)

end Readable

/-- The store keeps a record of the reads made of it: the path, the offset and the size. -/
structure FileApi.Records (api : FileApi σ P) (reads : σ → List (P × ℕ × ℕ)) : Prop where
  create : ∀ fs path, reads (api.fsCreate fs path).2 = reads fs
  append : ∀ fs path data, reads (api.fsAppendData fs path data).2 = reads fs
  delete : ∀ fs path, reads (api.fsDelete fs path).2 = reads fs
  read : ∀ fs path offset size,
    reads (api.fsReadRawAt fs path offset size).2.2 = reads fs ++ [(path, offset, size)]

/-- A store together with the list of its reads. -/
def FileApi.recording (api : FileApi σ P) : FileApi (σ × List (P × ℕ × ℕ)) P where
  fsCreate fs path := ((api.fsCreate fs.1 path).1, (api.fsCreate fs.1 path).2, fs.2)
  fsAppendData fs path data :=
    ((api.fsAppendData fs.1 path data).1, (api.fsAppendData fs.1 path data).2, fs.2)
  fsReadRawAt fs path offset size :=
    ((api.fsReadRawAt fs.1 path offset size).1, (api.fsReadRawAt fs.1 path offset size).2.1,
      (api.fsReadRawAt fs.1 path offset size).2.2, fs.2 ++ [(path, offset, size)])
  fsDelete fs path := ((api.fsDelete fs.1 path).1, (api.fsDelete fs.1 path).2, fs.2)

/-- The recording lists what was written. -/
theorem recording_records (api : FileApi σ P) : api.recording.Records Prod.snd where
  create _ _ := rfl
  append _ _ _ := rfl
  delete _ _ := rfl
  read _ _ _ _ := rfl

/-- Recording keeps a file interface in working order. -/
theorem FileApi.Works.recording [DecidableEq P] {files : σ → P → Option (List UInt8)}
    (works : api.Works files) : api.recording.Works fun fs => files fs.1 where
  create fs path h := works.create fs.1 path h
  append fs path content data h := works.append fs.1 path content data h
  read fs path content offset size h := works.read fs.1 path content offset size h

section Reads

variable {reads : σ → List (P × ℕ × ℕ)} (records : api.Records reads)
include records

/-- What the decoder reads lies inside its input file. -/
theorem DecoderReaches.reads_within (h : DecoderReaches api d d') :
    ∀ r ∈ reads d'.fs, r ∈ reads d.fs ∨
      r.1 = d.input.path ∧ r.2.1 < d.input.fileSize ∧ r.2.1 + r.2.2 ≤ d.input.fileSize := by
  induction h with
  | refl => exact fun r hr => .inl hr
  | @tail d₁ d₂ hreaches hstep ih =>
    obtain ⟨hsize, hpath⟩ := input hreaches
    cases hstep with
    | read offset requested hoffset hend =>
      intro r hr
      rw [records.read] at hr
      rcases List.mem_append.mp hr with hr | hr
      · exact ih r hr
      · rw [List.mem_singleton.mp hr, ← hsize, ← hpath]
        exact .inr ⟨rfl, hoffset, hend⟩
    | buffer _ _ => exact ih
    | advance _ => exact ih
    | output _ => exact ih
    | append data =>
      intro r hr
      rw [records.append] at hr
      exact ih r hr

/-- `kernel_lz4_decompress` reads the archive only, and only before its end. -/
theorem kernelLz4Decompress_reads (history : ℕ → UInt8) (fs : σ) (srcPath dstPath : P) (srcSize : ℕ) :
    ∀ r ∈ reads (kernelLz4Decompress api history fs srcPath srcSize dstPath).fs, r ∈ reads fs ∨
      r.1 = srcPath ∧ r.2.1 < srcSize ∧ r.2.1 + r.2.2 ≤ srcSize := by
  rw [kernelLz4Decompress]
  split
  · exact fun r hr => .inl hr
  have hheader := (lz4ReadHeader_reaches srcSize : Respects (DecoderReaches api) _)
    ⟨fs, ⟨srcPath, srcSize, uint64Max, []⟩, ⟨dstPath, history, [], 0⟩, 0⟩
  have hread := reads_within records hheader
  obtain ⟨hsize, hpath⟩ := hheader.input
  split
  · rename_i heq
    rwa [heq] at hread
  rename_i originalSize framed d heq
  rw [heq] at hread hsize hpath
  change d.input.fileSize = srcSize at hsize
  change d.input.path = srcPath at hpath
  have hcreated : ∀ r ∈ reads (api.fsCreate d.fs dstPath).2, r ∈ reads fs ∨
      r.1 = srcPath ∧ r.2.1 < srcSize ∧ r.2.1 + r.2.2 ≤ srcSize := by
    rwa [records.create]
  by_cases hempty : originalSize = 0
  · rw [if_pos hempty]
    generalize (if framed then 8 else 4) = expectedSize
    dsimp only
    split
    · exact hread
    · split
      · exact hcreated
      · exact hcreated
  · rw [if_neg hempty]
    dsimp only
    by_cases hcode : (api.fsCreate d.fs dstPath).1 ≠ 0
    · rwa [if_pos hcode]
    rw [if_neg hcode]
    have hblocks := ((lz4DecodeBlocks_reaches framed originalSize srcSize (srcSize + 1)).bind
      (fun _ => lz4Finish_reaches originalSize srcSize) : Respects (DecoderReaches api) _)
      { d with fs := (api.fsCreate d.fs dstPath).2, srcIdx := if framed then 8 else 4 }
    have hlater := reads_within records hblocks
    rw [hsize, hpath] at hlater
    split
    · rename_i hdone
      rw [hdone] at hlater
      exact fun r hr => (hlater r hr).elim (hcreated r) .inr
    · rename_i hfailed
      rw [hfailed] at hlater
      intro r hr
      rw [records.delete] at hr
      exact (hlater r hr).elim (hcreated r) .inr

end Reads

end Windoge.Lz4
