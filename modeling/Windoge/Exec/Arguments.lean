import Windoge.Lib.Flow
import Windoge.Paging.Bytes

/-!
# Program arguments

`prepare_user_arguments` copies the argument strings of a new program and then a vector of
pointers to them into the argument area, which starts at the first stack page. The source
writes through the physical address of that page and goes on past its end when the
arguments are longer than a page. What is written where is stated here; whether a program
can read it back is a matter of its page tables.
-/

namespace Windoge.Exec

open Paging LittleEndian Windoge.Flow List Option EStateM.Result

/-- A C string: the characters before the terminating zero. -/
structure CString where
  bytes : List UInt8
  nonzero : ∀ b ∈ bytes, b ≠ 0

/-- An argument vector; entries may be null pointers. -/
abbrev Argv := ℕ → Option CString

/-- The first loop of `prepare_user_arguments`: store each string and its terminator at the
cursor. The result is the user addresses of the strings and the cursor behind them. -/
def copyArguments (stackMemory : Word) (userStackBase argumentAreaSize : ℕ) :
    List (Option CString) → ℕ → EStateM ℤ Mmu (List ℕ × ℕ)
  | [], cursor => pure ([], cursor)
  | none :: _, _ => throw (-1)
  | some argument :: rest, cursor => do
    -- the scan for the terminator gives up after 256 characters
    let length := min argument.bytes.length 256
    if length = 256 ∨ argumentAreaSize < cursor ∨ argumentAreaSize - cursor < length + 1 then
      throw (-1)
    modify fun s => s.putBytes (stackMemory + .ofNat 64 cursor)
      (argument.bytes.take length ++ [0])
    let (addresses, stop) ← copyArguments stackMemory userStackBase argumentAreaSize rest
      (cursor + (length + 1))
    pure ((userStackBase + cursor) :: addresses, stop)

/-- `prepare_user_arguments`; the result is the user address of the pointer vector. -/
def prepareUserArguments (stackMemory : Word) (userStackBase argumentAreaSize : ℕ) (argc : ℤ)
    (argv : Option Argv) : EStateM ℤ Mmu ℕ := do
  if argc < 0 ∨ 32 < argc ∨ (0 < argc ∧ argv.isNone) then throw (-1)
  let (addresses, stop) ← copyArguments stackMemory userStackBase argumentAreaSize
    ((List.range argc.toNat).map fun i => argv.bind fun strings => strings i) 0
  let cursor := (stop + 7) / 8 * 8
  let vectorSize := (argc.toNat + 1) * 8
  if argumentAreaSize < cursor ∨ argumentAreaSize - cursor < vectorSize then throw (-1)
  modify fun s => s.putBytes (stackMemory + .ofNat 64 cursor) (addresses.flatMap (encode 8))
  modify fun s => s.putBytes (stackMemory + .ofNat 64 (cursor + 8 * argc.toNat)) (encode 8 0)
  pure (userStackBase + cursor)

/-- The strings of the argument area, each with its terminator. -/
def argumentStrings (args : List CString) : List UInt8 := args.flatMap fun a => a.bytes ++ [0]

/-- Where the pointer vector starts in the argument area. -/
def vectorOffset (args : List CString) : ℕ := ((argumentStrings args).length + 7) / 8 * 8

/-- Where the pointers of the vector end and its terminating null pointer starts. -/
def pointersEnd (args : List CString) : ℕ := vectorOffset args + 8 * args.length

/-- The user addresses of the strings. -/
def argumentAddresses (userStackBase : ℕ) : ℕ → List CString → List ℕ
  | _, [] => []
  | cursor, a :: rest =>
    (userStackBase + cursor) :: argumentAddresses userStackBase (cursor + (a.bytes.length + 1)) rest

/-- The pointers of the argument area, byte by byte. -/
def pointerBytes (userStackBase : ℕ) (args : List CString) : List UInt8 :=
  (argumentAddresses userStackBase 0 args).flatMap (encode 8)

/-- An argument vector starts with the given strings. -/
def Passes (argv : Option Argv) (args : List CString) : Prop :=
  ∀ (i : ℕ) (a : CString), args[i]? = some a → ∃ strings, argv = some strings ∧ strings i = some a

/-- Memory after the strings and the pointers have been stored, without the null pointer. -/
def withArguments (stackMemory : Word) (userStackBase : ℕ) (args : List CString) (s : Mmu) : Mmu :=
  (s.putBytes stackMemory (argumentStrings args)).putBytes
    (stackMemory + .ofNat 64 (vectorOffset args)) (pointerBytes userStackBase args)

/-- The arguments of a call that the loader takes: at most 32 strings of less than 256
characters. -/
structure Given (argc : ℤ) (argv : Option Argv) (args : List CString) : Prop where
  argc : argc = args.length
  count : args.length ≤ 32
  short : ∀ a ∈ args, a.bytes.length < 256
  passes : Passes argv args

/-- Memory after all arguments have been stored. -/
def storedArguments (stackMemory : Word) (userStackBase : ℕ) (args : List CString) (s : Mmu) : Mmu :=
  (withArguments stackMemory userStackBase args s).putBytes (stackMemory + .ofNat 64 (pointersEnd args)) (encode 8 0)

variable {stackMemory : Word} {userStackBase argumentAreaSize : ℕ} {args : List CString} {s s' : Mmu}

@[simp] theorem argumentStrings_cons (a : CString) (args : List CString) :
    argumentStrings (a :: args) = (a.bytes ++ [0]) ++ argumentStrings args := rfl

variable {argc : ℤ} {argv : Option Argv} {cursor userArgv : ℕ}

/-- Copying short arguments that fit stores their strings and reports where they are. -/
theorem copyArguments_ok (hshort : ∀ a ∈ args, a.bytes.length < 256)
    (hroom : cursor + (argumentStrings args).length ≤ argumentAreaSize) :
    copyArguments stackMemory userStackBase argumentAreaSize (args.map some) cursor s =
      .ok (argumentAddresses userStackBase cursor args, cursor + (argumentStrings args).length)
        (s.putBytes (stackMemory + .ofNat 64 cursor) (argumentStrings args)) := by
  induction args generalizing cursor s with
  | nil => rfl
  | cons a rest ih =>
    have ha := hshort a mem_cons_self
    have hlength : min a.bytes.length 256 = a.bytes.length := by omega
    rw [argumentStrings_cons, length_append, length_append, length_singleton] at hroom
    have hnext : stackMemory + .ofNat 64 cursor + .ofNat 64 (a.bytes ++ [0]).length =
        stackMemory + .ofNat 64 (cursor + (a.bytes.length + 1)) := by
      rw [length_append, length_singleton, add_assoc, ← BitVec.ofNat_add]
    have hspace : cursor + (a.bytes.length + 1) + (argumentStrings rest).length ≤ argumentAreaSize := by
      omega
    have hrest := ih (s := s.putBytes (stackMemory + .ofNat 64 cursor) (a.bytes ++ [0]))
      (fun b hb => hshort b (mem_cons_of_mem a hb)) hspace
    have hguard : ¬ (a.bytes.length = 256 ∨ argumentAreaSize < cursor ∨
        argumentAreaSize - cursor < a.bytes.length + 1) := by omega
    rw [map_cons, copyArguments]
    dsimp only
    rw [hlength, if_neg hguard, take_length, modify_bind, bind_ok hrest, pure_run, argumentStrings_cons,
      putBytes_append s _ (a.bytes ++ [0]), hnext, argumentAddresses]
    congr 2
    simp only [length_append, length_singleton]
    omega

/-- The strings of at most 32 short arguments take at most two pages. -/
theorem argumentStrings_length (hshort : ∀ a ∈ args, a.bytes.length < 256) :
    (argumentStrings args).length ≤ 256 * args.length := by
  induction args with
  | nil => exact le_refl 0
  | cons a rest ih =>
    have ha := hshort a mem_cons_self
    have hrest := ih fun b hb => hshort b (mem_cons_of_mem a hb)
    rw [argumentStrings_cons, length_append, length_append, length_singleton, length_cons]
    omega

theorem Passes.entries (h : Passes argv args) :
    ((List.range args.length).map fun i => argv.bind fun strings => strings i) = args.map some := by
  apply ext_getElem?
  intro i
  by_cases hi : i < args.length
  · obtain ⟨strings, rfl, hstring⟩ := h i (args.get ⟨i, hi⟩) (by simp [hi])
    simp [hi, hstring]
  · simp [hi]

theorem Given.area (h : Given argc argv args) : (argumentStrings args).length ≤ 8192 ∧ args.length ≤ 32 := by
  have hlength := argumentStrings_length h.short
  have hcount := h.count
  omega

theorem Given.room (h : Given argc argv args) : pointersEnd args + 8 ≤ 8456 := by
  have harea := h.area
  rw [pointersEnd, vectorOffset]
  omega

/-- Preparing given arguments that fit succeeds, with the strings, the pointers and the null pointer
stored. -/
theorem prepareUserArguments_ok (hgiven : Given argc argv args) (hroom : pointersEnd args + 8 ≤ argumentAreaSize) :
    prepareUserArguments stackMemory userStackBase argumentAreaSize argc argv s =
      .ok (userStackBase + vectorOffset args) (storedArguments stackMemory userStackBase args s) := by
  obtain ⟨rfl, hcount, hshort, hpasses⟩ := hgiven
  rw [pointersEnd, vectorOffset] at hroom
  have hcopy : copyArguments stackMemory userStackBase argumentAreaSize (args.map some) 0 s = _ :=
    copyArguments_ok hshort (by omega)
  have hgiven : ¬ ((args.length : ℤ) < 0 ∨ 32 < (args.length : ℤ) ∨
      (0 < (args.length : ℤ) ∧ argv.isNone = true)) := by
    rintro (hneg | hmany | ⟨hsome, hnull⟩)
    · omega
    · omega
    · have hpos : 0 < args.length := by omega
      obtain ⟨strings, rfl, -⟩ := hpasses 0 (args.get ⟨0, hpos⟩) (by simp)
      cases hnull
  have hvector : ¬ (argumentAreaSize < vectorOffset args ∨
      argumentAreaSize - vectorOffset args < (args.length + 1) * 8) := by
    rw [vectorOffset]
    omega
  rw [zero_add] at hcopy
  rw [prepareUserArguments]
  dsimp only
  rw [if_neg hgiven, Int.toNat_natCast, hpasses.entries, bind_ok hcopy]
  rw [← vectorOffset, if_neg hvector, modify_bind, modify_bind, pure_run, BitVec.add_zero]
  rfl

/-- Copying succeeds for strings of less than 256 characters only, and stops behind them. -/
theorem copyArguments_given {entries : List (Option CString)} {result : List ℕ × ℕ}
    (h : copyArguments stackMemory userStackBase argumentAreaSize entries cursor s = .ok result s') :
    ∃ args : List CString, entries = args.map some ∧ (∀ a ∈ args, a.bytes.length < 256) ∧
      result.2 = cursor + (argumentStrings args).length := by
  induction entries generalizing cursor s s' result with
  | nil =>
    cases h
    exact ⟨[], rfl, forall_mem_nil _, rfl⟩
  | cons entry rest ih =>
    cases entry with
    | none => cases h
    | some a =>
      rw [copyArguments] at h
      split_ifs at h
      · cases h
      obtain ⟨_, _, -, hlater⟩ := bind_eq_ok h
      obtain ⟨pair, _, hrest, hdone⟩ := bind_eq_ok hlater
      obtain ⟨args, rfl, hshort, hstop⟩ := ih hrest
      cases hdone
      refine ⟨a :: args, rfl, forall_mem_cons.mpr ⟨by omega, hshort⟩, hstop.trans ?_⟩
      rw [argumentStrings_cons, length_append, length_append, length_singleton]
      omega

/-- Arguments that were prepared are such that the loader takes them, and are stored. -/
theorem prepareUserArguments_given
    (h : prepareUserArguments stackMemory userStackBase argumentAreaSize argc argv s = .ok userArgv s') :
    ∃ args, Given argc argv args ∧ pointersEnd args + 8 ≤ argumentAreaSize ∧
      userArgv = userStackBase + vectorOffset args ∧ s' = storedArguments stackMemory userStackBase args s := by
  have hcall := h
  rw [prepareUserArguments] at h
  split_ifs at h
  · cases h
  obtain ⟨pair, _, hcopy, hlater⟩ := bind_eq_ok h
  obtain ⟨args, hentries, hshort, hstop⟩ := copyArguments_given hcopy
  have hlength := congrArg length hentries
  rw [length_map, length_range, length_map] at hlength
  have hgiven : Given argc argv args := by
    refine ⟨by omega, by omega, hshort, fun i a hi => ?_⟩
    have hlt : i < args.length := (List.getElem?_eq_some_iff.mp hi).1
    have hentry := congrArg (fun entries => entries[i]?) hentries
    simp only [getElem?_map, getElem?_range (hlength ▸ hlt), hi, map_some] at hentry
    obtain ⟨strings, hargv, hstring⟩ := bind_eq_some_iff.mp (some.inj hentry)
    exact ⟨strings, hargv, hstring⟩
  dsimp only at hlater
  split_ifs at hlater
  · cases hlater
  have hroom : pointersEnd args + 8 ≤ argumentAreaSize := by
    rw [pointersEnd, vectorOffset]
    omega
  obtain ⟨hargv, hmemory⟩ := ok.inj (hcall.symm.trans (prepareUserArguments_ok hgiven hroom))
  exact ⟨args, hgiven, hroom, hargv, hmemory⟩

/-- The pointers of the vector are eight bytes each. -/
theorem pointerBytes_length (userStackBase : ℕ) (args : List CString) :
    (pointerBytes userStackBase args).length = 8 * args.length := by
  have haddresses : ∀ (args : List CString) (cursor : ℕ),
      (argumentAddresses userStackBase cursor args).length = args.length := by
    intro args
    induction args with
    | nil => exact fun _ => rfl
    | cons a rest ih =>
      intro cursor
      rw [argumentAddresses, length_cons, ih, length_cons]
  rw [pointerBytes, length_flatMap]
  simp [haddresses, mul_comm]

theorem vectorOffset_spec (args : List CString) :
    (argumentStrings args).length ≤ vectorOffset args ∧ vectorOffset args % 8 = 0 := by
  rw [vectorOffset]
  omega

/-- The string at an address of a view of memory, terminator included. -/
def StringAt (view : ℕ → Option UInt8) (address : ℕ) (a : CString) : Prop :=
  ∀ (j : ℕ) (b : UInt8), (a.bytes ++ [0])[j]? = some b → view (address + j) = some b

/-- The 64-bit number at an address of a view of memory. -/
def WordAt (view : ℕ → Option UInt8) (address value : ℕ) : Prop :=
  value < 2 ^ 64 ∧ ∀ j < 8, view (address + j) = some (byteAt value j)

/-- A view of memory holds an argument vector: a pointer to each string, then a null pointer. -/
structure ArgvAt (view : ℕ → Option UInt8) (userArgv : ℕ) (args : List CString) : Prop where
  strings : ∀ (i : ℕ) (a : CString), args[i]? = some a →
    ∃ address, WordAt view (userArgv + 8 * i) address ∧ StringAt view address a
  terminated : WordAt view (userArgv + 8 * args.length) 0

/-- The address of a string is behind the strings before it. -/
theorem argumentAddresses_getElem? {i : ℕ} (hi : i < args.length) :
    (argumentAddresses userStackBase cursor args)[i]? =
      some (userStackBase + (cursor + (argumentStrings (args.take i)).length)) := by
  induction args generalizing cursor i with
  | nil => exact absurd hi (Nat.not_lt_zero i)
  | cons a rest ih =>
    cases i with
    | zero => rfl
    | succ i =>
      rw [argumentAddresses, getElem?_cons_succ, ih (by simpa using hi), take_succ_cons, argumentStrings_cons]
      simp only [length_append, length_singleton]
      congr 1
      omega

/-- Byte `8 i + j` of encoded words is byte `j` of word `i`. -/
theorem flatMap_encode_getElem? {words : List ℕ} {i j value : ℕ} (hi : words[i]? = some value)
    (hj : j < 8) : (words.flatMap (encode 8))[8 * i + j]? = some (byteAt value j) := by
  induction words generalizing i with
  | nil => cases hi
  | cons word rest ih =>
    rw [flatMap_cons]
    cases i with
    | zero =>
      obtain rfl : word = value := by simpa using hi
      rw [mul_zero, zero_add, getElem?_append_left (by simpa using hj)]
      simp [encode, hj]
    | succ i =>
      rw [getElem?_append_right (by rw [encode_length]; omega), encode_length]
      have hsub : 8 * (i + 1) + j - 8 = 8 * i + j := by omega
      rw [hsub]
      exact ih (by simpa using hi)

/-- The string of an argument stands at its place among the strings. -/
theorem argumentStrings_getElem? {i j : ℕ} {a : CString} {b : UInt8} (hi : args[i]? = some a)
    (hb : (a.bytes ++ [0])[j]? = some b) :
    (argumentStrings args)[(argumentStrings (args.take i)).length + j]? = some b := by
  induction args generalizing i with
  | nil => cases hi
  | cons first rest ih =>
    rw [argumentStrings_cons]
    cases i with
    | zero =>
      obtain rfl : first = a := by simpa using hi
      have hj : j < (first.bytes ++ [0]).length := (List.getElem?_eq_some_iff.mp hb).1
      have hstart : (argumentStrings (take 0 (first :: rest))).length + j = j := by simp [argumentStrings]
      rw [hstart, getElem?_append_left hj, hb]
    | succ i =>
      rw [take_succ_cons, argumentStrings_cons, length_append, add_assoc,
        getElem?_append_right le_self_add, Nat.add_sub_cancel_left]
      exact ih (by simpa using hi)

theorem argumentStrings_take_le (args : List CString) (i : ℕ) :
    (argumentStrings (args.take i)).length ≤ (argumentStrings args).length := by
  have hsplit : argumentStrings args = argumentStrings (args.take i) ++ argumentStrings (args.drop i) := by
    rw [argumentStrings, argumentStrings, argumentStrings, ← flatMap_append, take_append_drop]
  rw [hsplit, length_append]
  exact le_self_add

/-- A view that shows the strings and the pointers shows each string at its place, and its address in the
vector. -/
theorem stored_entry {view : ℕ → Option UInt8} {i : ℕ} {a : CString}
    (hstrings : ∀ (c : ℕ) (b : UInt8), (argumentStrings args)[c]? = some b → view c = some b)
    (hpointers : ∀ (c : ℕ) (b : UInt8), (pointerBytes userStackBase args)[c]? = some b →
      view (vectorOffset args + c) = some b) (hi : args[i]? = some a) :
    StringAt view (argumentStrings (args.take i)).length a ∧ ∀ j < 8, view (vectorOffset args + (8 * i + j)) =
      some (byteAt (userStackBase + (argumentStrings (args.take i)).length) j) := by
  have haddress : (argumentAddresses userStackBase 0 args)[i]? = _ :=
    argumentAddresses_getElem? (List.getElem?_eq_some_iff.mp hi).1
  rw [zero_add] at haddress
  exact ⟨fun j b hb => hstrings _ b (argumentStrings_getElem? hi hb), fun j hj =>
    hpointers (8 * i + j) _ (flatMap_encode_getElem? haddress hj)⟩

/-- A view that shows the strings, the pointers and the null pointer where they were stored holds
the argument vector. -/
theorem argvAt_of_stored {view : ℕ → Option UInt8}
    (hstrings : ∀ (c : ℕ) (b : UInt8), (argumentStrings args)[c]? = some b → view (userStackBase + c) = some b)
    (hpointers : ∀ (c : ℕ) (b : UInt8), (pointerBytes userStackBase args)[c]? = some b →
      view (userStackBase + (vectorOffset args + c)) = some b)
    (hnull : ∀ j < 8, view (userStackBase + (pointersEnd args + j)) = some 0)
    (hfits : userStackBase + (argumentStrings args).length < 2 ^ 64) :
    ArgvAt view (userStackBase + vectorOffset args) args := by
  refine ⟨fun i a hi => ?_, by decide, fun j hj => ?_⟩
  · have htake := argumentStrings_take_le args i
    obtain ⟨hstring, hpointer⟩ := @stored_entry userStackBase args (fun c => view (userStackBase + c)) i a
      hstrings hpointers hi
    refine ⟨userStackBase + (argumentStrings (args.take i)).length, ⟨by omega, fun j hj => ?_⟩, fun j b hb => ?_⟩
    · rw [add_assoc, add_assoc]
      exact hpointer j hj
    · rw [add_assoc]
      exact hstring j b hb
  · have hzero : byteAt 0 j = 0 := by simp [byteAt]
    rw [add_assoc, add_assoc, ← add_assoc (vectorOffset args), hzero]
    exact hnull j hj

/-- What was stored can be read back. -/
theorem storedArguments_bytes (hgiven : Given argc argv args) (stackMemory : Word) (userStackBase : ℕ) (s : Mmu) :
    (∀ (c : ℕ) (b : UInt8), (argumentStrings args)[c]? = some b →
      (storedArguments stackMemory userStackBase args s).byte (stackMemory + .ofNat 64 c) = b) ∧
    (∀ (c : ℕ) (b : UInt8), (pointerBytes userStackBase args)[c]? = some b →
      (storedArguments stackMemory userStackBase args s).byte (stackMemory + .ofNat 64 (vectorOffset args + c)) = b) ∧
    ∀ j < 8, (storedArguments stackMemory userStackBase args s).byte
      (stackMemory + .ofNat 64 (pointersEnd args + j)) = 0 := by
  have harea := hgiven.area
  have hroom := hgiven.room
  have hend : pointersEnd args = vectorOffset args + 8 * args.length := rfl
  have hpointers := pointerBytes_length userStackBase args
  obtain ⟨hbehind, -⟩ := vectorOffset_spec args
  have hput {bytes : List UInt8} {o c : ℕ} (ho : o ≤ 8456) (hc : c ≤ 8456) (hlength : bytes.length ≤ 8456) (t : Mmu) :=
    @byte_putBytes_offset bytes o c (by omega) (by omega) (by omega) t stackMemory
  refine ⟨fun c b hb => ?_, fun c b hb => ?_, fun j hj => ?_⟩
  · have hc : c < (argumentStrings args).length := (List.getElem?_eq_some_iff.mp hb).1
    have hfirst := hput (o := 0) (c := c) (by omega) (by omega) (by omega : (argumentStrings args).length ≤ 8456) s
    rw [BitVec.add_zero, if_pos zero_le, Nat.sub_zero, hb, getD_some] at hfirst
    rw [storedArguments, hput (by omega) (by omega) (by decide), if_neg (by omega), withArguments,
      hput (by omega) (by omega) (by omega), if_neg (by omega), hfirst]
  · have hc : c < (pointerBytes userStackBase args).length := (List.getElem?_eq_some_iff.mp hb).1
    rw [storedArguments, hput (by omega) (by omega) (by decide), if_neg (by omega), withArguments,
      hput (by omega) (by omega) (by omega), if_pos le_self_add, Nat.add_sub_cancel_left, hb, getD_some]
  · have hzeros : encode 8 0 = replicate 8 0 := by decide
    rw [storedArguments, hput (by omega) (by omega) (by decide), if_pos le_self_add, Nat.add_sub_cancel_left,
      hzeros, getElem?_replicate, if_pos hj, getD_some]

/-- `prepare_user_arguments` succeeds exactly for arguments that fit the area, and what it leaves there. -/
theorem prepareUserArguments_spec (stackMemory : Word) (userStackBase argumentAreaSize : ℕ) (argc : ℤ)
    (argv : Option Argv) (s : Mmu) :
    ((∃ userArgv s', prepareUserArguments stackMemory userStackBase argumentAreaSize argc argv s =
        .ok userArgv s') ↔ ∃ args, Given argc argv args ∧ pointersEnd args + 8 ≤ argumentAreaSize) ∧
    ∀ userArgv s',
      prepareUserArguments stackMemory userStackBase argumentAreaSize argc argv s = .ok userArgv s' →
      ∃ args, Given argc argv args ∧ pointersEnd args + 8 ≤ argumentAreaSize ∧
        userArgv = userStackBase + vectorOffset args ∧ vectorOffset args % 8 = 0 ∧
        (∀ (i : ℕ) (a : CString), args[i]? = some a →
          StringAt (fun c => some (s'.byte (stackMemory + .ofNat 64 c))) (argumentStrings (args.take i)).length a ∧
          ∀ j < 8, s'.byte (stackMemory + .ofNat 64 (vectorOffset args + (8 * i + j))) =
            byteAt (userStackBase + (argumentStrings (args.take i)).length) j) ∧
        ∀ j < 8, s'.byte (stackMemory + .ofNat 64 (pointersEnd args + j)) = 0 := by
  refine ⟨⟨?_, ?_⟩, fun userArgv s' h => ?_⟩
  · rintro ⟨_, _, h⟩
    obtain ⟨args, hgiven, hroom, -⟩ := prepareUserArguments_given h
    exact ⟨args, hgiven, hroom⟩
  · rintro ⟨args, hgiven, hroom⟩
    exact ⟨_, _, prepareUserArguments_ok hgiven hroom⟩
  · obtain ⟨args, hgiven, hroom, hargv, rfl⟩ := prepareUserArguments_given h
    obtain ⟨hstrings, hpointers, hnull⟩ := storedArguments_bytes hgiven stackMemory userStackBase s
    refine ⟨args, hgiven, hroom, hargv, (vectorOffset_spec args).2, fun i a hi => ?_, hnull⟩
    obtain ⟨hstring, hpointer⟩ := stored_entry (fun c b hb => congrArg some (hstrings c b hb))
      (fun c b hb => congrArg some (hpointers c b hb)) hi
    exact ⟨hstring, fun j hj => some.inj (hpointer j hj)⟩

end Windoge.Exec
