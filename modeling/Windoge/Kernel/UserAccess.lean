import Windoge.Paging.Bytes
import Windoge.Kernel.Machine

/-!
# Access to user memory

`user_range_accessible`, the check that every pointer from a program passes before the kernel
follows it, and `copy_user_string`, which makes the check byte by byte while it copies. Lengths and
addresses are words, so that the sums of the source wrap as they do there. The page loop needs no
bound of its own: a page that is accessible lies below the limit, and the next one above it.
-/

namespace Windoge.Kernel

open Paging Function List

/-- What `user_page_accessible` asks of an entry: present, user and, for a write, writable. -/
def allows (writeAccess : Bool) (entry : Word) : Bool :=
  isUserTable entry && (!writeAccess || entry &&& pageWritable ≠ 0)

/-- An entry of level 1 or 2 with bit 7 maps a large page. -/
def isLargePage (level : ℕ) (entry : Word) : Bool :=
  (level = 1 ∨ level = 2) ∧ entry &&& 0x80 ≠ 0

/-- The loop of `user_page_accessible` from a level on. -/
def walkAccessible (s : Mmu) (writeAccess : Bool) : ℕ → Word → List (Fin 512) → Bool
  | _, _, [] => true
  | level, table, index :: rest =>
    let entry := s.mem table index
    if !allows writeAccess entry then false
    else if isLargePage level entry then true
    else walkAccessible s writeAccess (level + 1) (entry &&& ~~~pageOffsetMask) rest

/-- `user_page_accessible`. -/
def userPageAccessible (s : Mmu) (writeAccess : Bool) (address : Word) : Bool :=
  if userAddressLimit ≤ address then false
  else walkAccessible s writeAccess 0 s.loaded (pagePath address)

theorem userPageAccessible_lt {s : Mmu} {writeAccess : Bool} {address : Word}
    (h : userPageAccessible s writeAccess address) : address < userAddressLimit := by
  unfold userPageAccessible at h
  split_ifs at h
  exact BitVec.not_le.mp ‹_›

/-- The page loop of `user_range_accessible`. -/
def pagesAccessible (s : Mmu) (writeAccess : Bool) (page lastPage : Word) : Bool :=
  if h : userPageAccessible s writeAccess page then
    if page = lastPage then true else pagesAccessible s writeAccess (page + 4096) lastPage
  else false
termination_by 2 ^ 64 - page.toNat
decreasing_by
  have hlt := userPageAccessible_lt h
  unfold userAddressLimit at hlt
  bv_omega

/-- `user_range_accessible`. -/
def userRangeAccessible (s : Mmu) (address length : Word) (writeAccess : Bool) : Bool :=
  if length = 0 then address < userAddressLimit
  else if address = 0 ∨ userAddressLimit ≤ address ∨ userAddressLimit - 1 - address < length - 1 then false
  else pagesAccessible s writeAccess (frameOf address) (frameOf (address + length - 1))

/-- The entry that the translation of an address meets at a level of the tables. -/
def entryAt (s : Mmu) (address : Word) : ℕ → Word
  | 0 => s.mem s.loaded (tableIndex 39 address)
  | level + 1 => s.mem (entryAt s address level &&& ~~~pageOffsetMask) (tableIndex (30 - 9 * level) address)

/-- Every entry allows the access, from the PML4 down to a large page or to the entry of the page. -/
def Accessible (s : Mmu) (writeAccess : Bool) (address : Word) : Prop :=
  ∀ level ≤ 3, (∀ above < level, isLargePage above (entryAt s address above) = false) →
    allows writeAccess (entryAt s address level)

variable {s : Mmu} {writeAccess : Bool}

/-- The four levels one after the other. -/
theorem accessible_iff (address : Word) : Accessible s writeAccess address ↔
    allows writeAccess (entryAt s address 0) ∧ allows writeAccess (entryAt s address 1) ∧
      (isLargePage 1 (entryAt s address 1) ∨ allows writeAccess (entryAt s address 2) ∧
        (isLargePage 2 (entryAt s address 2) ∨ allows writeAccess (entryAt s address 3))) := by
  have hroot : isLargePage 0 (entryAt s address 0) = false := by simp [isLargePage]
  simp only [Accessible, Nat.le_succ_iff, Nat.le_zero]
  grind

theorem userPageAccessible_iff (address : Word) : userPageAccessible s writeAccess address ↔
    address < userAddressLimit ∧ Accessible s writeAccess address := by
  have hroot : isLargePage 0 (entryAt s address 0) = false := by simp [isLargePage]
  have hleaf : isLargePage 3 (entryAt s address 3) = false := by simp [isLargePage]
  have hwalk : walkAccessible s writeAccess 0 s.loaded (pagePath address) ↔ Accessible s writeAccess address := by
    rw [accessible_iff]
    simp only [entryAt] at hroot hleaf ⊢
    simp only [pagePath, tablePath, cons_append, nil_append, walkAccessible, hroot, hleaf]
    grind
  by_cases hlimit : userAddressLimit ≤ address
  · simp [userPageAccessible, hlimit]
  · simp [userPageAccessible, hlimit, hwalk, BitVec.not_le.mp hlimit]

/-- The translation does not depend on the offset in the page. -/
theorem accessible_congr {address other : Word} (h : pagePath address = pagePath other) :
    Accessible s writeAccess address ↔ Accessible s writeAccess other := by
  simp only [pagePath, tablePath, cons_append, nil_append, cons.injEq, and_true] at h
  simp only [accessible_iff, entryAt, h]

/-- The page loop over pages that do not reach the limit. -/
theorem pagesAccessible_iff {lastPage : Word} (hlimit : lastPage < userAddressLimit) (count : ℕ) {page : Word}
    (hlast : page.toNat + 4096 * count = lastPage.toNat) :
    pagesAccessible s writeAccess page lastPage ↔
      ∀ k ≤ count, Accessible s writeAccess (.ofNat 64 (page.toNat + 4096 * k)) := by
  induction count generalizing page with
  | zero =>
    obtain rfl : page = lastPage := BitVec.eq_of_toNat_eq (by omega)
    rw [pagesAccessible]
    simp [userPageAccessible_iff, hlimit]
  | succ count ih =>
    have hnext : (page + 4096).toNat = page.toNat + 4096 := by bv_omega
    have hpage : page < userAddressLimit := by
      bv_omega
    have hne : page ≠ lastPage := by
      rintro rfl
      omega
    have hshift : ∀ k, page.toNat + 4096 + 4096 * k = page.toNat + 4096 * (k + 1) := by omega
    rw [pagesAccessible]
    by_cases hfirst : userPageAccessible s writeAccess page
    · rw [dif_pos hfirst, if_neg hne, ih (by omega), hnext]
      have hzero := ((userPageAccessible_iff page).mp hfirst).2
      simp only [hshift]
      refine ⟨fun h k hk => ?_, fun h k hk => h (k + 1) (by omega)⟩
      cases k with
      | zero => simpa using hzero
      | succ k => exact h k (by omega)
    · rw [dif_neg hfirst]
      refine iff_of_false Bool.false_ne_true fun h => hfirst ((userPageAccessible_iff page).mpr ⟨hpage, ?_⟩)
      simpa using h 0 (by omega)

/-- A non-empty range is accessible iff it does not start at 0, ends at the limit at the latest, and
every byte of it is accessible. -/
theorem user_range_accessible_iff (s : Mmu) (address length : Word) (writeAccess : Bool) (hlength : 0 < length) :
    userRangeAccessible s address length writeAccess ↔
      address ≠ 0 ∧ address.toNat + length.toNat ≤ userAddressLimit.toNat ∧
        ∀ b, address.toNat ≤ b → b < address.toNat + length.toNat →
          Accessible s writeAccess (.ofNat 64 b) := by
  have hvalue : userAddressLimit.toNat = 0x800000000000 := rfl
  have hpos : 0 < length.toNat := by bv_omega
  have hguard : (address = 0 ∨ userAddressLimit ≤ address ∨ userAddressLimit - 1 - address < length - 1) ↔
      ¬ (address ≠ 0 ∧ address.toNat + length.toNat ≤ userAddressLimit.toNat) := by
    bv_omega
  rw [userRangeAccessible, if_neg (by bv_omega)]
  by_cases hrange : address ≠ 0 ∧ address.toNat + length.toNat ≤ userAddressLimit.toNat
  · rw [if_neg (by rw [hguard]; exact not_not.mpr hrange)]
    have hend : (address + length - 1).toNat = address.toNat + length.toNat - 1 := by bv_omega
    have hfirst := toNat_frameOf address
    have hlast := toNat_frameOf (address + length - 1)
    rw [hend] at hlast
    have hlimit : frameOf (address + length - 1) < userAddressLimit := by bv_omega
    rw [pagesAccessible_iff hlimit
      ((address.toNat + length.toNat - 1) / 4096 - address.toNat / 4096) (by bv_omega)]
    simp only [hrange, true_and, ne_eq, not_false_eq_true]
    -- a byte and the page that holds it have the same translation
    have hpage : ∀ b k, b < 0x800000000000 → b / 4096 = address.toNat / 4096 + k →
        (Accessible s writeAccess (.ofNat 64 ((frameOf address).toNat + 4096 * k)) ↔
          Accessible s writeAccess (.ofNat 64 b)) := fun b k hb hk =>
      accessible_congr ((pagePath_eq_iff (by omega) hb).mpr (by omega))
    constructor
    · intro h b hlow hhigh
      exact (hpage b (b / 4096 - address.toNat / 4096) (by omega) (by omega)).mp (h _ (by omega))
    · intro h k hk
      have hbyte := h (max address.toNat (4096 * (address.toNat / 4096 + k))) (by omega) (by omega)
      exact (hpage _ k (by omega) (by omega)).mpr hbyte
  · rw [if_pos (hguard.mpr hrange)]
    tauto

/-- A machine whose tables grant everything: two bytes across a page boundary can be written. -/
theorem user_range_accessible_across :
    userRangeAccessible ⟨fun _ _ => 7, 0, 0, 0, 0, false, false⟩ 0x1FFF 2 true := by
  refine (user_range_accessible_iff _ _ _ _ (by decide)).mpr ⟨by decide, by decide, ?_⟩
  intro b _ _ level _ _
  have hall : allows true 7 := by decide
  cases level <;> exact hall

/-- What `copy_user_string` leaves: the length if it returns true, the buffer from its start on, and the
indices of the bytes that it has read. -/
structure StringCopy where
  length : Option ℕ
  buffer : ℕ → UInt8
  reads : List ℕ

/-- The byte of user memory at an index from an address on. -/
def byteAt (memory : Word → UInt8) (address : Word) (i : ℕ) : UInt8 := memory (address + .ofNat 64 i)

/-- The loop of `copy_user_string` from index `i` on, for the rounds that are left. -/
def copyBytes (s : Mmu) (memory : Word → UInt8) (address : Word) :
    ℕ → ℕ → (ℕ → UInt8) → List ℕ → StringCopy
  | 0, _, buffer, reads => ⟨none, buffer, reads⟩
  | left + 1, i, buffer, reads =>
    if userAddressLimit ≤ address ∨ (userAddressLimit - address).toNat ≤ i ∨
        !userRangeAccessible s (address + .ofNat 64 i) 1 false then ⟨none, buffer, reads⟩
    else
      let buffer := Function.update buffer i (byteAt memory address i)
      if buffer i = 0 then ⟨some i, buffer, reads ++ [i]⟩
      else copyBytes s memory address left (i + 1) buffer (reads ++ [i])

/-- `copy_user_string` into a buffer that is there. -/
def copyUserString (s : Mmu) (memory : Word → UInt8) (address : Word) (buffer : ℕ → UInt8) (capacity : ℕ) :
    StringCopy :=
  if capacity = 0 ∨ address = 0 then ⟨none, buffer, []⟩ else copyBytes s memory address capacity 0 buffer []

/-- An accessible user byte, at an address over the unbounded integers. -/
def UserByte (s : Mmu) (b : ℕ) : Prop :=
  b ≠ 0 ∧ b < userAddressLimit.toNat ∧ Accessible s false (.ofNat 64 b)

theorem userRangeAccessible_one {address : Word} (hne : address ≠ 0) (hlimit : address < userAddressLimit) :
    userRangeAccessible s address 1 writeAccess ↔ Accessible s writeAccess address := by
  have hlt : address.toNat < 0x800000000000 := hlimit
  have hframe := toNat_frameOf address
  have hguard : ¬ (address = 0 ∨ userAddressLimit ≤ address ∨ userAddressLimit - 1 - address < 1 - 1) := by
    bv_omega
  have hsame : pagePath (.ofNat 64 (frameOf address).toNat) = pagePath (.ofNat 64 address.toNat) :=
    (pagePath_eq_iff (by omega) hlt).mpr (by omega)
  rw [userRangeAccessible, if_neg (by decide), if_neg hguard, show address + 1 - 1 = address by bv_omega,
    pagesAccessible_iff (show frameOf address < userAddressLimit by bv_omega) 0 (by simp)]
  simpa using accessible_congr hsame

/-- The guard of a round lets exactly the accessible bytes pass. -/
theorem copyBytes_guard {address : Word} (haddress : address ≠ 0) (i : ℕ) :
    (userAddressLimit ≤ address ∨ (userAddressLimit - address).toNat ≤ i ∨
      !userRangeAccessible s (address + .ofNat 64 i) 1 false) ↔ ¬ UserByte s (address.toNat + i) := by
  by_cases hin : address.toNat + i < userAddressLimit.toNat
  · have hsum : .ofNat 64 (address.toNat + i) = address + .ofNat 64 i := by bv_omega
    have hone : userRangeAccessible s (address + .ofNat 64 i) 1 false ↔
        Accessible s false (address + .ofNat 64 i) :=
      userRangeAccessible_one (by bv_omega) (by bv_omega)
    rw [UserByte, hsum, ← hone]
    have hlimit : ¬ userAddressLimit ≤ address := by bv_omega
    have hindex : ¬ (userAddressLimit - address).toNat ≤ i := by bv_omega
    have hne : address.toNat + i ≠ 0 := by bv_omega
    simp only [hlimit, hindex, hne, hin, ne_eq, not_false_eq_true, false_or, true_and, Bool.not_eq_true',
      Bool.not_eq_true]
  · have hout : userAddressLimit ≤ address ∨ (userAddressLimit - address).toNat ≤ i := by
      bv_omega
    exact iff_of_true (hout.elim .inl fun h => .inr (.inl h)) fun h => hin h.2.1

/-- What the rounds from index `i` on leave, `left` of them at most. -/
structure Copies (s : Mmu) (memory : Word → UInt8) (address : Word) (left i : ℕ) (buffer : ℕ → UInt8)
    (reads : List ℕ) (copy : StringCopy) : Prop where
  length : ∀ n, copy.length = some n ↔ i ≤ n ∧ n < i + left ∧
    (∀ j, i ≤ j → j ≤ n → UserByte s (address.toNat + j)) ∧
    (∀ j, i ≤ j → j < n → byteAt memory address j ≠ 0) ∧ byteAt memory address n = 0
  stored : ∀ n, copy.length = some n → ∀ j, copy.buffer j =
    if i ≤ j ∧ j ≤ n then byteAt memory address j else buffer j
  beyond : ∀ j, i + left ≤ j → copy.buffer j = buffer j
  reads : ∀ j ∈ copy.reads, j ∈ reads ∨ UserByte s (address.toNat + j)

theorem copyBytes_copies {memory : Word → UInt8} {address : Word} (haddress : address ≠ 0) (left i : ℕ)
    (buffer : ℕ → UInt8) (reads : List ℕ) :
    Copies s memory address left i buffer reads (copyBytes s memory address left i buffer reads) := by
  induction left generalizing i buffer reads with
  | zero =>
    rw [copyBytes]
    exact ⟨by simp; omega, by simp, fun _ _ => rfl, fun _ hj => .inl hj⟩
  | succ left ih =>
    rw [copyBytes]
    by_cases hbyte : UserByte s (address.toNat + i)
    · rw [if_neg ((copyBytes_guard haddress i).not.mpr (not_not.mpr hbyte))]
      simp only [update_self]
      have hreads : ∀ j ∈ reads ++ [i], j ∈ reads ∨ UserByte s (address.toNat + j) := by
        simpa [or_imp, forall_and, hbyte] using fun _ => Or.inl
      split
      · rename_i hzero
        refine ⟨fun n => ?_, fun n hn j => ?_, fun j hj => update_of_ne (by omega) _ _, hreads⟩
        · grind
        · cases hn
          simp only [update_apply]
          grind
      · rename_i hnonzero
        have hrest := ih (i + 1) (update buffer i (byteAt memory address i)) (reads ++ [i])
        refine ⟨fun n => (hrest.length n).trans ?_, fun n hn j => ?_, fun j hj => ?_, fun j hj => ?_⟩
        · grind
        · have hin := ((hrest.length n).mp hn).1
          rw [hrest.stored n hn, update_apply]
          grind
        · rw [hrest.beyond j (by omega), update_of_ne (by omega)]
        · exact (hrest.reads j hj).elim (hreads j) .inr
    · rw [if_pos ((copyBytes_guard haddress i).mpr hbyte)]
      refine ⟨fun n => iff_of_false (by simp) ?_, by simp, fun _ _ => rfl, fun _ hj => .inl hj⟩
      rintro ⟨hle, -, hall, -⟩
      exact hbyte (hall i le_rfl hle)

/-- `copy_user_string` returns true, with the length of the string, iff a NUL comes before the capacity
is used up and every byte up to the first one is accessible. It then has stored these bytes and no
others. In any case it has read accessible bytes only and stored nothing beyond the capacity. -/
theorem copy_user_string_spec (s : Mmu) (memory : Word → UInt8) (address : Word) (buffer : ℕ → UInt8)
    (capacity : ℕ) :
    (∀ n, (copyUserString s memory address buffer capacity).length = some n ↔ n < capacity ∧
      (∀ j ≤ n, UserByte s (address.toNat + j)) ∧
      (∀ j < n, byteAt memory address j ≠ 0) ∧ byteAt memory address n = 0) ∧
    (∀ n, (copyUserString s memory address buffer capacity).length = some n →
      ∀ j, (copyUserString s memory address buffer capacity).buffer j =
        if j ≤ n then byteAt memory address j else buffer j) ∧
    (∀ j ∈ (copyUserString s memory address buffer capacity).reads, UserByte s (address.toNat + j)) ∧
    ∀ j ≥ capacity, (copyUserString s memory address buffer capacity).buffer j = buffer j := by
  unfold copyUserString
  split
  · rename_i hnone
    refine ⟨fun n => iff_of_false (by simp) ?_, by simp, by simp, fun _ _ => rfl⟩
    rintro ⟨hn, hall, -⟩
    rcases hnone with hnone | rfl
    · omega
    · exact (hall 0 (Nat.zero_le n)).1 rfl
  · rename_i hsome
    have hcopy : Copies s memory address capacity 0 buffer [] (copyBytes s memory address capacity 0 buffer []) :=
      copyBytes_copies (fun h => hsome (.inr h)) capacity 0 buffer []
    refine ⟨fun n => ?_, fun n hn j => ?_, fun j hj => ?_, fun j hj => hcopy.beyond j (by omega)⟩
    · simpa using hcopy.length n
    · simpa using hcopy.stored n hn j
    · simpa using hcopy.reads j hj

/-!
## Reads, writes and seeks

The Linux calls that move the offset of a descriptor. A write copies the data and the whole file into
two static buffers, which keep what earlier calls have left there, and writes the file back from them.
The arithmetic of `lseek` is signed and has no result where it overflows.
-/

/-- The calls of the file system with `fs_read_raw_at`, which returns the bytes that it has read. -/
structure RawCalls (W : Type) extends FileCalls W where
  fsReadRawAt : String → ℕ → ℕ → W → Option (List UInt8) × W

/-- What the calls change: the descriptors, `linux_file_image`, `linux_write_data`, what is printed on
the terminal and the file system. -/
structure FileState (W : Type) where
  context : LinuxContext
  fileImage : ℕ → UInt8
  writeData : ℕ → UInt8
  terminal : List UInt8
  files : W

/-- The value of a system call or the number of its error, with the state afterwards; none where the
behaviour is undefined. -/
abbrev Outcome (W : Type) := Option (Except ℕ ℕ × FileState W)

/-- `USER_IO_LIMIT`. -/
def userIoLimit : ℕ := 65536

/-- `LINUX_FILE_IO_LIMIT`. -/
def linuxFileIoLimit : ℕ := 65536

/-- A buffer with bytes copied to a place in it. -/
def overlay (buffer : ℕ → UInt8) (start : ℕ) (bytes : List UInt8) (i : ℕ) : UInt8 :=
  if start ≤ i ∧ i < start + bytes.length then bytes.getD (i - start) 0 else buffer i

variable {W : Type} (fs : RawCalls W) (s : Mmu) (memory : Word → UInt8)

/-- The entry of a descriptor. -/
def FileState.entry (st : FileState W) (fd : Fin 32) : LinuxFd := st.context.fileDescriptors fd

/-- The state with another entry for a descriptor. -/
def FileState.set (st : FileState W) (fd : Fin 32) (entry : LinuxFd) : FileState W :=
  { st with context := { st.context with
      fileDescriptors := Function.update st.context.fileDescriptors fd entry } }

/-- The state with another offset of a descriptor. -/
def FileState.seek (st : FileState W) (fd : Fin 32) (offset : ℕ) : FileState W :=
  st.set fd { st.entry fd with offset }

/-- `linux_read_fd`, with the bytes that it stores in the buffer. There is a position for `pread`;
`typed` is the line that `dogeio_input` reads. -/
def linuxReadFd (fd : Fin 32) (buffer count : Word) (position : Option ℕ) (typed : List UInt8)
    (st : FileState W) : Except ℕ (List UInt8) × FileState W :=
  let entry := st.entry fd
  let count := min count.toNat userIoLimit
  if !entry.readable then (.error 9, st)
  else if count = 0 then (.ok [], st)
  else if !userRangeAccessible s buffer (.ofNat 64 count) true then (.error 14, st)
  else if entry.isDir then (.error 21, st)
  else if entry.isTerminal ∧ fd = 0 then
    (.ok ((typed.take (min count 256)).takeWhile (· ≠ 0)), st)
  else match fs.fsReadRawAt entry.path (position.getD entry.offset) count st.files with
    | (none, files) => (.error 5, { st with files })
    | (some bytes, files) => (.ok bytes, if position.isSome then { st with files }
      else { st with files }.seek fd ((entry.offset + bytes.length) % 2 ^ 64))

/-- The end of `linux_write_fd`: the file is read into the image, the data is put into it, and the
image is written. -/
def storeImage (fd : Fin 32) (fileSize count : ℕ) (st : FileState W) : Except ℕ ℕ × FileState W :=
  let entry := st.entry fd
  let (bytes, files) :=
    if fileSize = 0 then (some [], st.files) else fs.fsReadRawAt entry.path 0 fileSize st.files
  let image := overlay st.fileImage 0 (bytes.getD [])
  if bytes.map List.length ≠ some fileSize then (.error 5, { st with files, fileImage := image })
  else
    let image := overlay image fileSize (List.replicate (entry.offset - fileSize) 0)
    let image := overlay image entry.offset ((List.range count).map st.writeData)
    match fs.fsWriteBytes entry.path
        ((List.range (max fileSize (entry.offset + count))).map image) files with
    | (true, files) =>
      (.ok count, { st with files, fileImage := image }.seek fd (entry.offset + count))
    | (false, files) => (.error 13, { st with files, fileImage := image })

/-- `linux_write_fd`. -/
def linuxWriteFd (fd : Fin 32) (buffer count : Word) (st : FileState W) : Except ℕ ℕ × FileState W :=
  let entry := st.entry fd
  let count := min count.toNat userIoLimit
  let data := (List.range count).map (byteAt memory buffer)
  if !entry.writable then (.error 9, st)
  else if count = 0 then (.ok 0, st)
  else if !userRangeAccessible s buffer (.ofNat 64 count) false then (.error 14, st)
  else if entry.isTerminal ∧ (fd = 1 ∨ fd = 2) then
    (.ok count, { st with terminal := st.terminal ++ data })
  else if entry.isDir then (.error 21, st)
  else match fs.fsGetInfo entry.path st.files with
    | (none, files) => (.error 2, { st with files })
    | (some (_, true), files) => (.error 21, { st with files })
    | (some (fileSize, false), files) =>
      let offset := if entry.append then fileSize else entry.offset
      let st := { st with files }.seek fd offset
      if linuxFileIoLimit < offset ∨ linuxFileIoLimit - offset < count ∨
          linuxFileIoLimit < fileSize then (.error 27, st)
      else storeImage fs fd fileSize count { st with writeData := overlay st.writeData 0 data }

/-- A signed result of 64 bits. -/
def int64 (x : ℤ) : Option ℤ := if -2 ^ 63 ≤ x ∧ x < 2 ^ 63 then some x else none

/-- The sum that `lseek` stores, or no sum for `EINVAL`. -/
def seekSum (base displacement : ℤ) : Option (Option ℤ) := do
  let above ← if 0 < displacement then (int64 (2 ^ 63 - 1 - displacement)).map (decide <| · < base)
    else some false
  if above then return none
  let below ← if displacement < 0 then (int64 (-2 ^ 63 - displacement)).map (decide <| base < ·)
    else some false
  if below then return none
  let sum ← int64 (base + displacement)
  return if sum < 0 then none else some sum

/-- The base that `lseek` adds to. -/
def seekBase (fd : Fin 32) (whence : Word) (st : FileState W) : Except ℕ ℕ × FileState W :=
  let entry := st.entry fd
  if whence = 0 then (.ok 0, st)
  else if whence = 1 then (if 2 ^ 63 ≤ entry.offset then .error 75 else .ok entry.offset, st)
  else if whence = 2 then match fs.fsGetInfo entry.path st.files with
    | (none, files) => (.error 22, { st with files })
    | (some (fileSize, _), files) =>
      (if 2 ^ 63 ≤ fileSize then .error 22 else .ok fileSize, { st with files })
  else (.error 22, st)

/-- `LINUX_SYS_LSEEK` on an open descriptor. -/
def linuxLseek (fd : Fin 32) (displacement whence : Word) (st : FileState W) : Outcome W :=
  if (st.entry fd).isTerminal then some (.error 29, st)
  else match seekBase fs fd whence st with
    | (.error number, st) => some (.error number, st)
    | (.ok base, st) => (seekSum base displacement.toInt).map fun
      | none => (.error 22, st)
      | some sum => (.ok sum.toNat, st.seek fd sum.toNat)

/-- A call on a descriptor, if that is open. -/
def FileState.withFd (st : FileState W) (fd : ℕ) (call : Fin 32 → Outcome W) : Outcome W :=
  if h : fd < 32 then if (st.entry ⟨fd, h⟩).isOpen then call ⟨fd, h⟩ else some (.error 9, st)
  else some (.error 9, st)

/-- The calls with their arguments; `open` has the path that `copy_user_string` returns. -/
inductive FileCall
  | openFile (path : Option String) (flags : Word)
  | read (fd : ℕ) (buffer count : Word) (position : Option ℕ) (typed : List UInt8)
  | write (fd : ℕ) (buffer count : Word)
  | lseek (fd : ℕ) (displacement whence : Word)
  | close (fd : ℕ)

/-- The part of `linux_syscall_handler` for these calls. -/
def FileCall.perform (st : FileState W) : FileCall → Outcome W
  | .openFile none _ => some (.error 14, st)
  | .openFile (some path) flags =>
    let (result, context, files) := linuxOpenFile fs.toFileCalls st.context path flags st.files
    some (result.map Fin.val, { st with context, files })
  | .read fd buffer count position typed => st.withFd fd fun fd =>
    let (result, st) := linuxReadFd fs s fd buffer count position typed st
    some (result.map List.length, st)
  | .write fd buffer count => st.withFd fd fun fd => some (linuxWriteFd fs s memory fd buffer count st)
  | .lseek fd displacement whence => st.withFd fd fun fd => linuxLseek fs fd displacement whence st
  | .close fd => st.withFd fd fun fd =>
    some (.ok 0, st.set fd ⟨false, false, false, false, false, false, 0, ""⟩)

section Write

/-- Data put into a file at an offset. The bytes around it are those of the file, and zeros behind
its end. -/
def splice (content : List UInt8) (offset : ℕ) (data : List UInt8) : List UInt8 :=
  (List.range (max content.length (offset + data.length))).map fun i =>
    if offset ≤ i ∧ i < offset + data.length then data.getD (i - offset) 0 else content.getD i 0

/-- A file in a state of the file system: the calls that look at it succeed and change nothing. -/
structure HoldsFile (path : String) (content : List UInt8) (w : W) : Prop where
  info : fs.fsGetInfo path w = (some (content.length, false), w)
  read : fs.fsReadRawAt path 0 content.length w = (some content, w)

/-- The image that is written back is the file with the data put in, whatever the buffers held. -/
theorem image_eq_splice (content data : List UInt8) (offset : ℕ) (image buffer : ℕ → UInt8) :
    (range (max content.length (offset + data.length))).map
      (overlay (overlay (overlay image 0 content) content.length (replicate (offset - content.length) 0)) offset
          ((range data.length).map (overlay buffer 0 data))) = splice content offset data := by
  have hdata : (range data.length).map (overlay buffer 0 data) = data := by
    apply ext_getElem (by simp)
    intro i hi hi'
    simp [overlay, hi']
  rw [hdata]
  apply map_congr_left
  intro i hi
  rw [mem_range] at hi
  rw [overlay]
  split_ifs
  · rfl
  rw [overlay, overlay, length_replicate, Nat.zero_add]
  split_ifs with hgap
  · have hindex : i - content.length < offset - content.length := by omega
    simp [hgap.1, hindex]
  · rfl
  · omega

variable {fs s memory} {fd : Fin 32} {buffer count : Word} {st : FileState W} {content : List UInt8} {w' : W}

/-- Storing data writes the file with the data put in at the offset. -/
theorem storeImage_splices (data : List UInt8) (offset : ℕ) (h : HoldsFile fs (st.entry fd).path content st.files)
    (hwrite : fs.fsWriteBytes (st.entry fd).path (splice content offset data) st.files = (true, w')) :
    ∃ st', storeImage fs fd content.length data.length
        { st.seek fd offset with writeData := overlay st.writeData 0 data } = (.ok data.length, st') ∧
      st'.files = w' ∧ st'.context = (st.seek fd (offset + data.length)).context := by
  have hentry : ({ st.seek fd offset with writeData := overlay st.writeData 0 data } : FileState W).entry fd =
      { st.entry fd with offset } := Function.update_self ..
  have hread : (if content.length = 0 then (some [], st.files)
      else fs.fsReadRawAt (st.entry fd).path 0 content.length st.files) = (some content, st.files) := by
    split_ifs with hempty
    · rw [length_eq_zero_iff.mp hempty]
    · exact h.read
  rw [storeImage, hentry]
  dsimp only [FileState.seek, FileState.set]
  rw [hread]
  rw [if_neg (by simp), Option.getD_some, image_eq_splice, hwrite]
  refine ⟨_, rfl, rfl, ?_⟩
  simp [FileState.entry]

/-- A write to a regular file of at most 64 KiB either fails with `EFBIG` and does no more than move an
append descriptor to the end, or, if the file system writes the file with the data put in, returns how
much that was and moves behind it. -/
theorem write_splices (fs : RawCalls W) (s : Mmu) (memory : Word → UInt8) (fd : Fin 32) (buffer count : Word)
    (st : FileState W) (content : List UInt8) (hfile : HoldsFile fs (st.entry fd).path content st.files)
    (hsize : content.length ≤ linuxFileIoLimit) (hopen : (st.entry fd).isOpen = true)
    (hwritable : (st.entry fd).writable = true)
    (hregular : (st.entry fd).isTerminal = false ∧ (st.entry fd).isDir = false) (hcount : count ≠ 0)
    (haccess : userRangeAccessible s buffer (.ofNat 64 (min count.toNat userIoLimit)) false = true) :
    let offset := if (st.entry fd).append then content.length else (st.entry fd).offset
    let data := (List.range (min count.toNat userIoLimit)).map (byteAt memory buffer)
    linuxFileIoLimit < offset + data.length ∧
        FileCall.perform fs s memory st (.write fd buffer count) = some (.error 27, st.seek fd offset) ∨
      ∀ w', fs.fsWriteBytes (st.entry fd).path (splice content offset data) st.files = (true, w') →
        ∃ st', FileCall.perform fs s memory st (.write fd buffer count) = some (.ok data.length, st') ∧
          st'.files = w' ∧ st'.context = (st.seek fd (offset + data.length)).context := by
  intro offset data
  have hlength : data.length = min count.toNat userIoLimit := by rw [length_map, length_range]
  have hpos : min count.toNat userIoLimit ≠ 0 := by
    have hne := BitVec.toNat_ne_iff_ne.mpr hcount
    rw [userIoLimit]
    simp at hne ⊢
    omega
  have hcall : FileCall.perform fs s memory st (.write fd buffer count) = some
      (if linuxFileIoLimit < offset ∨ linuxFileIoLimit - offset < data.length then
        (.error 27, st.seek fd offset)
      else storeImage fs fd content.length data.length
        { st.seek fd offset with writeData := overlay st.writeData 0 data }) := by
    have hinfo := hfile.info
    rw [FileCall.perform, FileState.withFd, dif_pos fd.isLt, if_pos hopen, linuxWriteFd]
    simp only [hwritable, hregular.1, hregular.2, haccess, hinfo, Bool.not_true, Bool.false_eq_true,
      if_false, if_neg hpos, false_and, not_lt.mpr hsize, or_false, hlength]
    rfl
  split_ifs at hcall
  · exact Or.inl ⟨by omega, hcall⟩
  refine Or.inr fun w' hwrite => ?_
  obtain ⟨st', hstore, hdone⟩ := storeImage_splices data offset hfile hwrite
  rw [hstore] at hcall
  exact ⟨st', hcall, hdone⟩

/-- A file system that holds one file. -/
def oneFile : RawCalls (List UInt8) where
  fsGetInfo _ content := (some (content.length, false), content)
  fsCreate _ content := (true, content)
  fsWriteBytes _ data _ := (true, data)
  fsReadRawAt _ offset count content := (some ((content.drop offset).take count), content)

/-- The file holds `a`, and the buffers hold other bytes; the descriptors stand behind its end. -/
def behindEnd : FileState (List UInt8) :=
  ⟨⟨fun _ => ⟨true, true, true, false, false, false, 3, "f"⟩, 0, 0, 0⟩, fun _ => 9, fun _ => 9, [], [97]⟩

/-- Two bytes written behind the end of a file leave zeros before them. -/
theorem write_splices_gap : ∃ st', FileCall.perform oneFile ⟨fun _ _ => 7, 0, 0, 0, 0, false, false⟩
      (fun _ => 98) behindEnd (.write 4 0x2000 2) = some (.ok 2, st') ∧
    st'.files = [97, 0, 0, 98, 98] := by
  have haccess : userRangeAccessible ⟨fun _ _ => 7, 0, 0, 0, 0, false, false⟩ 0x2000
      (.ofNat 64 (min (2 : Word).toNat userIoLimit)) false = true := by
    decide +kernel
  rcases write_splices oneFile _ (fun _ => 98) 4 0x2000 2 behindEnd [97] ⟨rfl, rfl⟩ (by decide) rfl rfl
    ⟨rfl, rfl⟩ (by decide) haccess with ⟨hbig, -⟩ | hdone
  · contradiction
  · obtain ⟨st', hcall, hfiles, -⟩ := hdone _ rfl
    exact ⟨st', hcall, hfiles⟩

end Write

end Windoge.Kernel
