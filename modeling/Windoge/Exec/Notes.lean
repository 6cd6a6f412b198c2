import Windoge.Exec.Pages

/-!
# The scan for the Linux ABI

`elf_uses_linux_abi` walks the notes of the note segments. Sizes of names and descriptors are
taken from the file as they are, so that each round of the loop is also written with checked
subtractions and with reads that are refused outside the segment: no check ever fails.
-/

namespace Windoge.Exec

open LittleEndian List

variable (fs : FileReads) (filename : List UInt8) (content : ℕ → UInt8) (phdr : Phdr)

/-- A subtraction that must not wrap. -/
def checkedSub (a b : ℕ) : Option ℕ := if b ≤ a then some (a - b) else none

/-- A read that must not leave the segment. -/
def Phdr.checkedRead (offset count : ℕ) : Option (List UInt8) :=
  if phdr.offset ≤ offset ∧ offset + count ≤ phdr.offset + phdr.filesz then
    some ((fs.fsReadRawAt filename offset count).getD [])
  else none

/-- One round of the loop over notes, with its checks; it ends the scan with a result or goes on at a
cursor. -/
def noteRound (cursor : ℕ) : Option (Bool ⊕ ℕ) := do
  if phdr.filesz < cursor then return .inl false
  if (← checkedSub phdr.filesz cursor) < 12 then return .inl false
  let note ← phdr.checkedRead fs filename (phdr.offset + cursor) 12
  if note.length ≠ 12 then return .inl false
  let start := cursor + 12
  let nameSize := (field note 0 4 + 3) / 4 * 4
  let descSize := (field note 4 4 + 3) / 4 * 4
  let left ← checkedSub phdr.filesz start
  if left < nameSize then return .inl false
  if (← checkedSub left nameSize) < descSize then return .inl false
  if field note 8 4 = 1 ∧ field note 0 4 = 4 ∧ 4 ≤ field note 4 4 then
    let name ← phdr.checkedRead fs filename (phdr.offset + start) 4
    if name.length ≠ 4 then return .inl false
    if name = [0x47, 0x4E, 0x55, 0] then
      let os ← phdr.checkedRead fs filename (phdr.offset + start + nameSize) 4
      if os.length ≠ 4 then return .inl false
      if decode os = 0 then return .inl true
  return .inr (start + (nameSize + descSize))

/-- Where the note at a cursor ends, with its name and its descriptor padded. -/
def noteEnd (cursor : ℕ) : ℕ :=
  let note := slice content (phdr.offset + cursor) 12
  cursor + 12 + ((field note 0 4 + 3) / 4 * 4 + (field note 4 4 + 3) / 4 * 4)

/-- The well-formed notes from a cursor on: each ends inside the segment, and so do those before it. -/
inductive NoteFrom : ℕ → ℕ → Prop
  | here {cursor : ℕ} : noteEnd content phdr cursor ≤ phdr.filesz → NoteFrom cursor cursor
  | later {cursor c : ℕ} : noteEnd content phdr cursor ≤ phdr.filesz →
    NoteFrom (noteEnd content phdr cursor) c → NoteFrom cursor c

/-- A note of type 1 whose name is GNU and whose descriptor starts with the word 0. -/
def LinuxNote (cursor : ℕ) : Prop :=
  let note := slice content (phdr.offset + cursor) 12
  field note 8 4 = 1 ∧ field note 0 4 = 4 ∧ 4 ≤ field note 4 4 ∧
    slice content (phdr.offset + (cursor + 12)) 4 = [0x47, 0x4E, 0x55, 0] ∧
    decode (slice content (phdr.offset + (cursor + 12) + 4) 4) = 0

/-- No check of a round fails, and the scan is the iteration of its rounds. -/
theorem noteRound_runs (cursor : ℕ) :
    ∃ r, noteRound fs filename phdr cursor = some r ∧
      noteUsesLinuxAbi fs filename phdr cursor = r.elim id (noteUsesLinuxAbi fs filename phdr) ∧
      ∀ next, r = .inr next → cursor < next ∧ next ≤ phdr.filesz := by
  have hsub {a b : ℕ} (h : b ≤ a) : checkedSub a b = some (a - b) := if_pos h
  have hbind {α : Type} (a : α) (f : α → Option (Bool ⊕ ℕ)) : (some a >>= f) = f a := rfl
  rw [noteUsesLinuxAbi, noteRound]
  by_cases hroom : cursor ≤ phdr.filesz ∧ 12 ≤ phdr.filesz - cursor
  · have hread {offset count : ℕ} (h : offset + count ≤ phdr.filesz) :
        phdr.checkedRead fs filename (phdr.offset + offset) count =
          some ((fs.fsReadRawAt filename (phdr.offset + offset) count).getD []) := if_pos (by omega)
    rw [if_pos hroom, if_neg (Nat.not_lt.mpr hroom.1), hsub hroom.1, hbind, if_neg (Nat.not_lt.mpr hroom.2),
      hread (by omega : cursor + 12 ≤ _), hbind]
    generalize (fs.fsReadRawAt filename (phdr.offset + cursor) 12).getD [] = note
    dsimp only
    generalize hdescSize : (field note 4 4 + 3) / 4 * 4 = descSize
    generalize hnameSize : (field note 0 4 + 3) / 4 * 4 = nameSize
    rw [hsub (by omega : cursor + 12 ≤ phdr.filesz), hbind]
    by_cases hbad : note.length ≠ 12 ∨ phdr.filesz - (cursor + 12) < nameSize ∨
        phdr.filesz - (cursor + 12) - nameSize < descSize
    · refine ⟨.inl false, ?_, by rw [if_pos hbad]; rfl, nofun⟩
      by_cases hlength : note.length ≠ 12
      · exact if_pos hlength
      rw [if_neg hlength]
      by_cases hlong : phdr.filesz - (cursor + 12) < nameSize
      · exact if_pos hlong
      rw [if_neg hlong, hsub (Nat.not_lt.mp hlong), hbind]
      exact if_pos ((hbad.resolve_left hlength).resolve_left hlong)
    rw [if_neg hbad]
    obtain ⟨hlength, hlong, hdesc⟩ := not_or.mp hbad |>.imp_right not_or.mp
    rw [if_neg hlength, if_neg hlong, hsub (Nat.not_lt.mp hlong), hbind, if_neg hdesc]
    have hgo : ∀ next, (.inr (cursor + 12 + (nameSize + descSize)) : Bool ⊕ ℕ) = .inr next →
        cursor < next ∧ next ≤ phdr.filesz := by
      rintro _ ⟨⟩
      omega
    by_cases hkind : field note 8 4 = 1 ∧ field note 0 4 = 4 ∧ 4 ≤ field note 4 4
    · have hos := hread (by omega : cursor + 12 + nameSize + 4 ≤ phdr.filesz)
      rw [← add_assoc] at hos
      rw [if_pos hkind, if_pos hkind, hread (by omega), hbind, hos, hbind]
      split_ifs
      all_goals first | exact ⟨_, rfl, rfl, hgo⟩ | exact ⟨_, rfl, rfl, nofun⟩
    · rw [if_neg hkind, if_neg hkind]
      exact ⟨_, rfl, rfl, hgo⟩
  · refine ⟨.inl false, ?_, by rw [if_neg hroom]; rfl, nofun⟩
    split_ifs with hpast
    · rfl
    · rw [hsub (Nat.not_lt.mp hpast), hbind]
      exact if_pos (by omega)

/-- Reads inside a file return its bytes. -/
def ExactReads (size : ℕ) : Prop :=
  ∀ offset count, offset + count ≤ size →
    fs.fsReadRawAt filename offset count = some (slice content offset count)

section Exact

variable {fs filename content phdr} {size : ℕ} (hreads : ExactReads fs filename content size)
  (hin : phdr.offset + phdr.filesz ≤ size)

include hreads hin

/-- With exact reads a scan finds the note at its cursor or goes on behind it, if it is well formed. -/
theorem noteUsesLinuxAbi_eq (cursor : ℕ) : noteUsesLinuxAbi fs filename phdr cursor = true ↔
    noteEnd content phdr cursor ≤ phdr.filesz ∧ (LinuxNote content phdr cursor ∨
      noteUsesLinuxAbi fs filename phdr (noteEnd content phdr cursor) = true) := by
  have hread {offset count : ℕ} (h : offset + count ≤ phdr.filesz) :
      fs.fsReadRawAt filename (phdr.offset + offset) count =
        some (slice content (phdr.offset + offset) count) := hreads _ _ (by omega)
  have hend : cursor + 12 ≤ noteEnd content phdr cursor := le_self_add
  rw [noteUsesLinuxAbi]
  by_cases hroom : cursor ≤ phdr.filesz ∧ 12 ≤ phdr.filesz - cursor
  · rw [if_pos hroom, hread (by omega : cursor + 12 ≤ _), Option.getD_some, LinuxNote, noteEnd]
    dsimp only
    rw [slice_length]
    generalize slice content (phdr.offset + cursor) 12 = note
    generalize hdescSize : (field note 4 4 + 3) / 4 * 4 = descSize
    generalize hnameSize : (field note 0 4 + 3) / 4 * 4 = nameSize
    by_cases hfits : cursor + 12 + (nameSize + descSize) ≤ phdr.filesz
    · rw [if_neg (by omega), and_iff_right hfits]
      by_cases hkind : field note 8 4 = 1 ∧ field note 0 4 = 4 ∧ 4 ≤ field note 4 4
      · have hos := hread (by omega : cursor + 12 + nameSize + 4 ≤ phdr.filesz)
        obtain rfl : nameSize = 4 := by omega
        rw [← add_assoc] at hos
        rw [if_pos hkind, hread (by omega), hos]
        split_ifs <;> simp_all
      · rw [if_neg hkind, or_iff_right fun h => hkind ⟨h.1, h.2.1, h.2.2.1⟩]
    · rw [if_pos (by omega)]
      simp [hfits]
  · rw [if_neg hroom]
    exact iff_of_false nofun fun h => hroom (by omega)

/-- With exact reads a scan finds a well-formed note for Linux if there is one. -/
theorem noteUsesLinuxAbi_iff (cursor : ℕ) : noteUsesLinuxAbi fs filename phdr cursor = true ↔
    ∃ c, NoteFrom content phdr cursor c ∧ LinuxNote content phdr c := by
  induction hleft : phdr.filesz - cursor using Nat.strongRecOn generalizing cursor with
  | ind left ih =>
    have hend : cursor + 12 ≤ noteEnd content phdr cursor := le_self_add
    rw [noteUsesLinuxAbi_eq hreads hin]
    constructor
    · rintro ⟨hfits, hhere | hlater⟩
      · exact ⟨cursor, .here hfits, hhere⟩
      · obtain ⟨c, hfrom, hnote⟩ := (ih _ (by omega) _ rfl).mp hlater
        exact ⟨c, .later hfits hfrom, hnote⟩
    · rintro ⟨c, hfrom, hnote⟩
      cases hfrom with
      | here hfits => exact ⟨hfits, .inl hnote⟩
      | later hfits hlater => exact ⟨hfits, .inr ((ih _ (by omega) _ rfl).mpr ⟨c, hlater, hnote⟩)⟩

end Exact

/-- The rounds of `elf_uses_linux_abi` pass their checks, and with exact reads it finds the Linux ABI where
the file says so. -/
theorem elf_uses_linux_abi_spec (size : ℕ) (ehdr : Ehdr) (phdrs : List Phdr)
    (hreads : ExactReads fs filename content size) :
    (∀ phdr cursor, ∃ r, noteRound fs filename phdr cursor = some r ∧
      noteUsesLinuxAbi fs filename phdr cursor = r.elim id (noteUsesLinuxAbi fs filename phdr) ∧
      ∀ next, r = .inr next → cursor < next ∧ next ≤ phdr.filesz) ∧
    (elfUsesLinuxAbi fs filename ehdr phdrs size = true ↔ ehdr.ident[7]? = some 3 ∨
      ∃ phdr ∈ phdrs, phdr.type = ptNote ∧ phdr.offset + phdr.filesz ≤ size ∧
        ∃ c, NoteFrom content phdr 0 c ∧ LinuxNote content phdr c) := by
  refine ⟨noteRound_runs fs filename, ?_⟩
  rw [elfUsesLinuxAbi, Bool.or_eq_true, decide_eq_true_eq, any_eq_true]
  refine or_congr_right (exists_congr fun phdr => and_congr_right fun _ => ?_)
  rw [Bool.and_eq_true, decide_eq_true_eq]
  constructor
  · rintro ⟨⟨htype, hoffset, hfilesz⟩, hfound⟩
    exact ⟨htype, by omega, (noteUsesLinuxAbi_iff hreads (by omega) 0).mp hfound⟩
  · rintro ⟨htype, hinside, hnote⟩
    exact ⟨⟨htype, by omega, by omega⟩, (noteUsesLinuxAbi_iff hreads hinside 0).mpr hnote⟩

/-- A file that is one note of the kind. -/
def gnuNote (i : ℕ) : UInt8 := [4, 0, 0, 0, 4, 0, 0, 0, 1, 0, 0, 0, 0x47, 0x4E, 0x55].getD i 0

/-- The note is found. -/
theorem gnu_note_found : elfUsesLinuxAbi
    ⟨fun _ => true, fun _ offset count => some (slice gnuNote offset count)⟩ []
    ⟨[], 0, 0, 0, 0, 0, 0, 0, 1⟩ [⟨ptNote, 0, 0, 0, 20, 0, 0⟩] 20 = true :=
  (elf_uses_linux_abi_spec _ _ gnuNote _ _ _ fun _ _ _ => rfl).2.mpr (.inr ⟨_, mem_singleton_self _, rfl,
    by decide, 0, .here (by decide), by decide, by decide, by decide, by decide, by decide⟩)

end Windoge.Exec
