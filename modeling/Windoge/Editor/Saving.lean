import Windoge.Lib.Components
import Windoge.Vi.Safety

/-!
# Saving what dogeedit loaded

The editor keeps 255 characters of a line and drops the others when it loads a file, and it saves with a
write that ends at the first NUL. So a file comes back exactly if its lines are short and it holds no NUL.
-/

namespace Windoge.Editor

open Script (Text)
open Components List

variable {World : Type*}

/-- The file operations of the editor; it writes text. -/
structure Files (World : Type*) extends Vi.Files World where
  writeFile : Text → Text → World → ℤ × World

/-- The lines of the editor and the file they belong to. -/
structure Document where
  lines : List Text
  currentFilename : Text

/-- `MAX_LINES`. -/
def maxLines : ℕ := 4096

/-- `MAX_LINE_LEN`. -/
def maxLineLen : ℕ := 256

/-- `MAX_FILE_SIZE`. -/
def maxFileSize : ℕ := 65536

/-- The loop of `load_file_from_disk` over the bytes of the file, with the line that is open. -/
def loadLines : Text → Text → List Text
  | [], line => [line]
  | ch :: rest, line =>
    if ch = 13 then loadLines rest line
    else if ch = 10 then line :: loadLines rest []
    else if line.length < maxLineLen - 1 then loadLines rest (line ++ [ch])
    else loadLines rest line

/-- The document of the bytes of a file. There are as many lines as were counted before, so the loop never
runs out of lines. -/
def loadBytes (filename bytes : Text) : Option Document :=
  if bytes.count 10 + 1 > maxLines then none else some ⟨loadLines bytes [], filename⟩

/-- `load_file_from_disk`; without a document it returns false and leaves the old one. -/
def loadFileFromDisk (files : Files World) (filename : Text) (world : World) : Option Document × World :=
  if filename = [] ∨ filename.length ≥ 128 then (none, world)
  else
    let (found, world) := files.fileExists filename world
    if found = 1 then
      let (answer, size, world) := files.stat filename world
      if answer < 0 ∨ size > maxFileSize then (none, world)
      else
        let (count, buffer, world) := files.readFile filename maxFileSize world
        if count < 0 then (none, world) else (loadBytes filename ((range count.toNat).map buffer), world)
    else (loadBytes filename [], world)

/-- The loop of `save_file_to_disk` over the lines: the bytes behind those gathered, if they fit. -/
def gatherLines : List Text → Text → Option Text
  | [], out => some out
  | line :: lines, out =>
    if out.length + line.length > maxFileSize then none
    else if lines = [] then some (out ++ line)
    else if (out ++ line).length ≥ maxFileSize then none
    else gatherLines lines (out ++ line ++ [10])

/-- `save_file_to_disk`. -/
def saveFileToDisk (files : Files World) (doc : Document) (world : World) : Bool × World :=
  match gatherLines doc.lines [] with
  | none => (false, world)
  | some bytes =>
    let (found, world) := files.fileExists doc.currentFilename world
    let (created, world) := if found ≠ 1 then files.createFile doc.currentFilename world else (0, world)
    if created < 0 then (false, world)
    else
      let (answer, world) := files.writeFile doc.currentFilename (bytes.takeWhile (· ≠ 0)) world
      (decide (0 ≤ answer), world)

/-- The characters of a line that stays open are put behind those before, as far as there is room. -/
theorem loadLines_append {line part rest : Text} (hpart : ∀ ch ∈ part, ch ≠ 13 ∧ ch ≠ 10)
    (hline : line.length ≤ 255) : loadLines (part ++ rest) line = loadLines rest ((line ++ part).take 255) := by
  induction part generalizing line with
  | nil => rw [append_nil, take_of_length_le hline, nil_append]
  | cons ch part ih =>
    obtain ⟨hreturn, hnewline⟩ := hpart ch mem_cons_self
    have hrest := (forall_mem_cons.mp hpart).2
    rw [cons_append, loadLines, if_neg hreturn, if_neg hnewline, maxLineLen]
    split_ifs
    · rw [ih hrest (by rw [length_append, length_singleton]; omega), append_assoc, singleton_append]
    · rw [ih hrest hline, take_append_of_le_length (by omega), take_append_of_le_length (by omega)]

/-- Every line is cut. -/
theorem loadLines_eq {lines : List Text} (hne : lines ≠ []) (hlines : ∀ line ∈ lines, 10 ∉ line)
    (hreturn : 13 ∉ [10].intercalate lines) :
    loadLines ([10].intercalate lines) [] = lines.map (take 255) := by
  induction lines with
  | nil => exact absurd rfl hne
  | cons line lines ih =>
    have hclean (h : 13 ∉ line) (ch : UInt8) (hch : ch ∈ line) : ch ≠ 13 ∧ ch ≠ 10 :=
      ⟨ne_of_mem_of_not_mem hch h, ne_of_mem_of_not_mem hch (hlines line mem_cons_self)⟩
    cases lines with
    | nil =>
      rw [intercalate_singleton] at hreturn ⊢
      rw [← append_nil line, loadLines_append (hclean hreturn) zero_le, append_nil]
      rfl
    | cons next lines =>
      rw [intercalate_cons_cons, append_assoc, mem_append, mem_append, not_or, not_or] at hreturn
      rw [intercalate_cons_cons, append_assoc, loadLines_append (hclean hreturn.1) zero_le,
        singleton_append, loadLines, if_neg (by decide), if_pos rfl,
        ih (cons_ne_nil _ _) (fun line hline => hlines line (mem_cons_of_mem _ hline)) hreturn.2.2]
      rfl

theorem length_intercalate_take (lines : List Text) :
    ([10].intercalate (lines.map (take 255))).length ≤ ([10].intercalate lines).length := by
  induction lines with
  | nil => exact le_rfl
  | cons line lines ih =>
    cases lines with
    | nil =>
      rw [map_singleton, intercalate_singleton, intercalate_singleton]
      exact length_take_le' _ _
    | cons next lines =>
      rw [map_cons, map_cons, intercalate_cons_cons, intercalate_cons_cons, length_append, length_append,
        length_append, length_append]
      exact Nat.add_le_add (Nat.add_le_add_right (length_take_le' _ _) _) ih

theorem gatherLines_eq {lines : List Text} {out : Text}
    (hfits : (out ++ [10].intercalate lines).length ≤ maxFileSize) :
    gatherLines lines out = some (out ++ [10].intercalate lines) := by
  induction lines generalizing out with
  | nil => rw [gatherLines, intercalate_nil, append_nil]
  | cons line lines ih =>
    rw [gatherLines]
    cases lines with
    | nil =>
      rw [intercalate_singleton, length_append] at hfits
      rw [if_neg (Nat.not_lt.mpr hfits), if_pos rfl, intercalate_singleton]
    | cons next lines =>
      rw [intercalate_cons_cons, ← append_assoc, ← append_assoc] at hfits ⊢
      have hroom := hfits
      simp only [length_append, length_singleton] at hroom
      rw [if_neg (by omega), if_neg (cons_ne_nil _ _), if_neg (by rw [length_append]; omega), ih hfits]

/-- The lines as they were cut, up to a NUL, are the file exactly if it holds none and nothing was cut. -/
theorem written_iff (content : Text) :
    ([10].intercalate ((content.splitOn 10).map (take 255))).takeWhile (· ≠ 0) = content ↔
      0 ∉ content ∧ ∀ line ∈ content.splitOn 10, line.length < maxLineLen := by
  have hlength := length_intercalate_take (content.splitOn 10)
  rw [intercalate_splitOn] at hlength
  constructor
  · intro h
    have hwhole := IsPrefix.eq_of_length_le (by exact takeWhile_prefix _) (hlength.trans (congrArg length h).ge)
    have hlines := congrArg (splitOn 10) (hwhole.symm.trans h)
    rw [splitOn_intercalate 10 ?_ (by simp)] at hlines
    · refine ⟨fun hzero => ?_, fun line hline => ?_⟩
      · rw [← h] at hzero
        simpa using mem_takeWhile_imp hzero
      · have hkept := map_inj_left.mp (hlines.trans (map_id _).symm) line hline
        exact Nat.lt_succ_of_le ((congrArg length hkept).ge.trans (length_take_le 255 line))
    · rintro _ hcut hnewline
      obtain ⟨line, hline, rfl⟩ := mem_map.mp hcut
      exact not_mem_of_mem_splitOn hline (mem_of_mem_take hnewline)
  · rintro ⟨hzero, hshort⟩
    have hlines : (content.splitOn 10).map (take 255) = content.splitOn 10 :=
      (map_congr_left fun line hline => take_of_length_le (Nat.le_of_lt_succ (hshort line hline))).trans
        (map_id _)
    rw [hlines, intercalate_splitOn, takeWhile_eq_self_iff]
    exact fun ch hch => by simpa using ne_of_mem_of_not_mem hch hzero

/-- Saving writes the bytes gathered up to a NUL, in a world where the file is there. -/
theorem saveFileToDisk_writes {files : Files World} {doc : Document} {bytes : Text} (world : World)
    (hgathered : gatherLines doc.lines [] = some bytes)
    (hcreate : ∀ world, 0 ≤ (files.createFile doc.currentFilename world).1) :
    ∃ ready, saveFileToDisk files doc world =
      (decide (0 ≤ (files.writeFile doc.currentFilename (bytes.takeWhile (· ≠ 0)) ready).1),
        (files.writeFile doc.currentFilename (bytes.takeWhile (· ≠ 0)) ready).2) := by
  simp only [saveFileToDisk, hgathered]
  split_ifs with hfound hfailed hfailed
  · exact absurd (hcreate _) (Int.not_le.mpr hfailed)
  · exact ⟨_, rfl⟩
  · exact absurd hfailed (lt_irrefl 0)
  · exact ⟨_, rfl⟩

/-- Saving what was loaded writes the file back exactly if it holds no NUL and every line fits. -/
theorem saved_bytes_iff {files : Files World} {stored : World → Text} {filename : Text} {doc : Document}
    {world world' : World} (hload : loadFileFromDisk files filename world = (some doc, world'))
    (hexists : (files.fileExists filename world).1 = 1) (hreturn : 13 ∉ files.content filename world)
    (hread : (files.content filename world).length ≤ maxFileSize)
    (hcreate : ∀ world, 0 ≤ (files.createFile filename world).1)
    (hwrite : ∀ text world, 0 ≤ (files.writeFile filename text world).1 ∧
      stored (files.writeFile filename text world).2 = text) :
    (saveFileToDisk files doc world').1 = true ∧
      (stored (saveFileToDisk files doc world').2 = files.content filename world ↔
        0 ∉ files.content filename world ∧
          ∀ line ∈ (files.content filename world).splitOn 10, line.length < maxLineLen) := by
  have hdoc : doc = ⟨loadLines (files.content filename world) [], filename⟩ := by
    simp only [loadFileFromDisk, hexists] at hload
    split_ifs at hload
    · cases hload
    · cases hload
    · cases hload
    · have hbytes := (Prod.mk.inj hload).1
      unfold loadBytes at hbytes
      split_ifs at hbytes
      exact (Option.some.inj hbytes).symm
  subst hdoc
  have hlines := loadLines_eq (splitOn_ne_nil 10 (files.content filename world))
    (fun _ => not_mem_of_mem_splitOn) (by rwa [intercalate_splitOn])
  have hlength := length_intercalate_take ((files.content filename world).splitOn 10)
  rw [intercalate_splitOn] at hlines hlength
  have hgathered := @gatherLines_eq _ [] (hlength.trans hread)
  rw [← hlines] at hgathered
  obtain ⟨ready, hsave⟩ := @saveFileToDisk_writes _ _ ⟨_, filename⟩ _ world' hgathered hcreate
  rw [hsave, nil_append, hlines]
  refine ⟨decide_eq_true (hwrite _ ready).1, ?_⟩
  rw [(hwrite _ ready).2]
  exact written_iff _

/-- One file, whose bytes are the world. -/
def oneFile : Files Text := { Vi.oneFile with writeFile := fun _ text _ => (0, text) }

/-- A short file comes back, with its missing newline at the end. -/
theorem saved_bytes_iff_short :
    (saveFileToDisk oneFile ⟨loadLines [98, 10, 10, 97] [], [97]⟩ [98, 10, 10, 97]).2 = [98, 10, 10, 97] :=
  (@saved_bytes_iff Text oneFile id [97] _ [98, 10, 10, 97] _ rfl rfl (by decide) (by decide)
    (fun _ => le_rfl) fun _ _ => ⟨le_rfl, rfl⟩).2.mpr ⟨by decide, by decide⟩

/-- A file with a NUL is accepted and ends before it when it is saved. -/
theorem nul_ends_file : loadFileFromDisk oneFile [97] [98, 0, 99] = (some ⟨[[98, 0, 99]], [97]⟩, [98, 0, 99]) ∧
    saveFileToDisk oneFile ⟨[[98, 0, 99]], [97]⟩ [98, 0, 99] = (true, [98]) :=
  ⟨rfl, rfl⟩

end Windoge.Editor
