import Windoge.Vi.Bounds

/-!
# The limits hold in every session

A file that is accepted fits into the arrays and into a file again, every key keeps the limits, and
so the document can be saved at any time.
-/

namespace Windoge.Vi

open Script (Text text)
open Shifting List Buffer NormalCommand

variable {World : Type*} {b : Buffer} {e : Editor}

/-! ## Loading -/

/-- The lengths of the lines before the last, added up. -/
def Buffer.totalBefore (b : Buffer) : ℕ :=
  ∑ row ∈ Finset.range (b.lineCount - 1), (b.rows row).length

/-- The bytes of a line. -/
def Row.text (r : Row) : Text := (range r.length).map r.bytes

/-- The bytes of the lines before a row, each with its newline. -/
def Buffer.before (b : Buffer) (row : ℕ) : Text := (range row).flatMap fun row => (b.rows row).text ++ [10]

/-- The bytes of the lines, with newlines between them. -/
def Buffer.flat (b : Buffer) : Text := b.before (b.lineCount - 1) ++ (b.rows (b.lineCount - 1)).text

/-- The lines while a file is loaded: the last one is still open at a column, and what is there
comes from the bytes that were read. -/
structure Buffer.Loading (b : Buffer) (column consumed : ℕ) : Prop where
  count_pos : 1 ≤ b.lineCount
  count_le : b.lineCount ≤ 2048
  terminated : ∀ row, row + 1 < b.lineCount → (b.rows row).Terminated
  column_le : column ≤ 255
  consumed_le : b.lineCount - 1 + b.totalBefore + column ≤ consumed

theorem Buffer.totalBefore_setRow {row : ℕ} (hrow : b.lineCount ≤ row + 1) (r : Row) :
    (b.setRow row r).totalBefore = b.totalBefore :=
  Finset.sum_congr rfl fun other hother => by
    rw [Finset.mem_range] at hother
    rw [setRow_of_ne b (by omega)]

variable {s : Editor × World} {consumed column : ℕ}

section

variable (h : b.Loading column consumed)
include h

/-- The lines with the last one ended at its column. -/
theorem Buffer.Loading.endLine :
    (∀ row < (b.endLine column).lineCount, ((b.endLine column).rows row).Terminated) ∧
      (b.endLine column).total = b.totalBefore + column := by
  have hpos := h.count_pos
  constructor
  · intro row hrow
    change row < b.lineCount at hrow
    rw [Buffer.endLine]
    by_cases hlast : row = b.lineCount - 1
    · rw [hlast, setRow_self]
      exact Row.Terminated.cut h.column_le
    · rw [setRow_of_ne b hlast]
      exact h.terminated row (by omega)
  · have hbefore := totalBefore_setRow (show b.lineCount ≤ b.lineCount - 1 + 1 by omega)
      ((b.rows (b.lineCount - 1)).cut column)
    have hsplit := Finset.sum_range_succ (fun row => ((b.endLine column).rows row).length) (b.lineCount - 1)
    rw [Nat.sub_add_cancel hpos] at hsplit
    have hlast : ((b.endLine column).rows (b.lineCount - 1)).length = column :=
      congrArg Row.length (setRow_self _ _ _)
    rw [hlast] at hsplit
    exact hsplit.trans (congrArg (· + column) hbefore)

/-- A newline ends the last line and begins another one. -/
theorem Buffer.Loading.nextLine (hcount : b.lineCount < 2048) :
    (b.endLine column).nextLine.Loading 0 (consumed + 1) := by
  obtain ⟨hterminated, htotal⟩ := h.endLine
  have hconsumed := h.consumed_le
  have hrows : ∀ row < b.lineCount,
      (b.endLine column).nextLine.rows row = (b.endLine column).rows row := fun row hrow =>
    setRow_of_ne (b.endLine column) (ne_of_lt hrow) _
  refine ⟨Nat.le_add_left _ _, hcount, ?_, zero_le, ?_⟩
  · intro row hrow
    have hlt := Nat.lt_of_succ_lt_succ hrow
    rw [hrows row hlt]
    exact hterminated row hlt
  · have hkept : (b.endLine column).nextLine.totalBefore = (b.endLine column).total :=
      Finset.sum_congr rfl fun row hrow => by rw [hrows row (Finset.mem_range.mp hrow)]
    rw [hkept, htotal]
    change b.lineCount + 1 - 1 + (b.totalBefore + column) + 0 ≤ consumed + 1
    omega

/-- A character goes to the last line. -/
theorem Buffer.Loading.character (hcolumn : column < 255) (r : Row) :
    (b.setRow (b.lineCount - 1) r).Loading (column + 1) (consumed + 1) := by
  have hconsumed := h.consumed_le
  refine ⟨h.count_pos, h.count_le, ?_, hcolumn, ?_⟩
  · intro row hrow
    change row + 1 < b.lineCount at hrow
    rw [setRow_of_ne b (by omega)]
    exact h.terminated row hrow
  · rw [totalBefore_setRow (by omega)]
    change b.lineCount - 1 + b.totalBefore + (column + 1) ≤ consumed + 1
    omega

/-- A byte of the file keeps the lines within what was read. -/
theorem loadBytes_loading {bytes : Text} {final : Buffer} {last : ℕ}
    (hload : loadBytes bytes b column = .ok (final, last)) :
    final.Loading last (consumed + bytes.length) := by
  induction bytes generalizing b column consumed with
  | nil =>
    cases hload
    exact h
  | cons character rest ih =>
    have hpos := h.count_pos
    have hconsumed := h.consumed_le
    rw [length_cons, add_comm rest.length, ← add_assoc]
    rw [loadBytes] at hload
    split_ifs at hload with hreturn hnewline hmany hlong
    · exact ih ⟨hpos, h.count_le, h.terminated, h.column_le, by omega⟩ hload
    · exact ih (h.nextLine (lt_of_not_ge hmany)) hload
    · exact ih (h.character (lt_of_not_ge hlong) _) hload

end

theorem Buffer.reset_sized (b : Buffer) : b.reset.Sized := by
  have hrow : b.reset.rows 0 = (b.rows 0).cleared := by simp only [reset, Function.update_self]
  exact sized_of_empty rfl (congrArg Row.length hrow)
    ((congrFun (congrArg Row.bytes hrow) 0).trans (Row.cleared_terminated _).2)

/-- The document of a loaded file is within the limits. -/
theorem loaded_bounded {bytes : Text} (hbytes : bytes.length ≤ 65536) {final : Buffer} {last : ℕ}
    (hload : loadBytes bytes b.reset 0 = .ok (final, last)) :
    ((final.endLine last).moveTo 0 0).Bounded := by
  have hstart : b.reset.Loading 0 0 := ⟨le_rfl, show 1 ≤ 2048 by decide, fun row hrow => absurd hrow (not_lt_of_ge
      (Nat.le_add_left 1 row)), zero_le, le_rfl⟩
  have hloading := loadBytes_loading hstart hload
  obtain ⟨hterminated, htotal⟩ := hloading.endLine
  have hconsumed := hloading.consumed_le
  have hsized : (final.endLine last).Sized := by
    refine ⟨hloading.count_pos, hloading.count_le, hterminated, ?_⟩
    rw [viDocumentSize_eq, htotal]
    change final.lineCount - 1 + _ ≤ 65536
    omega
  exact hsized.moveTo hloading.count_pos zero_le

theorem Editor.Bounded.loadFile (files : Files World) {filename : Text} {world : World}
    (hyank : e.yankValid = false) {loaded : Editor} {after : World}
    (h : viLoadFile files filename e world = (true, loaded, after)) : loaded.Bounded := by
  have hreset : e.doc.reset.Bounded := ⟨e.doc.reset_sized, Nat.one_pos, zero_le⟩
  have hyanked : e.yankValid = true → e.yank.Terminated := fun htrue => absurd htrue (by rw [hyank]; decide)
  rw [viLoadFile] at h
  dsimp only at h
  split_ifs at h with hcheck hfound hstat hlarge
  · cases h
  · cases h
  · cases h
  · cases h
  · split at h
    · cases h
    rename_i hload
    cases h
    exact ⟨loaded_bounded (by
      rw [length_map, length_range]
      change ¬ _ > 65536 at hlarge
      omega) hload, nofun, hyanked⟩
  · cases h
    exact ⟨hreset, nofun, hyanked⟩

/-- The document at the start of a session is within the limits. -/
theorem viStart_bounded (files : Files World) {argc : ℤ} {argument : Option Text} {world : World}
    (h : viStart files argc argument world = some s) : s.1.Bounded := by
  unfold viStart at h
  split_ifs at h
  · split at h
    · cases h
    · cases h
    split_ifs at h
    split at h
    · rename_i hload
      cases h
      have hloaded := Editor.Bounded.loadFile files rfl hload
      exact ⟨hloaded.doc, hloaded.undo, hloaded.yank⟩
    · cases h
  · cases h
    exact ⟨⟨Editor.blank.doc.reset_sized, Nat.one_pos, zero_le⟩, nofun, nofun⟩

/-! ## Saving -/

/-- The lines from a row on are put behind what was gathered if the sizes say that they fit. -/
theorem gatherLines_fits {lines row : ℕ} {out : Text} (hrow : row + lines + 1 = b.lineCount)
    (hfits : out.length + lines + ∑ i ∈ Finset.range (lines + 1), (b.rows (row + i)).length ≤ 65536) :
    gatherLines b (lines + 1) row out = some (out ++ ((range' row lines).flatMap fun row =>
      (b.rows row).text ++ [10]) ++ (b.rows (row + lines)).text) := by
  induction lines generalizing row out with
  | zero =>
    simp only [zero_add, Finset.sum_range_one, add_zero] at hfits
    rw [gatherLines, if_neg (by change ¬ _ > 65536 - _; omega)]
    rw [if_neg (by omega), range'_zero, flatMap_nil, append_nil]
    rfl
  | succ lines ih =>
    rw [Finset.sum_range_succ'] at hfits
    have hshift : ∑ i ∈ Finset.range (lines + 1), (b.rows (row + (i + 1))).length =
        ∑ i ∈ Finset.range (lines + 1), (b.rows (row + 1 + i)).length :=
      Finset.sum_congr rfl fun i _ => by rw [show row + (i + 1) = row + 1 + i by omega]
    simp only [hshift, add_zero] at hfits
    have hlength : (out ++ (b.rows row).text).length = out.length + (b.rows row).length := by
      rw [length_append, Row.text, length_map, length_range]
    rw [gatherLines, if_neg (by change ¬ _ > 65536 - _; omega)]
    rw [← Row.text, if_pos (by omega), if_neg (by rw [hlength]; change ¬ _ ≥ 65536; omega),
      ih (by omega) (by rw [length_append, hlength, length_singleton]; omega), range'_succ, flatMap_cons,
      show row + 1 + lines = row + (lines + 1) by omega]
    simp only [append_assoc]

theorem Buffer.Sized.gathered (h : b.Sized) : gatherLines b b.lineCount 0 [] = some b.flat := by
  have hsize := h.size_le
  have hpos := h.count_pos
  rw [viDocumentSize_eq, total] at hsize
  have hgather := @gatherLines_fits b (b.lineCount - 1) 0 [] (by omega)
  rw [Nat.sub_add_cancel hpos] at hgather
  simp only [zero_add, length_nil, nil_append, ← range_eq_range'] at hgather
  exact hgather hsize

theorem viSetStatus_status {message : Text} (hlength : message.length < 161) (e : Editor) :
    (viSetStatus message e).status = message := by
  have hfits : ¬ message.length ≥ viStatusCapacity := not_le_of_gt hlength
  rw [viSetStatus, if_neg hfits]

/-- A document within the limits is never too large to be saved. -/
theorem viSaveFile_fits (files : Files World) (h : e.doc.Sized) (newFilename : Text) (world : World) :
    (viSaveFile files newFilename e world).2.1.status ≠ text "vi: file exceeds 64 KiB" := by
  have hnamed (named : Editor) (hdoc : named.doc = e.doc) :
      (viSaveNamed files named world).2.1.status ≠ text "vi: file exceeds 64 KiB" := by
    rw [viSaveNamed, hdoc, h.gathered]
    dsimp only
    split_ifs
    · rw [viSetStatus_status (by decide)]
      decide
    split
    · rw [viSetStatus_status (by decide)]
      decide
    · split_ifs <;> rw [viSetStatus_status (by decide)] <;> decide
  rw [viSaveFile]
  split_ifs
  · exact hnamed e rfl
  · rw [viSetStatus_status (by decide)]
    decide
  · exact hnamed _ rfl

/-- Saving leaves a message, and clears the flag for changes if it succeeds. -/
theorem viSaveNamed_cases (files : Files World) (e : Editor) (world : World) :
    ∃ message, (viSaveNamed files e world).2.1 = viSetStatus message e ∨ (viSaveNamed files e world).2.1 =
        viSetStatus message { e with doc := { e.doc with modified := false } } := by
  rw [viSaveNamed]
  split_ifs
  · exact ⟨text "vi: no file name (use :w filename)", .inl rfl⟩
  split
  · exact ⟨text "vi: file exceeds 64 KiB", .inl rfl⟩
  split
  · exact ⟨text "vi: unable to create file", .inl rfl⟩
  dsimp only
  split_ifs
  · exact ⟨text "vi: write failed", .inl rfl⟩
  · exact ⟨text "\" written", .inr rfl⟩

section

variable (h : e.Bounded)
include h

namespace Editor.Bounded

theorem unmodified : Editor.Bounded { e with doc := { e.doc with modified := false } } :=
  ⟨⟨⟨h.doc.count_pos, h.doc.count_le, h.doc.terminated, h.doc.size_le⟩, h.doc.row_lt, h.doc.col_le⟩,
    h.undo, h.yank⟩

theorem saveNamed (files : Files World) (world : World) :
    (viSaveNamed files e world).2.1.Bounded := by
  obtain ⟨message, hkept | hsaved⟩ := viSaveNamed_cases files e world
  · rw [hkept]
    exact h.setStatus message
  · rw [hsaved]
    exact h.unmodified.setStatus message

theorem saveFile (files : Files World) (newFilename : Text)
    (world : World) : (viSaveFile files newFilename e world).2.1.Bounded := by
  rw [viSaveFile]
  split_ifs
  · exact h.saveNamed files world
  · exact h.setStatus (text "vi: filename is too long")
  · exact (h.setFilename newFilename).saveNamed files world

/-! ## Keys -/

theorem executeCommand (files : Files World) (world : World) :
    (viExecuteCommand files e world).1.Bounded := by
  rw [viExecuteCommand]
  by_cases hsearch : e.mode = .search
  · rw [if_pos hsearch]
    split_ifs
    · exact (h.setSearch e.command).searchForward.setMode _
    · exact h.setMode _
  rw [if_neg hsearch]
  dsimp only
  set argument := ((e.command.dropWhile fun c => !isBlank c).drop 1).dropWhile isBlank
  have hsaved := h.saveFile files argument world
  split_ifs
  · exact hsaved.setMode .normal
  · split
    · rename_i hanswer
      rw [hanswer] at hsaved
      exact (hsaved.setMode .normal).setPending 0x100
    · rename_i hanswer
      rw [hanswer] at hsaved
      exact hsaved.setMode .normal
  · exact (h.setStatus _).setMode .normal
  · exact (h.setMode .normal).setPending 0x100
  · exact (h.unmodified.setMode .normal).setPending 0x100
  · exact (h.setStatus (text "Not an editor command")).setMode .normal

theorem handleCommandKey (files : Files World) (key : ℕ)
    (world : World) : (viHandleCommandKey files key e world).1.Bounded := by
  rw [viHandleCommandKey]
  split_ifs
  · exact ((h.setMode .normal).setCommand []).clearStatus
  · exact h.executeCommand files world
  · exact h.setCommand _
  · exact h.setCommand _
  · exact h

theorem handleInsertKey (key : ℕ) : (viHandleInsertKey key e).Bounded := by
  rw [viHandleInsertKey]
  split_ifs with _ _ _ _ _ hright
  · exact (h.setMode .normal).moveLeft.clampCursor
  · exact h.backspaceInsert
  · exact h.splitLine
  · exact h.moveLeft
  · exact h.withDoc (h.doc.moveColumn hright)
  · exact h
  · exact h.moveUp
  · exact h.moveDown
  · exact h.insertCharacter _
  · exact h.insertCharacter _
  · exact h

theorem performed (command : NormalCommand) : (command.perform e).Bounded := by
  have hrow := h.doc.row_lt
  have hcolumn := h.doc.col_le
  cases command with
  | up => exact h.moveUp
  | down => exact h.moveDown
  | left => exact h.moveLeft
  | right =>
    rw [perform]
    split_ifs with hinside
    · exact h.withDoc (h.doc.moveColumn (le_of_lt hinside))
    · exact h
  | lineStart => exact h.withDoc (h.doc.moveColumn zero_le)
  | lineEnd => exact h.withDoc (h.doc.moveColumn (Row.lastColumn_le _))
  | wordForward => exact h.withDoc h.doc.moveWordForward
  | wordBackward => exact h.withDoc h.doc.moveWordBackward
  | lastLine => exact h.withDoc ((h.doc.toSized.anyCursor _ _).clampCursor e.mode)
  | pendingG => exact h.setPending _
  | insert => exact h.startInsert hcolumn true
  | append =>
    refine h.startInsert ?_ true
    split_ifs with hinside
    · exact hinside
    · exact hcolumn
  | insertAtStart => exact h.startInsert zero_le true
  | appendAtEnd => exact h.startInsert le_rfl true
  | openBelow => exact h.openLine hrow
  | openAbove => exact h.openLine (le_of_lt hrow)
  | delete => exact h.deleteAtCursor.clampCursor
  | deleteBefore =>
    rw [perform]
    split_ifs
    · exact (h.withDoc (h.doc.moveColumn (le_trans (Nat.sub_le _ _) hcolumn))).deleteAtCursor
    · exact h
  | join => exact h.joinLines
  | paste below => exact h.paste below
  | undo => exact h.undone
  | prompt mode => exact ((h.setMode mode).setCommand []).clearStatus
  | searchNext => exact h.searchForward
  | escape => exact (h.setPending 0).clearStatus
  | unknown => exact h.setPending 0

theorem handleSingleKey (key : ℕ) : (viHandleSingleKey key e).Bounded := by
  rw [viHandleSingleKey]
  split_ifs
  · exact h.setPending _
  · exact h.performed _

theorem handleNormalKey (key : ℕ) : (viHandleNormalKey key e).Bounded := by
  have hcleared := h.setPending 0
  rw [viHandleNormalKey]
  split_ifs
  · exact hcleared
  · exact hcleared.withDoc (h.doc.toSized.moveTo h.doc.count_pos zero_le)
  · exact hcleared.handleSingleKey key
  · exact hcleared.deleteLine
  · exact hcleared.yankLine
  · exact hcleared
  · exact h.handleSingleKey key

end Editor.Bounded

end

theorem viKey_bounded (files : Files World) (key : ℕ) (h : s.1.Bounded) : (viKey files key s).1.Bounded := by
  rw [viKey]
  split_ifs
  · exact h
  split
  · exact h.handleInsertKey key
  · exact h.handleCommandKey files key s.2
  · exact h.handleCommandKey files key s.2
  · exact h.handleNormalKey key

theorem viRun_bounded (files : Files World) (keys : List ℕ) (h : s.1.Bounded) :
    (viRun files keys s).1.Bounded := by
  induction keys generalizing s with
  | nil => exact h
  | cons key rest ih =>
    rw [viRun]
    split_ifs
    · exact viKey_bounded files key h
    · exact ih (viKey_bounded files key h)

/-- From every accepted file or from none, and for all keys, the document keeps the limits of its
arrays and of a file, the cursor stays on it, and saving never reports that the file is too large. -/
theorem session_within_limits (files : Files World) {argc : ℤ} {argument : Option Text}
    {world : World} {start : Editor × World} (hstart : viStart files argc argument world = some start)
    (keys : List ℕ) :
    (viRun files keys start).1.doc.Bounded ∧
      ∀ newFilename world, (viSaveFile files newFilename (viRun files keys start).1 world).2.1.status ≠
        text "vi: file exceeds 64 KiB" := by
  have hbounded := viRun_bounded files keys (viStart_bounded files hstart)
  exact ⟨hbounded.doc, viSaveFile_fits files hbounded.doc.toSized⟩

/-- Files that do not exist and cannot be made. -/
def noFiles : Files Unit where
  fileExists _ world := (0, world)
  stat _ world := (-1, 0, world)
  readFile _ _ world := (-1, fun _ => 0, world)
  createFile _ world := (-1, world)
  writeFileRaw _ _ world := (-1, world)

theorem session_within_limits_noFiles :
    (viRun noFiles [code 'i', code 'x', 0x1b, code 'y', code 'y', code 'p']
        ({ Editor.blank with doc := Editor.blank.doc.reset }, ())).1.doc.Bounded ∧
      ∀ newFilename world, (viSaveFile noFiles newFilename
        (viRun noFiles [code 'i', code 'x', 0x1b, code 'y', code 'y', code 'p']
          ({ Editor.blank with doc := Editor.blank.doc.reset }, ())).1 world).2.1.status ≠
        text "vi: file exceeds 64 KiB" :=
  session_within_limits noFiles (show viStart noFiles 0 none () = some _ from rfl) _

/-!
## Saving what was loaded

A file is loaded line by line and saved with a newline between the lines. When it has no carriage return,
which the loader skips, the lines as loaded are the file as it was, so saving writes the same bytes.
-/

open Function

variable {b' final : Buffer} {column last : ℕ}

theorem Buffer.before_congr {row : ℕ} (h : ∀ other < row, b.rows other = b'.rows other) :
    b.before row = b'.before row :=
  flatMap_congr fun other hother => by rw [h other (mem_range.mp hother)]

/-- The bytes of the lines while a file is loaded, the last one open at a column. -/
def Buffer.openText (b : Buffer) (column : ℕ) : Text :=
  b.before (b.lineCount - 1) ++ (range column).map (b.rows (b.lineCount - 1)).bytes

theorem Buffer.openText_setRow (b : Buffer) (r : Row) (column : ℕ) :
    (b.setRow (b.lineCount - 1) r).openText column =
      b.before (b.lineCount - 1) ++ (range column).map r.bytes := by
  have hcount : (b.setRow (b.lineCount - 1) r).lineCount = b.lineCount := rfl
  rw [openText, hcount, setRow_self, before_congr fun row hrow => setRow_of_ne b (ne_of_lt hrow) r]

theorem Buffer.flat_endLine (b : Buffer) (column : ℕ) : (b.endLine column).flat = b.openText column := by
  have hcount : (b.endLine column).lineCount = b.lineCount := rfl
  rw [flat, hcount, endLine, setRow_self, before_congr fun row hrow => setRow_of_ne b (ne_of_lt hrow) _]
  exact congrArg _ (map_congr_left fun j hj => update_of_ne (ne_of_lt (mem_range.mp hj)) _ _)

/-- A newline is put behind the line that it ends. -/
theorem Buffer.openText_nextLine (hpos : 1 ≤ b.lineCount) : b.nextLine.openText 0 = b.flat ++ [10] := by
  have hrows : ∀ row < b.lineCount, b.nextLine.rows row = b.rows row := fun row hrow =>
    setRow_of_ne b (ne_of_lt hrow) _
  have hcount : b.nextLine.lineCount - 1 = b.lineCount - 1 + 1 := (Nat.sub_add_cancel hpos).symm
  rw [openText, hcount, range_zero, map_nil, append_nil,
    before_congr fun row hrow => hrows row (by omega), before, range_succ, flatMap_append,
    flatMap_singleton, flat, append_assoc]
  rfl

/-- Every byte that is loaded comes behind those before it. -/
theorem loadBytes_text {bytes : Text} (hpos : 1 ≤ b.lineCount) (hreturn : 13 ∉ bytes)
    (hload : loadBytes bytes b column = .ok (final, last)) :
    final.openText last = b.openText column ++ bytes := by
  induction bytes generalizing b column with
  | nil =>
    cases hload
    exact (append_nil _).symm
  | cons character rest ih =>
    obtain ⟨hcharacter, hrest⟩ := not_or.mp (mt mem_cons.mpr hreturn)
    rw [loadBytes, if_neg (Ne.symm hcharacter)] at hload
    rw [append_cons]
    split_ifs at hload with hnewline
    · rw [ih (Nat.le_add_left 1 _) hrest hload, openText_nextLine (b := b.endLine column) hpos,
        flat_endLine, hnewline]
    rw [ih (b := b.setRow _ _) hpos hrest hload, openText_setRow, range_succ, map_append, map_singleton]
    dsimp only
    rw [update_self, ← append_assoc]
    congr 3
    exact map_congr_left fun j hj => update_of_ne (ne_of_lt (mem_range.mp hj)) _ _

/-- The bytes that `vi_load_file` reads from a file. -/
def Files.content (files : Files World) (filename : Text) (world : World) : Text :=
  let (_, world) := files.fileExists filename world
  let (_, _, world) := files.stat filename world
  let (count, buffer, _) := files.readFile filename viFileCapacity world
  (range count.toNat).map buffer

section

variable {files : Files World} {filename : Text} {e loaded : Editor} {world world' : World}
  (hexists : (files.fileExists filename world).1 = 1)
  (hload : viLoadFile files filename e world = (true, loaded, world'))
  (hreturn : 13 ∉ files.content filename world)
include hexists hload hreturn

/-- The document of a loaded file is the file, and it fits. -/
theorem viLoadFile_flat : loaded.doc.Sized ∧ loaded.doc.flat = files.content filename world := by
  simp only [viLoadFile, hexists] at hload
  rw [if_neg (by decide), if_pos trivial] at hload
  split_ifs at hload with hinspect hlarge
  · cases hload
  · cases hload
  · cases hload
  split at hload
  · cases hload
  next final last hbytes =>
  cases hload
  change _ ∧ (final.endLine last).flat = _
  refine ⟨(loaded_bounded ?_ hbytes).toSized, ?_⟩
  · rw [length_map, length_range]
    change ¬ _ > 65536 at hlarge
    omega
  · rw [flat_endLine, loadBytes_text (le_refl 1) hreturn hbytes]
    rfl

/-- What was loaded is saved byte for byte when the operations on the file succeed. -/
theorem saved_as_loaded (hfilename : loaded.filename ≠ [])
    (hensured : (viEnsureFile files loaded.filename world').1 = true)
    (hwritten : 0 ≤ (files.writeFileRaw loaded.filename (files.content filename world)
      (viEnsureFile files loaded.filename world').2).1) :
    (viSaveFile files [] loaded world').1 = true ∧ (viSaveFile files [] loaded world').2.2 =
      (files.writeFileRaw loaded.filename (files.content filename world)
        (viEnsureFile files loaded.filename world').2).2 := by
  obtain ⟨hsized, hflat⟩ := viLoadFile_flat hexists hload hreturn
  rw [viSaveFile, if_pos rfl, viSaveNamed, if_neg hfilename, hsized.gathered, hflat]
  cases hensure : viEnsureFile files loaded.filename world' with
  | mk made world'' =>
    rw [hensure] at hensured hwritten
    obtain rfl : made = true := hensured
    dsimp only at hwritten ⊢
    rw [if_neg (Int.not_lt.mpr hwritten)]
    exact ⟨rfl, rfl⟩

end

/-- One file, whose bytes are the world. -/
def oneFile : Files Text where
  fileExists _ world := (1, world)
  stat _ world := (0, world.length, world)
  readFile _ _ world := (world.length, fun i => world.getD i 0, world)
  createFile _ world := (0, world)
  writeFileRaw _ bytes _ := (0, bytes)

/-- A NUL byte and the missing newline at the end come back. -/
theorem saved_as_loaded_oneFile :
    let e := (viLoadFile oneFile [97] { Editor.blank with filename := [97] } [98, 10, 10, 0]).2.1
    (viSaveFile oneFile [] e [98, 10, 10, 0]).2.2 = [98, 10, 10, 0] :=
  (@saved_as_loaded Text oneFile [97] { Editor.blank with filename := [97] } _ [98, 10, 10, 0] _ rfl rfl
    (by decide) (by decide) rfl (by decide)).2

end Windoge.Vi
