import Windoge.Lib.Shifting
import Windoge.Script.Words

/-!
# The state of the editor and its edits

`vi` keeps the lines of a document in fixed arrays, each line with its length and a NUL behind it,
and a second set of arrays for the document before the last change. A row of an array is a function
on indices here, and the counters are natural numbers: the bounds of `Vi.Bounds` are far below the
range of the machine's. Drawing is left out.
-/

namespace Windoge.Vi

open Script (Text text)
open Shifting

/-- `VI_MAX_LINES`. -/
def viMaxLines : ℕ := 2048

/-- `VI_LINE_CAPACITY`. -/
def viLineCapacity : ℕ := 256

/-- `VI_FILE_CAPACITY`. -/
def viFileCapacity : ℕ := 65536

/-- The size of `vi_status`. -/
def viStatusCapacity : ℕ := 161

/-- The values of `vi_mode`. -/
inductive Mode
  | normal
  | insert
  | command
  | search
  deriving DecidableEq

/-- An element of `vi_lines` with its element of `vi_line_lengths`. -/
structure Row where
  bytes : ℕ → UInt8
  length : ℕ

/-- The lines, the cursor and the flag for changes; `vi` has one for the document and one for undo. -/
structure Buffer where
  rows : ℕ → Row
  lineCount : ℕ
  cursorRow : ℕ
  cursorCol : ℕ
  modified : Bool

/-- The static variables of `vi`. -/
structure Editor where
  doc : Buffer
  undo : Buffer
  undoValid : Bool
  mode : Mode
  pendingCommand : ℕ
  command : Text
  yank : Row
  yankValid : Bool
  search : Text
  filename : Text
  status : Text

/-- `vi_set_status`. -/
def viSetStatus (message : Text) (e : Editor) : Editor :=
  if message.length ≥ viStatusCapacity then e else { e with status := message }

/-- `vi_clear_status`. -/
def viClearStatus (e : Editor) : Editor := { e with status := [] }

/-- `vi_document_size`. -/
def viDocumentSize (b : Buffer) : ℕ :=
  (List.range b.lineCount).foldl (fun size row => size + (b.rows row).length)
    (if b.lineCount = 0 then 0 else b.lineCount - 1)

/-! ## Changes of a line -/

/-- A line after `line[0] = '\0'; length = 0;`. -/
def Row.cleared (r : Row) : Row := ⟨Function.update r.bytes 0 0, 0⟩

/-- A line with a character put in at a column. -/
def Row.insertAt (r : Row) (column : ℕ) (character : UInt8) : Row :=
  let bytes := Function.update (openGap column r.length r.bytes) column character
  ⟨Function.update bytes (r.length + 1) 0, r.length + 1⟩

/-- A line without the character at a column. -/
def Row.deleteAt (r : Row) (column : ℕ) : Row :=
  ⟨Function.update (closeGap column r.length r.bytes) (r.length - 1) 0, r.length - 1⟩

/-- A line with another one behind it, after a blank if `separator` is one. -/
def Row.joined (left right : Row) (separator : ℕ) : Row :=
  let bytes := if separator ≠ 0 then Function.update left.bytes left.length 32 else left.bytes
  let start := left.length + separator
  ⟨blit bytes start right.bytes (right.length + 1), start + right.length⟩

/-- The part of `source` from a column on, copied into the line `target`. -/
def Row.tailInto (target source : Row) (column : ℕ) : Row :=
  let tailLength := source.length - column
  ⟨Function.update (blit target.bytes 0 (fun j => source.bytes (column + j)) tailLength) tailLength 0,
    tailLength⟩

/-- A line cut off at a column. -/
def Row.cut (r : Row) (column : ℕ) : Row := ⟨Function.update r.bytes column 0, column⟩

/-- The last column with a character, or the first of an empty line. -/
def Row.lastColumn (r : Row) : ℕ := if r.length = 0 then 0 else r.length - 1

/-! ## Changes of the lines -/

namespace Buffer

/-- The line with the cursor. -/
def current (b : Buffer) : Row := b.rows b.cursorRow

/-- The lines with one replaced. -/
def setRow (b : Buffer) (row : ℕ) (r : Row) : Buffer :=
  { b with rows := Function.update b.rows row r }

/-- The lines with an empty one put in. -/
def insertRow (b : Buffer) (row : ℕ) : Buffer :=
  let rows := openGap row b.lineCount b.rows
  { b with rows := Function.update rows row (rows row).cleared, lineCount := b.lineCount + 1 }

/-- The lines without one. -/
def removeRow (b : Buffer) (row : ℕ) : Buffer :=
  { b with rows := closeGap row b.lineCount b.rows, lineCount := b.lineCount - 1 }

/-- A document with one empty line in the place of none. -/
def nonempty (b : Buffer) : Buffer :=
  if b.lineCount = 0 then { b.setRow 0 (b.rows 0).cleared with lineCount := 1 } else b

/-- The lines with the cursor at a place. -/
def moveTo (b : Buffer) (row column : ℕ) : Buffer :=
  { b with cursorRow := row, cursorCol := column }

/-- The lines after a change. -/
def changed (b : Buffer) : Buffer := { b with modified := true }

/-- The copy of a buffer over another one: the lines that it uses, its cursor and its flag. -/
def copyOver (source target : Buffer) : Buffer :=
  { source with rows := blit target.rows 0 source.rows source.lineCount }

/-- `vi_clamp_cursor` in a mode. -/
def clampCursor (mode : Mode) (b : Buffer) : Buffer :=
  let b := b.nonempty
  let b := if b.cursorRow ≥ b.lineCount then b.moveTo (b.lineCount - 1) b.cursorCol else b
  let length := b.current.length
  if mode = .normal ∧ length > 0 ∧ b.cursorCol ≥ length then b.moveTo b.cursorRow (length - 1)
  else if b.cursorCol > length then b.moveTo b.cursorRow length
  else b

/-! ## Edits -/

end Buffer

/-- `vi_begin_undo`. -/
def viBeginUndo (e : Editor) : Editor :=
  { e with undo := e.doc.copyOver e.undo, undoValid := true }

/-- `vi_undo`. -/
def viUndo (e : Editor) : Editor :=
  if e.undoValid then
    viSetStatus (text "Change undone")
      { e with doc := e.undo.copyOver e.doc, undoValid := false }
  else viSetStatus (text "Already at oldest change") e

/-- `vi_clamp_cursor`. -/
def viClampCursor (e : Editor) : Editor := { e with doc := e.doc.clampCursor e.mode }

/-- `vi_insert_line`, with whether it returns zero. -/
def viInsertLine (row : ℕ) (e : Editor) : Bool × Editor :=
  if e.doc.lineCount ≥ viMaxLines ∨ viDocumentSize e.doc ≥ viFileCapacity then
    (false, viSetStatus (text "vi: document limit reached") e)
  else (true, { e with doc := (e.doc.insertRow row).changed })

/-- `vi_insert_character`. -/
def viInsertCharacter (character : UInt8) (e : Editor) : Editor :=
  let b := e.doc
  if b.current.length ≥ viLineCapacity - 1 ∨ viDocumentSize b ≥ viFileCapacity then
    viSetStatus (text "vi: line or file limit reached") e
  else
    let line := b.current.insertAt b.cursorCol character
    { e with doc := ((b.setRow b.cursorRow line).moveTo b.cursorRow (b.cursorCol + 1)).changed }

/-- `vi_delete_at_cursor`. -/
def viDeleteAtCursor (e : Editor) : Editor :=
  let b := e.doc
  if b.current.length = 0 ∨ b.cursorCol ≥ b.current.length then e
  else
    { viBeginUndo e with
      doc := (b.setRow b.cursorRow (b.current.deleteAt b.cursorCol)).changed }

/-- `vi_delete_line`. -/
def viDeleteLine (e : Editor) : Editor :=
  let b := e.doc
  if b.lineCount = 1 ∧ (b.rows 0).length = 0 then e
  else
    viClampCursor { viBeginUndo e with
      doc := ((b.removeRow b.cursorRow).nonempty.moveTo b.cursorRow 0).changed }

/-- `vi_join_lines`. -/
def viJoinLines (e : Editor) : Editor :=
  let b := e.doc
  if b.cursorRow + 1 ≥ b.lineCount then e
  else
    let left := b.current
    let right := b.rows (b.cursorRow + 1)
    let separator := if left.length > 0 ∧ right.length > 0 then 1 else 0
    if left.length + separator + right.length ≥ viLineCapacity then
      viSetStatus (text "vi: joined line would be too long") e
    else
      { viBeginUndo e with
        doc := ((b.setRow b.cursorRow (left.joined right separator)).removeRow (b.cursorRow + 1)).changed }

/-- `vi_backspace_insert`. -/
def viBackspaceInsert (e : Editor) : Editor :=
  let b := e.doc
  if b.cursorCol > 0 then
    let line := b.current.deleteAt (b.cursorCol - 1)
    { e with doc := ((b.setRow b.cursorRow line).moveTo b.cursorRow (b.cursorCol - 1)).changed }
  else if b.cursorRow > 0 then
    let previous := b.rows (b.cursorRow - 1)
    if previous.length + b.current.length ≥ viLineCapacity then
      viSetStatus (text "vi: joined line would be too long") e
    else
      let joined := (b.setRow (b.cursorRow - 1) (previous.joined b.current 0)).removeRow b.cursorRow
      { viBeginUndo e with doc := (joined.moveTo (b.cursorRow - 1) previous.length).changed }
  else e

/-- `vi_start_insert`. -/
def viStartInsert (column : ℕ) (saveUndo : Bool) (e : Editor) : Editor :=
  let e := if saveUndo then viBeginUndo e else e
  viClearStatus { e with doc := e.doc.moveTo e.doc.cursorRow column, mode := .insert }

/-- `vi_open_line`. -/
def viOpenLine (row : ℕ) (e : Editor) : Editor :=
  match viInsertLine row (viBeginUndo e) with
  | (true, e) => { e with doc := e.doc.moveTo row 0, mode := .insert, undoValid := true }
  | (false, e) => e

/-- The enter key in insert mode: the line is split at the cursor. -/
def viSplitLine (e : Editor) : Editor :=
  let row := e.doc.cursorRow
  let column := e.doc.cursorCol
  match viInsertLine (row + 1) e with
  | (true, e) =>
    let b := e.doc.setRow (row + 1) ((e.doc.rows (row + 1)).tailInto (e.doc.rows row) column)
    { e with doc := (b.setRow row ((b.rows row).cut column)).moveTo (row + 1) 0 }
  | (false, e) => e

/-- The `yy` command. -/
def viYankLine (e : Editor) : Editor :=
  let line := e.doc.current
  viSetStatus (text "1 line yanked")
    { e with yank := ⟨blit e.yank.bytes 0 line.bytes (line.length + 1), line.length⟩, yankValid := true }

/-- The `p` and `P` commands. -/
def viPaste (below : Bool) (e : Editor) : Editor :=
  if e.yankValid then
    let target := if below then e.doc.cursorRow + 1 else e.doc.cursorRow
    if e.doc.lineCount ≥ viMaxLines ∨
        viDocumentSize e.doc + 1 + e.yank.length > viFileCapacity then
      viSetStatus (text "vi: document limit reached") e
    else
      match viInsertLine target (viBeginUndo e) with
      | (true, e) =>
        let line := blit (e.doc.rows target).bytes 0 e.yank.bytes (e.yank.length + 1)
        { e with doc := (e.doc.setRow target ⟨line, e.yank.length⟩).moveTo target 0 }
      | (false, e) => e
  else e

/-! ## Motions -/

/-- A blank between words. -/
def isBlank (character : UInt8) : Bool := character = 32 || character = 9

/-- `while (column < length && p(line[column])) column++;` in at most the given number of rounds. -/
def skipWhile (p : UInt8 → Bool) (r : Row) : ℕ → ℕ → ℕ
  | 0, column => column
  | rounds + 1, column =>
    if column < r.length ∧ p (r.bytes column) then skipWhile p r rounds (column + 1) else column

/-- The loop of `vi_move_word_forward` over a number of lines: where the next word starts. -/
def wordForwardFrom (b : Buffer) : ℕ → ℕ → ℕ → Option (ℕ × ℕ)
  | 0, _, _ => none
  | lines + 1, row, column =>
    let r := b.rows row
    let column := skipWhile (fun c => !isBlank c) r (r.length - column) column
    let column := skipWhile isBlank r (r.length - column) column
    if column < r.length then some (row, column) else wordForwardFrom b lines (row + 1) 0

/-- `vi_move_word_forward`. -/
def viMoveWordForward (b : Buffer) : Buffer :=
  match wordForwardFrom b (b.lineCount - b.cursorRow) b.cursorRow b.cursorCol with
  | some (row, column) => b.moveTo row column
  | none => b.moveTo (b.lineCount - 1) (b.rows (b.lineCount - 1)).lastColumn

/-- The first loop of `vi_move_word_backward`: back over blanks, line by line. -/
def skipBlanksBack (b : Buffer) (row column : ℕ) : ℕ × ℕ :=
  if isBlank ((b.rows row).bytes column) then
    match row, column with
    | 0, 0 => (0, 0)
    | row, column + 1 => skipBlanksBack b row column
    | row + 1, 0 => skipBlanksBack b row (b.rows row).lastColumn
  else (row, column)
termination_by (row, column)

/-- The second loop of `vi_move_word_backward`: back to the start of a word. -/
def wordStart (r : Row) : ℕ → ℕ
  | 0 => 0
  | column + 1 => if isBlank (r.bytes column) then column + 1 else wordStart r column

/-- `vi_move_word_backward`. -/
def viMoveWordBackward (b : Buffer) : Buffer :=
  if b.cursorRow = 0 ∧ b.cursorCol = 0 then b
  else
    let start := if b.cursorCol > 0 then (b.cursorRow, b.cursorCol - 1)
      else (b.cursorRow - 1, (b.rows (b.cursorRow - 1)).lastColumn)
    let place := skipBlanksBack b start.1 start.2
    b.moveTo place.1 (wordStart (b.rows place.1) place.2)

/-- `memcmp(line + column, needle, needle_length) == 0`. -/
def Row.matchesAt (r : Row) (needle : Text) (column : ℕ) : Bool :=
  needle.zipIdx.all fun (c, k) => r.bytes (column + k) = c

/-- The columns from `start` on at which a text fits into a line. -/
def Row.placesFor (r : Row) (needle : Text) (start : ℕ) : List ℕ :=
  List.range' start (r.length + 1 - needle.length - start)

/-- The first loop of `vi_search_forward`, over the remaining row offsets. -/
def searchBelow (b : Buffer) (needle : Text) : List ℕ → Option (ℕ × ℕ)
  | [] => none
  | offset :: rest =>
    let row := (b.cursorRow + offset) % b.lineCount
    let start := if row = b.cursorRow then b.cursorCol + 1 else 0
    if offset > 0 ∧ row < b.cursorRow then none
    else
      match ((b.rows row).placesFor needle start).find? ((b.rows row).matchesAt needle) with
      | some column => some (row, column)
      | none => searchBelow b needle rest

/-- The second loop of `vi_search_forward`, over the remaining rows. -/
def searchAbove (b : Buffer) (needle : Text) : List ℕ → Option (ℕ × ℕ)
  | [] => none
  | row :: rest =>
    match ((b.rows row).placesFor needle 0).find? fun column =>
        decide (row < b.cursorRow ∨ column < b.cursorCol) && (b.rows row).matchesAt needle column with
    | some column => some (row, column)
    | none => searchAbove b needle rest

/-- `vi_search_forward`. -/
def viSearchForward (e : Editor) : Editor :=
  if e.search.length = 0 then viSetStatus (text "No previous search") e
  else
    match (searchBelow e.doc e.search (List.range e.doc.lineCount)).or
        (searchAbove e.doc e.search (List.range (e.doc.cursorRow + 1))) with
    | some (row, column) => viClearStatus { e with doc := e.doc.moveTo row column }
    | none => viSetStatus (text "Pattern not found") e

/-!
## The keys and the files of the editor

Every key goes to the handler of the current mode. The system calls on files are a structure of
functions on a world, so that what is proved of a session holds for whatever they answer.
-/

/-- `VI_PATH_CAPACITY`. -/
def viPathCapacity : ℕ := 128

/-- `VI_COMMAND_CAPACITY`. -/
def viCommandCapacity : ℕ := 128

/-- The system calls of `vi` on files. A negative answer is an error; `stat` also gives the size,
and `readFile` also gives what it leaves in the buffer. -/
structure Files (World : Type*) where
  fileExists : Text → World → ℤ × World
  stat : Text → World → ℤ × ℕ × World
  readFile : Text → ℕ → World → ℤ × (ℕ → UInt8) × World
  createFile : Text → World → ℤ × World
  writeFileRaw : Text → Text → World → ℤ × World

variable {World : Type*}

/-! ## Loading and saving -/

/-- The document of one empty line. -/
def Buffer.reset (b : Buffer) : Buffer :=
  ⟨Function.update b.rows 0 (b.rows 0).cleared, 1, 0, 0, false⟩

/-- The line that is being loaded, ended at a column. -/
def Buffer.endLine (b : Buffer) (column : ℕ) : Buffer :=
  b.setRow (b.lineCount - 1) ((b.rows (b.lineCount - 1)).cut column)

/-- The lines with another one begun: its first byte is a NUL and its length is not set yet. -/
def Buffer.nextLine (b : Buffer) : Buffer :=
  let next := b.rows b.lineCount
  { b.setRow b.lineCount { next with bytes := Function.update next.bytes 0 0 } with
    lineCount := b.lineCount + 1 }

/-- The loop of `vi_load_file` over the bytes of the file: the lines and the column, or a message. -/
def loadBytes : Text → Buffer → ℕ → Except Text (Buffer × ℕ)
  | [], b, column => .ok (b, column)
  | character :: rest, b, column =>
    if character = 13 then loadBytes rest b column
    else if character = 10 then
      if b.lineCount ≥ viMaxLines then .error (text "vi: file contains too many lines")
      else loadBytes rest (b.endLine column).nextLine 0
    else if column ≥ viLineCapacity - 1 then .error (text "vi: line exceeds 255 characters")
    else
      let line := b.rows (b.lineCount - 1)
      let line := { line with bytes := Function.update line.bytes column character }
      loadBytes rest (b.setRow (b.lineCount - 1) line) (column + 1)

/-- `vi_load_file`, with whether it returns zero. -/
def viLoadFile (files : Files World) (filename : Text) (e : Editor) (world : World) :
    Bool × Editor × World :=
  let (found, world) := files.fileExists filename world
  if found < 0 then (false, viSetStatus (text "vi: unable to check file") e, world)
  else
    let e := { e with doc := e.doc.reset }
    if found = 1 then
      let (answer, size, world) := files.stat filename world
      if answer < 0 then (false, viSetStatus (text "vi: unable to inspect file") e, world)
      else if size > viFileCapacity then
        (false, viSetStatus (text "vi: file is too large or cannot be read") e, world)
      else
        let (count, buffer, world) := files.readFile filename viFileCapacity world
        if count < 0 ∨ count ≠ size then
          (false, viSetStatus (text "vi: failed to read file") e, world)
        else
          match loadBytes ((List.range count.toNat).map buffer) e.doc 0 with
          | .error message => (false, viSetStatus message e, world)
          | .ok (b, column) =>
            (true, { e with doc := (b.endLine column).moveTo 0 0, undoValid := false }, world)
    else (true, { e with undoValid := false }, world)

/-- The loop of `vi_save_file` over a number of lines: the bytes to write, if they fit. -/
def gatherLines (b : Buffer) : ℕ → ℕ → Text → Option Text
  | 0, _, out => some out
  | lines + 1, row, out =>
    let r := b.rows row
    if r.length > viFileCapacity - out.length then none
    else
      let out := out ++ (List.range r.length).map r.bytes
      if row + 1 < b.lineCount then
        if out.length ≥ viFileCapacity then none
        else gatherLines b lines (row + 1) (out ++ [10])
      else gatherLines b lines (row + 1) out

/-- The file to write to, made if it does not exist, and whether it is there. -/
def viEnsureFile (files : Files World) (filename : Text) (world : World) : Bool × World :=
  let (found, world) := files.fileExists filename world
  if found = 0 then
    let (created, world) := files.createFile filename world
    (decide (0 ≤ created), world)
  else (decide (0 ≤ found), world)

/-- `vi_save_file` once the file name is set. -/
def viSaveNamed (files : Files World) (e : Editor) (world : World) : Bool × Editor × World :=
  if e.filename = [] then
    (false, viSetStatus (text "vi: no file name (use :w filename)") e, world)
  else
    match gatherLines e.doc e.doc.lineCount 0 [] with
    | none => (false, viSetStatus (text "vi: file exceeds 64 KiB") e, world)
    | some bytes =>
      match viEnsureFile files e.filename world with
      | (false, world) => (false, viSetStatus (text "vi: unable to create file") e, world)
      | (true, world) =>
        let (answer, world) := files.writeFileRaw e.filename bytes world
        if answer < 0 then (false, viSetStatus (text "vi: write failed") e, world)
        else
          (true, viSetStatus (text "\" written") { e with doc := { e.doc with modified := false } }, world)

/-- `vi_save_file`, with whether it returns zero. -/
def viSaveFile (files : Files World) (newFilename : Text) (e : Editor) (world : World) :
    Bool × Editor × World :=
  if newFilename = [] then viSaveNamed files e world
  else if newFilename.length ≥ viPathCapacity then
    (false, viSetStatus (text "vi: filename is too long") e, world)
  else viSaveNamed files { e with filename := newFilename } world

/-! ## The command line -/

/-- `vi_execute_command`. -/
def viExecuteCommand (files : Files World) (e : Editor) (world : World) : Editor × World :=
  if e.mode = .search then
    let e := if e.command.length > 0 ∧ e.command.length < viCommandCapacity then
      viSearchForward { e with search := e.command } else e
    ({ e with mode := .normal }, world)
  else
    let name := e.command.takeWhile fun c => !isBlank c
    let argument := ((e.command.dropWhile fun c => !isBlank c).drop 1).dropWhile isBlank
    if name = text "w" ∨ name = text "write" then
      let (_, e, world) := viSaveFile files argument e world
      ({ e with mode := .normal }, world)
    else if name = text "wq" ∨ name = text "x" then
      match viSaveFile files argument e world with
      | (true, e, world) => ({ e with mode := .normal, pendingCommand := 0x100 }, world)
      | (false, e, world) => ({ e with mode := .normal }, world)
    else if name = text "q" ∨ name = text "quit" then
      if e.doc.modified then
        let e := viSetStatus (text "No write since last change (use :q! to override)") e
        ({ e with mode := .normal }, world)
      else ({ e with mode := .normal, pendingCommand := 0x100 }, world)
    else if name = text "q!" then
      ({ e with doc := { e.doc with modified := false }, mode := .normal, pendingCommand := 0x100 }, world)
    else ({ viSetStatus (text "Not an editor command") e with mode := .normal }, world)

/-! ## Keys -/

/-- The code of a key with a character. -/
def code (c : Char) : ℕ := c.toNat

/-- `KEY_UP`. -/
def keyUp : ℕ := 0x101

/-- `KEY_DOWN`. -/
def keyDown : ℕ := 0x102

/-- `KEY_LEFT`. -/
def keyLeft : ℕ := 0x103

/-- `KEY_RIGHT`. -/
def keyRight : ℕ := 0x104

/-- `KEY_BACKSPACE`. -/
def keyBackspace : ℕ := 0x08

/-- `KEY_TAB`. -/
def keyTab : ℕ := 0x09

/-- `KEY_ENTER`. -/
def keyEnter : ℕ := 0x0A

/-- `vi_handle_command_key`. -/
def viHandleCommandKey (files : Files World) (key : ℕ) (e : Editor) (world : World) :
    Editor × World :=
  if key = 0x1b then (viClearStatus { e with mode := .normal, command := [] }, world)
  else if key = keyEnter ∨ key = code '\n' then viExecuteCommand files e world
  else if key = keyBackspace ∨ key = 0x7f ∨ key = 0x08 then
    ({ e with command := e.command.dropLast }, world)
  else if 32 ≤ key ∧ key ≤ 126 ∧ e.command.length + 1 < viCommandCapacity then
    ({ e with command := e.command ++ [UInt8.ofNat key] }, world)
  else (e, world)

/-- The cursor one line up, if there is one. -/
def viMoveUp (e : Editor) : Editor :=
  let b := e.doc
  viClampCursor (if b.cursorRow > 0 then { e with doc := b.moveTo (b.cursorRow - 1) b.cursorCol } else e)

/-- The cursor one line down, if there is one. -/
def viMoveDown (e : Editor) : Editor :=
  let b := e.doc
  viClampCursor (if b.cursorRow + 1 < b.lineCount then
    { e with doc := b.moveTo (b.cursorRow + 1) b.cursorCol } else e)

/-- The cursor one column to the left, if there is one. -/
def viMoveLeft (e : Editor) : Editor :=
  let b := e.doc
  if b.cursorCol > 0 then { e with doc := b.moveTo b.cursorRow (b.cursorCol - 1) } else e

/-- `vi_handle_insert_key`. -/
def viHandleInsertKey (key : ℕ) (e : Editor) : Editor :=
  if key = 0x1b then viClampCursor (viMoveLeft { e with mode := .normal })
  else if key = keyBackspace ∨ key = 0x08 ∨ key = 0x7f then viBackspaceInsert e
  else if key = keyEnter ∨ key = code '\n' ∨ key = code '\r' then viSplitLine e
  else if key = keyLeft then viMoveLeft e
  else if key = keyRight then
    if e.doc.cursorCol < e.doc.current.length then
      { e with doc := e.doc.moveTo e.doc.cursorRow (e.doc.cursorCol + 1) }
    else e
  else if key = keyUp then viMoveUp e
  else if key = keyDown then viMoveDown e
  else if (32 ≤ key ∧ key ≤ 126) ∨ key = keyTab then
    viInsertCharacter (if key = keyTab then 9 else UInt8.ofNat key) e
  else e

/-- The cases of the switch in `vi_handle_normal_key`. -/
inductive NormalCommand
  | up
  | down
  | left
  | right
  | lineStart
  | lineEnd
  | wordForward
  | wordBackward
  | lastLine
  | pendingG
  | insert
  | append
  | insertAtStart
  | appendAtEnd
  | openBelow
  | openAbove
  | delete
  | deleteBefore
  | join
  | paste (below : Bool)
  | undo
  | prompt (mode : Mode)
  | searchNext
  | escape
  | unknown

/-- The case of the switch that a key selects. -/
def normalCommand (key : ℕ) : NormalCommand :=
  if key = keyUp ∨ key = code 'k' then .up
  else if key = keyDown ∨ key = code 'j' then .down
  else if key = keyLeft ∨ key = code 'h' then .left
  else if key = keyRight ∨ key = code 'l' then .right
  else if key = code '0' then .lineStart
  else if key = code '$' then .lineEnd
  else if key = code 'w' then .wordForward
  else if key = code 'b' then .wordBackward
  else if key = code 'G' then .lastLine
  else if key = code 'g' then .pendingG
  else if key = code 'i' then .insert
  else if key = code 'a' then .append
  else if key = code 'I' then .insertAtStart
  else if key = code 'A' then .appendAtEnd
  else if key = code 'o' then .openBelow
  else if key = code 'O' then .openAbove
  else if key = code 'x' then .delete
  else if key = code 'X' then .deleteBefore
  else if key = code 'J' then .join
  else if key = code 'p' then .paste true
  else if key = code 'P' then .paste false
  else if key = code 'u' then .undo
  else if key = code ':' then .prompt .command
  else if key = code '/' then .prompt .search
  else if key = code 'n' then .searchNext
  else if key = 0x1b then .escape
  else .unknown

/-- The body of a case of the switch in `vi_handle_normal_key`. -/
def NormalCommand.perform (command : NormalCommand) (e : Editor) : Editor :=
  let b := e.doc
  match command with
  | .up => viMoveUp e
  | .down => viMoveDown e
  | .left => viMoveLeft e
  | .right =>
    if b.cursorCol + 1 < b.current.length then { e with doc := b.moveTo b.cursorRow (b.cursorCol + 1) }
    else e
  | .lineStart => { e with doc := b.moveTo b.cursorRow 0 }
  | .lineEnd => { e with doc := b.moveTo b.cursorRow b.current.lastColumn }
  | .wordForward => { e with doc := viMoveWordForward b }
  | .wordBackward => { e with doc := viMoveWordBackward b }
  | .lastLine => viClampCursor { e with doc := b.moveTo (b.lineCount - 1) b.cursorCol }
  | .pendingG => { e with pendingCommand := code 'g' }
  | .insert => viStartInsert b.cursorCol true e
  | .append =>
    viStartInsert (if b.cursorCol < b.current.length then b.cursorCol + 1 else b.cursorCol) true e
  | .insertAtStart => viStartInsert 0 true e
  | .appendAtEnd => viStartInsert b.current.length true e
  | .openBelow => viOpenLine (b.cursorRow + 1) e
  | .openAbove => viOpenLine b.cursorRow e
  | .delete => viClampCursor (viDeleteAtCursor e)
  | .deleteBefore =>
    if b.cursorCol > 0 then viDeleteAtCursor { e with doc := b.moveTo b.cursorRow (b.cursorCol - 1) }
    else e
  | .join => viJoinLines e
  | .paste below => viPaste below e
  | .undo => viUndo e
  | .prompt mode => viClearStatus { e with mode := mode, command := [] }
  | .searchNext => viSearchForward e
  | .escape => viClearStatus { e with pendingCommand := 0 }
  | .unknown => { e with pendingCommand := 0 }

/-- `vi_handle_normal_key` behind the keys that wait for a second one. -/
def viHandleSingleKey (key : ℕ) (e : Editor) : Editor :=
  if key = code 'd' ∨ key = code 'y' then { e with pendingCommand := key }
  else (normalCommand key).perform e

/-- `vi_handle_normal_key`. -/
def viHandleNormalKey (key : ℕ) (e : Editor) : Editor :=
  let command := e.pendingCommand
  if command = 0x100 then { e with pendingCommand := 0 }
  else if command = code 'g' then
    let e := { e with pendingCommand := 0 }
    if key = code 'g' then { e with doc := e.doc.moveTo 0 0 } else viHandleSingleKey key e
  else if command = code 'd' ∨ command = code 'y' then
    let e := { e with pendingCommand := 0 }
    if key = command then if command = code 'd' then viDeleteLine e else viYankLine e else e
  else viHandleSingleKey key e

/-! ## A session -/

/-- The static variables before the program starts. -/
def Editor.blank : Editor :=
  let zero : Buffer := ⟨fun _ => ⟨fun _ => 0, 0⟩, 0, 0, 0, false⟩
  ⟨zero, zero, false, .normal, 0, [], ⟨fun _ => 0, 0⟩, false, [], [], []⟩

/-- `_start` up to the loop over the keys; `argument` is `argv[0]`, and the result is missing if
the program exits. -/
def viStart (files : Files World) (argc : ℤ) (argument : Option Text) (world : World) :
    Option (Editor × World) :=
  if argc < 0 ∨ argc > 1 then none
  else if argc = 1 then
    match argument with
    | none => none
    | some [] => none
    | some name =>
      if name.length ≥ viPathCapacity then none
      else
        match viLoadFile files name { Editor.blank with filename := name } world with
        | (true, e, world) => some ({ e with mode := .normal, status := [], pendingCommand := 0 }, world)
        | (false, _, _) => none
  else some ({ Editor.blank with doc := Editor.blank.doc.reset }, world)

/-- A round of the loop over the keys: the key zero is none. -/
def viKey (files : Files World) (key : ℕ) (s : Editor × World) : Editor × World :=
  if key = 0 then s
  else
    match s.1.mode with
    | .insert => (viHandleInsertKey key s.1, s.2)
    | .command | .search => viHandleCommandKey files key s.1 s.2
    | .normal => (viHandleNormalKey key s.1, s.2)

/-- The loop over the keys, which ends when a command asks for it. -/
def viRun (files : Files World) : List ℕ → Editor × World → Editor × World
  | [], s => s
  | key :: rest, s =>
    let s := viKey files key s
    if s.1.pendingCommand = 0x100 then s else viRun files rest s

end Windoge.Vi
