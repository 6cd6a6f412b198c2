import Windoge.Vi.Editor

/-!
# The limits of the document

Every edit checks the limit that it could break, so a document that keeps the limits of its arrays
keeps them under every key. The lines and the size are bounded apart from the cursor, because an
edit moves the cursor only after it has changed the lines.
-/

namespace Windoge.Vi

open Script (Text text)
open Shifting Function Buffer Finset Row

/-- A line fits into its array, with the NUL behind it. -/
def Row.Terminated (r : Row) : Prop := r.length ≤ 255 ∧ r.bytes r.length = 0

/-- The lines fit into the arrays and the document fits into a file. -/
structure Buffer.Sized (b : Buffer) : Prop where
  count_pos : 1 ≤ b.lineCount
  count_le : b.lineCount ≤ 2048
  terminated : ∀ row < b.lineCount, (b.rows row).Terminated
  size_le : viDocumentSize b ≤ 65536

/-- The lines fit and the cursor is on one of them, at most behind its last character. -/
structure Buffer.Bounded (b : Buffer) : Prop extends b.Sized where
  row_lt : b.cursorRow < b.lineCount
  col_le : b.cursorCol ≤ (b.rows b.cursorRow).length

/-- The document, the copy for undo and the yanked line are within their limits. -/
structure Editor.Bounded (e : Editor) : Prop where
  doc : e.doc.Bounded
  undo : e.undoValid = true → e.undo.Bounded
  yank : e.yankValid = true → e.yank.Terminated

/-! ## Sizes -/

/-- The lengths of the lines, added up. -/
def Buffer.total (b : Buffer) : ℕ := ∑ row ∈ Finset.range b.lineCount, (b.rows row).length

/-- Adding in a loop is the sum. -/
theorem foldl_add_eq (f : ℕ → ℕ) (start n : ℕ) :
    (List.range n).foldl (fun size row => size + f row) start = start + ∑ row ∈ range n, f row := by
  induction n with
  | zero => rfl
  | succ n ih =>
    rw [List.range_succ, List.foldl_append, ih, sum_range_succ]
    simp only [List.foldl_cons, List.foldl_nil]
    omega

/-- The size of a document: its lines and the newlines between them. -/
theorem viDocumentSize_eq (b : Buffer) : viDocumentSize b = b.lineCount - 1 + b.total := by
  rw [viDocumentSize, foldl_add_eq, total]
  by_cases hcount : b.lineCount = 0
  · simp [hcount]
  · rw [if_neg hcount]

variable {row column other separator : ℕ} {r : Row}

/-- Another line in a place changes the total by the two lengths. -/
theorem Buffer.total_setRow {b : Buffer} (hrow : row < b.lineCount) (r : Row) :
    (b.setRow row r).total + (b.rows row).length = b.total + r.length :=
  sum_update length b.rows r hrow

/-- An empty line adds nothing to the total. -/
theorem Buffer.total_insertRow {b : Buffer} (hrow : row ≤ b.lineCount) : (b.insertRow row).total = b.total :=
  sum_openGap length b.rows _ hrow

/-- A line that goes takes its length from the total. -/
theorem Buffer.total_removeRow {b : Buffer} (hrow : row < b.lineCount) :
    (b.removeRow row).total + (b.rows row).length = b.total :=
  sum_closeGap length b.rows hrow

/-! ## Lines -/

/-- A cleared line is empty. -/
theorem Row.cleared_terminated (r : Row) : r.cleared.Terminated := ⟨zero_le, update_self 0 0 r.bytes⟩

/-- A short line has room for a character. -/
theorem Row.insertAt_terminated (hlength : r.length < 255) (column : ℕ) (c : UInt8) :
    (r.insertAt column c).Terminated :=
  ⟨hlength, update_self _ _ _⟩

/-- A line keeps its end without one of its characters. -/
theorem Row.Terminated.deleteAt (h : r.Terminated) (column : ℕ) : (r.deleteAt column).Terminated :=
  ⟨le_trans (Nat.sub_le _ _) h.1, update_self _ _ _⟩

/-- A line cut off at a column ends there. -/
theorem Row.Terminated.cut (hcolumn : column ≤ 255) : (r.cut column).Terminated := ⟨hcolumn, update_self _ _ _⟩

/-- The tail of a line fits where the line does. -/
theorem Row.Terminated.tailInto {source : Row} (h : source.Terminated) (target : Row) (column : ℕ) :
    (target.tailInto source column).Terminated :=
  ⟨le_trans (Nat.sub_le _ _) h.1, update_self _ _ _⟩

/-- Two lines joined end where the second one did. -/
theorem Row.Terminated.joined {left right : Row} (h : right.Terminated)
    (hlength : left.length + separator + right.length ≤ 255) :
    (left.joined right separator).Terminated := by
  refine ⟨hlength, ?_⟩
  simp only [Row.joined, blit]
  rw [if_pos (by omega), Nat.add_sub_cancel_left]
  exact h.2

/-- A copy of a line has its end. -/
theorem Row.Terminated.copied (h : r.Terminated) (bytes : ℕ → UInt8) :
    Row.Terminated ⟨blit bytes 0 r.bytes (r.length + 1), r.length⟩ := by
  refine ⟨h.1, ?_⟩
  simp only [blit]
  rw [if_pos (by omega)]
  exact h.2

/-! ## The lines after a change -/

/-- The line that was set. -/
theorem Buffer.setRow_self (b : Buffer) (row : ℕ) (r : Row) : (b.setRow row r).rows row = r := update_self _ _ _

/-- The lines that were not set. -/
theorem Buffer.setRow_of_ne (b : Buffer) (hne : other ≠ row) (r : Row) :
    (b.setRow row r).rows other = b.rows other :=
  update_of_ne hne _ _

/-- The line that came in is empty. -/
theorem Buffer.insertRow_self (b : Buffer) (row : ℕ) : ((b.insertRow row).rows row).length = 0 := by
  simp only [insertRow, update_self, cleared]

/-- The lines before the one that came in. -/
theorem Buffer.insertRow_below (b : Buffer) (hlt : other < row) :
    (b.insertRow row).rows other = b.rows other := by
  simp only [insertRow]
  rw [update_of_ne (by omega), openGap_apply, if_neg (by omega)]

/-- The lines before the one that went. -/
theorem Buffer.removeRow_below (b : Buffer) (hlt : other < row) :
    (b.removeRow row).rows other = b.rows other := by
  simp only [removeRow]
  rw [closeGap_apply, if_neg (by omega)]

variable {b : Buffer}

section

variable (h : ∀ row < b.lineCount, (b.rows row).Terminated)
include h

/-- Lines keep their ends when one is set. -/
theorem terminated_setRow (hr : r.Terminated) : ∀ other < (b.setRow row r).lineCount,
      ((b.setRow row r).rows other).Terminated := by
  intro other hother
  by_cases heq : other = row
  · rwa [heq, setRow_self]
  · rw [setRow_of_ne b heq]
    exact h other hother

/-- Lines keep their ends when an empty one comes in. -/
theorem terminated_insertRow (hrow : row ≤ b.lineCount) :
    ∀ other < (b.insertRow row).lineCount, ((b.insertRow row).rows other).Terminated := by
  intro other hother
  change other < b.lineCount + 1 at hother
  by_cases heq : other = row
  · subst heq
    simp only [insertRow, update_self]
    exact cleared_terminated _
  · simp only [insertRow]
    rw [update_of_ne heq, openGap_apply]
    split_ifs
    · exact h (other - 1) (by omega)
    · exact h other (by omega)

/-- Lines keep their ends when one goes. -/
theorem terminated_removeRow (row : ℕ) :
    ∀ other < (b.removeRow row).lineCount, ((b.removeRow row).rows other).Terminated := by
  intro other hother
  change other < b.lineCount - 1 at hother
  simp only [removeRow]
  rw [closeGap_apply]
  split_ifs
  · exact h (other + 1) (by omega)
  · exact h other (by omega)

end

/-- The lines stay within the limits if the document with the new line does. -/
theorem Buffer.Sized.setRow (h : b.Sized) (hrow : row < b.lineCount) (hr : r.Terminated)
    (hsize : viDocumentSize b + r.length ≤ 65536 + (b.rows row).length) : (b.setRow row r).Sized := by
  refine ⟨h.count_pos, h.count_le, terminated_setRow h.terminated hr, ?_⟩
  have htotal := total_setRow hrow r
  rw [viDocumentSize_eq] at hsize ⊢
  change b.lineCount - 1 + (b.setRow row r).total ≤ 65536
  omega

/-- The lines stay within the limits when an empty one comes in and both limits allow it. -/
theorem Buffer.Sized.insertRow (h : b.Sized) (hrow : row ≤ b.lineCount) (hcount : b.lineCount < 2048)
    (hsize : viDocumentSize b < 65536) : (b.insertRow row).Sized := by
  have htotal := total_insertRow hrow
  refine ⟨Nat.le_add_left _ _, hcount, terminated_insertRow h.terminated hrow, ?_⟩
  rw [viDocumentSize_eq] at hsize ⊢
  change b.lineCount + 1 - 1 + (b.insertRow row).total ≤ 65536
  omega

/-- An empty line adds its newline to the document. -/
theorem viDocumentSize_insertRow (hpos : 1 ≤ b.lineCount) (hrow : row ≤ b.lineCount) :
    viDocumentSize (b.insertRow row) = viDocumentSize b + 1 := by
  rw [viDocumentSize_eq, viDocumentSize_eq, total_insertRow hrow]
  change b.lineCount + 1 - 1 + b.total = _
  omega

namespace Buffer

/-- The lines stay within the limits when one of several goes. -/
theorem Sized.removeRow (h : b.Sized) (hrow : row < b.lineCount) (hcount : 2 ≤ b.lineCount) :
    (b.removeRow row).Sized := by
  have htotal := total_removeRow hrow
  have hsize := h.size_le
  have hle := h.count_le
  refine ⟨Nat.le_sub_of_add_le hcount, le_trans (Nat.sub_le _ _) hle, terminated_removeRow h.terminated row, ?_⟩
  rw [viDocumentSize_eq] at hsize ⊢
  change b.lineCount - 1 - 1 + (b.removeRow row).total ≤ 65536
  omega

/-- The document of one empty line is within the limits. -/
theorem sized_of_empty (hcount : b.lineCount = 1) (hrow : (b.rows 0).length = 0)
    (hnul : (b.rows 0).bytes 0 = 0) : b.Sized := by
  refine ⟨by omega, by omega, fun row hlt => ?_, ?_⟩
  · obtain rfl : row = 0 := by omega
    exact ⟨by omega, by rw [hrow]; exact hnul⟩
  · rw [viDocumentSize_eq, total, hcount, sum_range_one, hrow]
    omega

/-- Two neighbouring lines joined in the place of the first. -/
theorem Sized.joinRows (h : b.Sized) (hrow : row + 1 < b.lineCount) (hseparator : separator ≤ 1)
    (hlength : (b.rows row).length + separator + (b.rows (row + 1)).length ≤ 255) :
    ((b.setRow row ((b.rows row).joined (b.rows (row + 1)) separator)).removeRow (row + 1)).Sized := by
  set joined := (b.rows row).joined (b.rows (row + 1)) separator
  have hjoined : joined.Terminated := (h.terminated (row + 1) hrow).joined hlength
  have hset := total_setRow (show row < b.lineCount by omega) joined
  have hremove := total_removeRow (show row + 1 < (b.setRow row joined).lineCount from hrow)
  rw [setRow_of_ne b (by omega)] at hremove
  have hjoinedLength : joined.length = (b.rows row).length + separator + (b.rows (row + 1)).length := rfl
  have hsize := h.size_le
  have hle := h.count_le
  refine ⟨?_, ?_, terminated_removeRow (terminated_setRow h.terminated hjoined) (row + 1), ?_⟩
  · change 1 ≤ b.lineCount - 1
    omega
  · change b.lineCount - 1 ≤ 2048
    omega
  · rw [viDocumentSize_eq] at hsize ⊢
    change b.lineCount - 1 - 1 + ((b.setRow row joined).removeRow (row + 1)).total ≤ 65536
    omega

/-! ## The cursor -/

/-- A document with lines is left alone. -/
theorem nonempty_of_pos (hpos : 1 ≤ b.lineCount) : b.nonempty = b := by
  rw [Buffer.nonempty, if_neg (by omega)]

/-- The limits of the lines do not depend on the cursor. -/
theorem Sized.anyCursor (h : b.Sized) (row column : ℕ) : (b.moveTo row column).Sized :=
  ⟨h.count_pos, h.count_le, h.terminated, h.size_le⟩

/-- The cursor is on a line after it was clamped. -/
theorem Sized.clampCursor (h : b.Sized) (mode : Mode) : (b.clampCursor mode).Bounded := by
  have hpos := h.count_pos
  rw [Buffer.clampCursor, Buffer.nonempty_of_pos hpos]
  set placed := if b.cursorRow ≥ b.lineCount then b.moveTo (b.lineCount - 1) b.cursorCol else b
    with hplaced
  have hrow : placed.Sized ∧ placed.cursorRow < placed.lineCount := by
    by_cases hout : b.cursorRow ≥ b.lineCount
    · rw [hplaced, if_pos hout]
      exact ⟨h.anyCursor _ _, Nat.sub_lt hpos Nat.one_pos⟩
    · rw [hplaced, if_neg hout]
      exact ⟨h, lt_of_not_ge hout⟩
  obtain ⟨hsized, hlt⟩ := hrow
  have hmoved (column : ℕ) (hcolumn : column ≤ placed.current.length) :
      (placed.moveTo placed.cursorRow column).Bounded :=
    ⟨hsized.anyCursor _ _, hlt, hcolumn⟩
  split_ifs with hlast hbehind
  · exact hmoved _ (Nat.sub_le _ _)
  · exact hmoved _ le_rfl
  · exact ⟨hsized, hlt, le_of_not_gt hbehind⟩

/-- A cursor on a line is within its bounds. -/
theorem Sized.moveTo (h : b.Sized) (hrow : row < b.lineCount)
    (hcolumn : column ≤ (b.rows row).length) : (b.moveTo row column).Bounded :=
  ⟨h.anyCursor row column, hrow, hcolumn⟩

/-- Marking a change keeps the limits. -/
theorem Sized.changed (h : b.Sized) : b.changed.Sized := ⟨h.count_pos, h.count_le, h.terminated, h.size_le⟩

/-- Marking a change keeps the cursor within its bounds. -/
theorem Bounded.changed (h : b.Bounded) : b.changed.Bounded := ⟨h.toSized.changed, h.row_lt, h.col_le⟩

/-- A copy of a bounded buffer is bounded, whatever it is written over. -/
theorem Bounded.copyOver (h : b.Bounded) (target : Buffer) : (b.copyOver target).Bounded := by
  have hrows : ∀ row < b.lineCount, (b.copyOver target).rows row = b.rows row := by
    intro row hrow
    simp only [Buffer.copyOver, blit]
    rw [if_pos (by omega), Nat.sub_zero]
  refine ⟨⟨h.count_pos, h.count_le, ?_, ?_⟩, h.row_lt, ?_⟩
  · intro row hrow
    rw [hrows row hrow]
    exact h.terminated row hrow
  · have hsize := h.size_le
    rw [viDocumentSize_eq] at hsize ⊢
    have htotal : (b.copyOver target).total = b.total :=
      sum_congr rfl fun row hrow => by rw [hrows row (mem_range.mp hrow)]
    rwa [htotal]
  · change b.cursorCol ≤ ((b.copyOver target).rows b.cursorRow).length
    rw [hrows _ h.row_lt]
    exact h.col_le

/-- The current line may be replaced by one for which there is room. -/
theorem Bounded.replaceCurrent (h : b.Bounded) (hr : r.Terminated) (column : ℕ)
    (hcolumn : column ≤ r.length) (hsize : viDocumentSize b + r.length ≤ 65536 + b.current.length) :
    ((b.setRow b.cursorRow r).moveTo b.cursorRow column).changed.Bounded := by
  refine Buffer.Bounded.changed (Buffer.Sized.moveTo (h.toSized.setRow h.row_lt hr hsize) h.row_lt ?_)
  rwa [setRow_self]

/-- The cursor may go to any column of its line. -/
theorem Bounded.moveColumn (h : b.Bounded) (hcolumn : column ≤ b.current.length) :
    (b.moveTo b.cursorRow column).Bounded :=
  h.toSized.moveTo h.row_lt hcolumn

end Buffer

/-!
## Every edit keeps the limits

One lemma for each edit and each motion. An edit that saves the document for undo first saves a
bounded one, so undo comes back to a bounded one too.
-/

open List

variable {e : Editor} {place : ℕ × ℕ} {needle : Text} {column : ℕ}

namespace Editor.Bounded

variable (h : e.Bounded)
include h

/-- The bounds of the document are all that matters when it changes. -/
theorem withDoc (hb : b.Bounded) : Editor.Bounded { e with doc := b } := ⟨hb, h.undo, h.yank⟩

/-- A message keeps the bounds. -/
theorem setStatus (message : Text) : (viSetStatus message e).Bounded := by
  rw [viSetStatus]
  split_ifs
  · exact h
  · exact ⟨h.doc, h.undo, h.yank⟩

/-- Clearing the message keeps the bounds. -/
theorem clearStatus : (viClearStatus e).Bounded := ⟨h.doc, h.undo, h.yank⟩

/-- A change of mode keeps the bounds. -/
theorem setMode (mode : Mode) : Editor.Bounded { e with mode := mode } := ⟨h.doc, h.undo, h.yank⟩

/-- A key that waits for another keeps the bounds. -/
theorem setPending (pending : ℕ) : Editor.Bounded { e with pendingCommand := pending } := ⟨h.doc, h.undo, h.yank⟩

/-- Typing a command keeps the bounds. -/
theorem setCommand (command : Text) : Editor.Bounded { e with command := command } := ⟨h.doc, h.undo, h.yank⟩

/-- A new search text keeps the bounds. -/
theorem setSearch (needle : Text) : Editor.Bounded { e with search := needle } := ⟨h.doc, h.undo, h.yank⟩

/-- A new file name keeps the bounds. -/
theorem setFilename (filename : Text) : Editor.Bounded { e with filename := filename } := ⟨h.doc, h.undo, h.yank⟩

/-- The copy for undo is within the bounds. -/
theorem beginUndo : (viBeginUndo e).Bounded := ⟨h.doc, fun _ => h.doc.copyOver e.undo, h.yank⟩

/-- Undo brings back a document within the bounds. -/
theorem undone : (viUndo e).Bounded := by
  rw [viUndo]
  split_ifs with hvalid
  · refine setStatus (e := { e with doc := e.undo.copyOver e.doc, undoValid := false }) ?_ _
    exact ⟨(h.undo hvalid).copyOver e.doc, nofun, h.yank⟩
  · exact h.setStatus _

/-- Clamping the cursor keeps the bounds. -/
theorem clampCursor : (viClampCursor e).Bounded := h.withDoc (h.doc.toSized.clampCursor e.mode)

/-! ## Edits -/

/-- A character goes in only where there is room. -/
theorem insertCharacter (character : UInt8) : (viInsertCharacter character e).Bounded := by
  rw [viInsertCharacter]
  split_ifs with hlimit
  · exact h.setStatus _
  have hlength := Nat.lt_of_not_le fun hle => hlimit (.inl hle)
  have hsize : viDocumentSize e.doc < 65536 := Nat.lt_of_not_le fun hle => hlimit (.inr hle)
  refine h.withDoc (h.doc.replaceCurrent (insertAt_terminated hlength _ _) _ ?_ ?_)
  · exact Nat.succ_le_succ h.doc.col_le
  · change viDocumentSize e.doc + (e.doc.current.length + 1) ≤ _
    omega

/-- Deleting a character keeps the bounds. -/
theorem deleteAtCursor : (viDeleteAtCursor e).Bounded := by
  rw [viDeleteAtCursor]
  split_ifs with hnone
  · exact h
  have hcolumn := Nat.lt_of_not_le fun hle => hnone (.inr hle)
  have hterminated := h.doc.terminated _ h.doc.row_lt
  have hsize := h.doc.size_le
  refine h.beginUndo.withDoc (h.doc.replaceCurrent (hterminated.deleteAt _) e.doc.cursorCol ?_ ?_)
  · exact Nat.le_sub_one_of_lt hcolumn
  · change viDocumentSize e.doc + (e.doc.current.length - 1) ≤ _
    omega

/-- Deleting a line keeps the bounds, also with the last one. -/
theorem deleteLine : (viDeleteLine e).Bounded := by
  rw [viDeleteLine]
  split_ifs
  · exact h
  have hsized : (e.doc.removeRow e.doc.cursorRow).nonempty.Sized := by
    by_cases hone : e.doc.lineCount = 1
    · have hnone : (e.doc.removeRow e.doc.cursorRow).lineCount = 0 := by
        change e.doc.lineCount - 1 = 0
        omega
      rw [nonempty, if_pos hnone]
      set empty := ((e.doc.removeRow e.doc.cursorRow).rows 0).cleared
      have hrow : ((e.doc.removeRow e.doc.cursorRow).setRow 0 empty).rows 0 = empty := setRow_self _ _ _
      exact sized_of_empty rfl (congrArg Row.length hrow)
        ((congrFun (congrArg Row.bytes hrow) 0).trans (Row.cleared_terminated _).2)
    · have hpos := h.doc.count_pos
      have hremoved := h.doc.toSized.removeRow h.doc.row_lt (by omega)
      rwa [nonempty_of_pos hremoved.count_pos]
  exact h.beginUndo.withDoc ((hsized.anyCursor e.doc.cursorRow 0).changed.clampCursor _)

/-- Lines are joined only where the result fits. -/
theorem joinLines : (viJoinLines e).Bounded := by
  rw [viJoinLines]
  split_ifs with hlast
  · exact h
  set separator :=
    if e.doc.current.length > 0 ∧ (e.doc.rows (e.doc.cursorRow + 1)).length > 0 then 1 else 0
    with hdefine
  have hseparator : separator ≤ 1 := by
    rw [hdefine]
    split_ifs <;> decide
  by_cases hlong : e.doc.current.length + separator + (e.doc.rows (e.doc.cursorRow + 1)).length ≥ viLineCapacity
  · rw [if_pos hlong]
    exact h.setStatus _
  rw [if_neg hlong]
  have hsized := h.doc.toSized.joinRows (Nat.lt_of_not_le hlast) hseparator
    (Nat.le_of_lt_succ (Nat.lt_of_not_le hlong))
  refine h.beginUndo.withDoc (Buffer.Bounded.changed ⟨hsized, ?_, ?_⟩)
  · exact Nat.lt_sub_of_add_lt (Nat.lt_of_not_le hlast)
  · change e.doc.cursorCol ≤ (((e.doc.setRow _ _).removeRow _).rows e.doc.cursorRow).length
    rw [removeRow_below _ (Nat.lt_succ_self _), setRow_self]
    have hcolumn := h.doc.col_le
    change e.doc.cursorCol ≤ (e.doc.rows e.doc.cursorRow).length + separator + _
    omega

/-- Backspace deletes a character or joins two lines that fit. -/
theorem backspaceInsert : (viBackspaceInsert e).Bounded := by
  rw [viBackspaceInsert]
  have hsize := h.doc.size_le
  have hcolumn := h.doc.col_le
  by_cases hinside : e.doc.cursorCol > 0
  · rw [if_pos hinside]
    have hterminated := h.doc.terminated _ h.doc.row_lt
    refine h.withDoc (h.doc.replaceCurrent (hterminated.deleteAt _) _ ?_ ?_)
    · exact Nat.sub_le_sub_right hcolumn 1
    · change viDocumentSize e.doc + (e.doc.current.length - 1) ≤ _
      omega
  · rw [if_neg hinside]
    split_ifs
    · by_cases hlong : (e.doc.rows (e.doc.cursorRow - 1)).length + e.doc.current.length ≥ viLineCapacity
      · rw [if_pos hlong]
        exact h.setStatus _
      rw [if_neg hlong]
      obtain ⟨row, hrow⟩ : ∃ row, e.doc.cursorRow = row + 1 := ⟨e.doc.cursorRow - 1, by omega⟩
      have hlt := hrow ▸ h.doc.row_lt
      rw [current, hrow, Nat.add_sub_cancel] at hlong ⊢
      have hsized := h.doc.toSized.joinRows hlt (Nat.zero_le 1) (Nat.le_of_lt_succ (Nat.lt_of_not_le hlong))
      refine h.beginUndo.withDoc (hsized.moveTo (Nat.lt_sub_of_add_lt hlt) ?_).changed
      rw [removeRow_below _ (Nat.lt_succ_self _), setRow_self]
      exact le_self_add
    · exact h

/-- Insert mode starts within the current line. -/
theorem startInsert (hcolumn : column ≤ e.doc.current.length) (saveUndo : Bool) :
    (viStartInsert column saveUndo e).Bounded := by
  rw [viStartInsert]
  cases saveUndo with
  | false => exact ((h.withDoc (h.doc.moveColumn hcolumn)).setMode .insert).clearStatus
  | true => exact ((h.beginUndo.withDoc (h.doc.moveColumn hcolumn)).setMode .insert).clearStatus

omit h in
/-- `vi_insert_line` refuses and keeps the document, or the limits allow the line. -/
theorem insertLine_cases (row : ℕ) (e : Editor) :
    (∃ message, viInsertLine row e = (false, viSetStatus message e)) ∨
      (e.doc.lineCount < 2048 ∧ viDocumentSize e.doc < 65536 ∧
        viInsertLine row e = (true, { e with doc := (e.doc.insertRow row).changed })) := by
  rw [viInsertLine]
  split_ifs with hlimit
  · exact .inl ⟨_, rfl⟩
  · exact .inr ⟨Nat.lt_of_not_le fun hle => hlimit (.inl hle), Nat.lt_of_not_le fun hle => hlimit (.inr hle), rfl⟩

/-- A new line keeps the bounds. -/
theorem openLine {row : ℕ} (hrow : row ≤ e.doc.lineCount) : (viOpenLine row e).Bounded := by
  rw [viOpenLine]
  rcases insertLine_cases row (viBeginUndo e) with ⟨message, hrefused⟩ | ⟨hcount, hsize, hdone⟩
  · rw [hrefused]
    exact h.beginUndo.setStatus message
  rw [hdone]
  have hsized := h.doc.toSized.insertRow hrow hcount hsize
  exact ⟨(hsized.moveTo (Nat.lt_succ_of_le hrow) zero_le).changed, fun _ => h.beginUndo.undo rfl, h.yank⟩

/-- Splitting a line keeps the bounds. -/
theorem splitLine : (viSplitLine e).Bounded := by
  rw [viSplitLine]
  rcases insertLine_cases (e.doc.cursorRow + 1) e with ⟨message, hrefused⟩ | ⟨hcount, hsize, hdone⟩
  · rw [hrefused]
    exact h.setStatus message
  rw [hdone]
  set row := e.doc.cursorRow
  set column := e.doc.cursorCol
  have hrow := h.doc.row_lt
  have hline : (e.doc.insertRow (row + 1)).rows row = e.doc.rows row := insertRow_below _ (Nat.lt_succ_self row)
  have hterminated := h.doc.terminated row h.doc.row_lt
  have hcolumn : column ≤ (e.doc.rows row).length := h.doc.col_le
  set opened := e.doc.insertRow (row + 1)
  set tail := (opened.rows (row + 1)).tailInto (opened.rows row) column with htail
  set split := (opened.setRow (row + 1) tail).setRow row
    (((opened.setRow (row + 1) tail).rows row).cut column) with hsplit
  have hopened := h.doc.toSized.insertRow hrow hcount hsize
  have htailLength : tail.length = (e.doc.rows row).length - column := by
    rw [htail, hline]
    rfl
  have hrows : ∀ other < split.lineCount, (split.rows other).Terminated := by
    refine terminated_setRow (terminated_setRow hopened.terminated ?_) ?_
    · rw [htail, hline]
      exact hterminated.tailInto _ _
    · exact Row.Terminated.cut (le_trans hcolumn hterminated.1)
  have hsized : split.Sized := by
    refine ⟨hopened.count_pos, hopened.count_le, hrows, ?_⟩
    have hfirst := total_setRow (show row + 1 < opened.lineCount from Nat.lt_succ_of_le hrow) tail
    have hsecond := total_setRow
      (show row < (opened.setRow (row + 1) tail).lineCount from Nat.lt_succ_of_lt h.doc.row_lt)
      (((opened.setRow (row + 1) tail).rows row).cut column)
    have hkept : (opened.setRow (row + 1) tail).rows row = e.doc.rows row := by
      rw [setRow_of_ne _ (ne_of_lt (Nat.lt_succ_self row)), hline]
    rw [insertRow_self] at hfirst
    have hopenedSize := viDocumentSize_insertRow h.doc.count_pos hrow
    rw [viDocumentSize_eq opened] at hopenedSize
    rw [viDocumentSize_eq]
    change (opened.lineCount - 1) + split.total ≤ 65536
    change split.total + _ = _ + column at hsecond
    rw [hkept] at hsecond
    omega
  exact h.withDoc (hsized.moveTo (Nat.succ_lt_succ h.doc.row_lt) zero_le).changed

/-- The yanked line fits its array. -/
theorem yankLine : (viYankLine e).Bounded := by
  have hline := (h.doc.terminated _ h.doc.row_lt).copied e.yank.bytes
  rw [viYankLine]
  refine setStatus ?_ _
  exact ⟨h.doc, h.undo, fun _ => hline⟩

/-- A line is pasted only where there is room. -/
theorem paste (below : Bool) : (viPaste below e).Bounded := by
  rw [viPaste]
  by_cases hyank : e.yankValid = true
  · rw [if_pos hyank]
    set target := if below then e.doc.cursorRow + 1 else e.doc.cursorRow with htarget
    have hrow : target ≤ e.doc.lineCount := by
      have hlt := h.doc.row_lt
      rw [htarget]
      split_ifs <;> omega
    by_cases hlimit : e.doc.lineCount ≥ viMaxLines ∨ viDocumentSize e.doc + 1 + e.yank.length > viFileCapacity
    · rw [if_pos hlimit]
      exact h.setStatus _
    rw [if_neg hlimit]
    have hroom : viDocumentSize e.doc + 1 + e.yank.length ≤ 65536 := le_of_not_gt fun hlt => hlimit (.inr hlt)
    rcases insertLine_cases target (viBeginUndo e) with ⟨message, hrefused⟩ | ⟨hcount, hsize, hdone⟩
    · rw [hrefused]
      exact h.beginUndo.setStatus message
    rw [hdone]
    have hopened := h.doc.toSized.insertRow hrow hcount hsize
    have hopenedSize := viDocumentSize_insertRow h.doc.count_pos hrow
    have hpasted := hopened.setRow (Nat.lt_succ_of_le hrow)
      ((h.yank hyank).copied ((e.doc.insertRow target).rows target).bytes) (by
        change viDocumentSize (e.doc.insertRow target) + e.yank.length ≤ _
        omega)
    exact h.beginUndo.withDoc (hpasted.moveTo (Nat.lt_succ_of_le hrow) zero_le).changed
  · rwa [if_neg hyank]

/-! ## Motions -/

/-- Moving up keeps the bounds. -/
theorem moveUp : (viMoveUp e).Bounded := by
  rw [viMoveUp]
  split_ifs
  · exact h.withDoc ((h.doc.toSized.anyCursor _ _).clampCursor e.mode)
  · exact h.clampCursor

/-- Moving down keeps the bounds. -/
theorem moveDown : (viMoveDown e).Bounded := by
  rw [viMoveDown]
  split_ifs
  · exact h.withDoc ((h.doc.toSized.anyCursor _ _).clampCursor e.mode)
  · exact h.clampCursor

/-- Moving left keeps the bounds. -/
theorem moveLeft : (viMoveLeft e).Bounded := by
  rw [viMoveLeft]
  split_ifs
  · exact h.withDoc (h.doc.moveColumn (le_trans (Nat.sub_le _ _) h.doc.col_le))
  · exact h

end Editor.Bounded

/-- The last column is one of the line. -/
theorem Row.lastColumn_le (r : Row) : r.lastColumn ≤ r.length := by
  rw [lastColumn]
  split_ifs <;> omega

/-- The next word starts on a character of one of the lines looked at. -/
theorem wordForwardFrom_le {lines row : ℕ} (h : wordForwardFrom b lines row column = some place) :
    place.1 < row + lines ∧ place.2 ≤ (b.rows place.1).length := by
  induction lines generalizing row column with
  | zero => cases h
  | succ lines ih =>
    rw [wordForwardFrom] at h
    split_ifs at h with hfound
    · cases h
      exact ⟨by omega, Nat.le_of_lt hfound⟩
    · obtain ⟨hrow, hcolumn⟩ := ih h
      exact ⟨by omega, hcolumn⟩

/-- The next word is within the bounds. -/
theorem Buffer.Bounded.moveWordForward (h : b.Bounded) : (viMoveWordForward b).Bounded := by
  have hlt := h.row_lt
  rw [viMoveWordForward]
  split
  · rename_i hfound
    obtain ⟨hrow, hcolumn⟩ := wordForwardFrom_le hfound
    exact h.toSized.moveTo (by omega) hcolumn
  · exact h.toSized.moveTo (by omega) (lastColumn_le _)

/-- Going back over blanks stays on the lines. -/
theorem skipBlanksBack_le (b : Buffer) (row column : ℕ) (hcolumn : column ≤ (b.rows row).length) :
    (skipBlanksBack b row column).1 ≤ row ∧
      (skipBlanksBack b row column).2 ≤ (b.rows (skipBlanksBack b row column).1).length := by
  fun_induction skipBlanksBack b row column with
  | case1 hblank => exact ⟨le_rfl, hcolumn⟩
  | case2 row column hblank ih => exact ih (by omega)
  | case3 row hblank ih =>
    obtain ⟨hrow, hplace⟩ := ih (lastColumn_le _)
    exact ⟨by omega, hplace⟩
  | case4 row column hword => exact ⟨le_rfl, hcolumn⟩

/-- A word starts at or before any of its characters. -/
theorem wordStart_le (r : Row) (column : ℕ) : wordStart r column ≤ column := by
  induction column with
  | zero => exact le_rfl
  | succ column ih =>
    rw [wordStart]
    split_ifs <;> omega

/-- The word before is within the bounds. -/
theorem Buffer.Bounded.moveWordBackward (h : b.Bounded) : (viMoveWordBackward b).Bounded := by
  rw [viMoveWordBackward]
  by_cases hfirst : b.cursorRow = 0 ∧ b.cursorCol = 0
  · rwa [if_pos hfirst]
  rw [if_neg hfirst]
  set start := if b.cursorCol > 0 then (b.cursorRow, b.cursorCol - 1)
    else (b.cursorRow - 1, (b.rows (b.cursorRow - 1)).lastColumn) with hdefine
  have hstart : start.1 < b.lineCount ∧ start.2 ≤ (b.rows start.1).length := by
    have hlt := h.row_lt
    have hcolumn := h.col_le
    rw [hdefine]
    split_ifs
    · exact ⟨hlt, by dsimp only; omega⟩
    · exact ⟨by dsimp only; omega, lastColumn_le _⟩
  obtain ⟨hrow, hcolumn⟩ := skipBlanksBack_le b start.1 start.2 hstart.2
  exact h.toSized.moveTo (lt_of_le_of_lt hrow hstart.1) (le_trans (wordStart_le _ _) hcolumn)

/-- A match starts within the line. -/
theorem Row.placesFor_le {r : Row} {start : ℕ} (h : column ∈ r.placesFor needle start)
    (hneedle : needle.length ≠ 0) : column ≤ r.length := by
  rw [placesFor, mem_range'_1] at h
  omega

/-- A match below the cursor is on a line. -/
theorem searchBelow_le (hneedle : needle.length ≠ 0) (hpos : 1 ≤ b.lineCount) {offsets : List ℕ}
    (h : searchBelow b needle offsets = some place) :
    place.1 < b.lineCount ∧ place.2 ≤ (b.rows place.1).length := by
  induction offsets with
  | nil => cases h
  | cons offset rest ih =>
    rw [searchBelow] at h
    split_ifs at h
    all_goals
      split at h
      · rename_i hfound
        cases h
        exact ⟨Nat.mod_lt _ hpos, placesFor_le (mem_of_find?_eq_some hfound) hneedle⟩
      · exact ih h

/-- A match above the cursor is on one of the lines searched. -/
theorem searchAbove_le (hneedle : needle.length ≠ 0) {rows : List ℕ}
    (h : searchAbove b needle rows = some place) :
    place.1 ∈ rows ∧ place.2 ≤ (b.rows place.1).length := by
  induction rows with
  | nil => cases h
  | cons row rest ih =>
    rw [searchAbove] at h
    split at h
    · rename_i hfound
      cases h
      exact ⟨mem_cons_self, placesFor_le (mem_of_find?_eq_some hfound) hneedle⟩
    · exact ⟨mem_cons_of_mem _ (ih h).1, (ih h).2⟩

/-- A search puts the cursor on a match or leaves it. -/
theorem Editor.Bounded.searchForward (h : e.Bounded) : (viSearchForward e).Bounded := by
  rw [viSearchForward]
  split_ifs with hneedle
  · exact h.setStatus _
  split
  · rename_i row column hfound
    have hplace : row < e.doc.lineCount ∧ column ≤ (e.doc.rows row).length := by
      rcases Option.or_eq_some_iff.mp hfound with hbelow | ⟨-, habove⟩
      · exact searchBelow_le hneedle h.doc.count_pos hbelow
      obtain ⟨hmem, hcolumn⟩ := searchAbove_le hneedle habove
      have hrow := List.mem_range.mp hmem
      have hlt := h.doc.row_lt
      exact ⟨by omega, hcolumn⟩
    exact (h.withDoc (h.doc.toSized.moveTo hplace.1 hplace.2)).clearStatus
  · exact h.setStatus _

end Windoge.Vi
