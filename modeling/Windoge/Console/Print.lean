import Windoge.Script.Words

/-!
# Printing to the text screen

The screen has 50 rows of 160 cells, and row 0 is the menu bar. `dogeio_print` handles a text
character by character and the escape sequences in it, in text mode and with a framebuffer. What is
drawn to the framebuffer is left out; `written` is the history of the indices of `text_grid` that
were written.
-/

namespace Windoge.Console

open Script (Text text)

/-- An element of `text_grid`, `text_color_grid` and `bg_color_grid`. -/
structure Cell where
  character : UInt8
  color : ℕ
  background : ℕ
  deriving DecidableEq

/-- The part of the screen that every workspace has for itself. -/
structure Workspace where
  grid : ℕ → Cell
  cursorX : ℕ
  cursorY : ℕ
  color : ℕ
  background : ℕ

/-- The screen, what the menu bar shows, and the indices written so far. -/
structure Screen extends Workspace where
  bar : ℕ → Cell
  written : List ℕ

/-- The index of the cell under the cursor. -/
def Screen.index (s : Screen) : ℕ := s.cursorY * 160 + s.cursorX

/-- The screen with the cursor at a place. -/
def Screen.moveTo (s : Screen) (x y : ℕ) : Screen := { s with cursorX := x, cursorY := y }

/-- `text_grid[cursor_y * TERMINAL_COLS + cursor_x] = c`. -/
def Screen.poke (s : Screen) (c : UInt8) : Screen :=
  { s with
    grid := Function.update s.grid s.index { s.grid s.index with character := c }
    written := s.index :: s.written }

/-- The character that is shown for a byte. -/
def shown (c : UInt8) : UInt8 := if c ≥ 128 then 32 else c

/-- `dogeio_putchar`. -/
def dogeioPutchar (c : UInt8) (x y : ℕ) (s : Screen) : Screen :=
  if x ≥ 160 ∨ y ≥ 50 then s
  else
    { s with
      grid := Function.update s.grid (y * 160 + x) ⟨shown c, s.color, s.background⟩
      written := (y * 160 + x) :: s.written }

/-- The two writes by which a character is put under the cursor. -/
def Screen.draw (s : Screen) (c : UInt8) : Screen := dogeioPutchar c s.cursorX s.cursorY (s.poke c)

/-- `dogeio_clear`. -/
def dogeioClear (s : Screen) : Screen :=
  { s with
    grid := fun i => if i < 8000 then ⟨32, s.color, s.background⟩ else s.grid i
    cursorX := 0
    cursorY := 1
    written := List.range 8000 ++ s.written }

/-- `menubar_draw`: the 160 plain characters of the bar fill row 0, and the cursor comes back. -/
def menubarDraw (s : Screen) : Screen :=
  { s with
    grid := fun i => if i < 160 then s.bar i else s.grid i
    written := List.range 160 ++ s.written }

/-- `dogeio_scroll`: every row but the bar moves up, the last is blank, and all are drawn again. -/
def dogeioScroll (s : Screen) : Screen :=
  menubarDraw { s with
    grid := fun i =>
      if i < 160 then s.grid i
      else if i < 7840 then { s.grid (i + 160) with character := shown (s.grid (i + 160)).character }
      else if i < 8000 then ⟨32, s.color, s.background⟩
      else s.grid i
    written := (List.range 8000).drop 160 ++ s.written }

/-- The cursor at the start of the next row, with a scroll behind the last one. -/
def Screen.newline (s : Screen) : Screen :=
  if s.cursorY + 1 ≥ 50 then (dogeioScroll (s.moveTo 0 (s.cursorY + 1))).moveTo 0 49
  else s.moveTo 0 (s.cursorY + 1)

/-- The cursor on the next row if it is behind the last column. -/
def Screen.wrap (s : Screen) : Screen := if s.cursorX ≥ 160 then s.newline else s

/-- A character under the cursor and the cursor behind it, on the screen. -/
def Screen.put (s : Screen) (c : UInt8) : Screen :=
  if s.cursorX < 160 ∧ s.cursorY < 50 then (s.draw c).moveTo (s.cursorX + 1) s.cursorY else s

/-- The cursor one cell back, but not into the menu bar. -/
def Screen.stepBack (s : Screen) : Screen :=
  if s.cursorX > 0 then s.moveTo (s.cursorX - 1) s.cursorY
  else if s.cursorY > 1 then s.moveTo 159 (s.cursorY - 1)
  else s

/-- `dogeio_printchar`. -/
def dogeioPrintchar (c : UInt8) (s : Screen) : Screen :=
  if c = 10 then (s.draw 32).newline
  else if c = 8 then
    let s := if s.cursorX < 160 ∧ s.cursorY < 50 then
      dogeioPutchar (s.grid s.index).character s.cursorX s.cursorY s else s
    s.stepBack.draw 32
  else if c = 9 then ((((s.put 32).put 32).put 32).put 32).wrap
  else (s.put c).wrap

/-! ## Escape sequences -/

/-- `ansi_colors`. -/
def ansiColors : List ℕ :=
  [0x000000, 0xAA0000, 0x00AA00, 0xAA5500, 0x0000AA, 0xAA00AA, 0x00AAAA, 0xAAAAAA,
   0x555555, 0xFF5555, 0x55FF55, 0xFFFF55, 0x5555FF, 0xFF55FF, 0x55FFFF, 0xFFFFFFFF]

/-- The parameters of an escape sequence with another one, of which four are kept. -/
def addParam (params : List ℕ) (param : ℕ) : List ℕ :=
  if params.length < 4 then params ++ [param] else params

/-- The loop of `parse_ansi_escape`: the parameters, as words of 32 bits, and the text from the
command on. -/
def parseParams : Text → List ℕ → ℕ → List ℕ × Text
  | [], params, _ => (params, [])
  | ch :: rest, params, current =>
    if 48 ≤ ch ∧ ch ≤ 57 then parseParams rest params ((current * 10 + (ch.toNat - 48)) % 2 ^ 32)
    else if ch = 59 then parseParams rest (addParam params current) 0
    else (addParam params current, ch :: rest)

/-- The colours after the command `m` with a parameter. -/
def selectColor (param : ℕ) (s : Screen) : Screen :=
  if param = 0 then { s with color := 0xFFCCCCCC, background := 0x000000 }
  else if 30 ≤ param ∧ param ≤ 37 then { s with color := ansiColors.getD (param - 30) 0 }
  else if 90 ≤ param ∧ param ≤ 97 then { s with color := ansiColors.getD (param - 90 + 8) 0 }
  else if 40 ≤ param ∧ param ≤ 47 then { s with background := ansiColors.getD (param - 40) 0 }
  else if 100 ≤ param ∧ param ≤ 107 then { s with background := ansiColors.getD (param - 100 + 8) 0 }
  else s

/-- The commands of `parse_ansi_escape`. -/
def applyEscape (cmd : UInt8) (params : List ℕ) (s : Screen) : Screen :=
  let first := params.getD 0 0
  let second := params.getD 1 0
  let n := if first = 0 then 1 else first
  if cmd = 109 then selectColor first s
  else if cmd = 74 then if first = 2 then dogeioClear s else s
  else if cmd = 65 then s.moveTo s.cursorX (if s.cursorY ≥ n then s.cursorY - n else 0)
  else if cmd = 66 then
    let y := (s.cursorY + n) % 2 ^ 32
    s.moveTo s.cursorX (if y ≥ 50 then 49 else y)
  else if cmd = 67 then
    let x := (s.cursorX + n) % 2 ^ 32
    s.moveTo (if x ≥ 160 then 159 else x) s.cursorY
  else if cmd = 68 then s.moveTo (if s.cursorX ≥ n then s.cursorX - n else 0) s.cursorY
  else if cmd = 72 ∨ cmd = 102 then
    let y := n - 1
    let x := (if second = 0 then 1 else second) - 1
    s.moveTo (if x < 160 then x else 159) (if y < 50 then y else 49)
  else s

/-- The loop of `dogeio_print` in at most the given number of rounds. -/
def printRounds : ℕ → Text → Screen → Screen
  | 0, _, s => s
  | _ + 1, [], s => s
  | rounds + 1, c :: rest, s =>
    if c = 27 ∧ rest.head? = some 91 then
      match parseParams rest.tail [] 0 with
      | (_, []) => s
      | (params, cmd :: rest) => printRounds rounds rest (applyEscape cmd params s)
    else printRounds rounds rest (dogeioPrintchar c s)

/-- `dogeio_print`. -/
def dogeioPrint (str : Text) (s : Screen) : Screen := printRounds str.length str s

/-- `dogeio_println`. -/
def dogeioPrintln (str : Text) (s : Screen) : Screen := dogeioPrint [10] (dogeioPrint str s)

/-!
## The line editor

`dogeio_input` shows every key of a line at once: it draws the rest of the line from the cursor on
and moves the cursor, each with its own wrapping at the last column and without a scroll at the last
row. A terminal is the screen with the saved screens of the workspaces and the line that is being
read; its events are the prints, the line inputs and their keys.
-/

/-- The variables of `dogeio_input`; `line` is the used part of the buffer. -/
structure LineInput where
  prompt : Option Text
  maxSize : ℕ
  line : Text
  pos : ℕ
  pos_le : pos ≤ line.length

/-- An empty line with a prompt. -/
def LineInput.empty (prompt : Option Text) (maxSize : ℕ) : LineInput :=
  ⟨prompt, maxSize, [], 0, Nat.le_refl 0⟩

/-- The keys that `dogeio_input` tells apart. -/
inductive InputKey
  | switchTerminal
  | enter
  | left
  | tab
  | right
  | backspace
  | character (c : UInt8)
  | other
  deriving DecidableEq

/-- The key for a key code. -/
def inputKey (key : ℕ) : InputKey :=
  if key = 0x112 then .switchTerminal
  else if key = 0x0A then .enter
  else if key = 0x103 then .left
  else if key = 0x09 ∨ key = 0x0F ∨ key = 0x0D then .tab
  else if key = 0x104 then .right
  else if key = 0x08 then .backspace
  else if 32 ≤ key ∧ key < 127 then .character (UInt8.ofNat key)
  else .other

/-! ## The cursor and the line -/

/-- `cursor_x++`, and the next row behind the last column, without a scroll. -/
def Screen.advance (s : Screen) : Screen :=
  if s.cursorX + 1 ≥ 160 then s.moveTo 0 (s.cursorY + 1) else s.moveTo (s.cursorX + 1) s.cursorY

/-- The loop that draws characters from the cursor on. -/
def Screen.drawFrom (s : Screen) : Text → Screen
  | [] => s
  | c :: rest => ((s.draw c).advance).drawFrom rest

/-- The characters from the cursor on, with the cursor back where it was. -/
def Screen.redraw (s : Screen) (chars : Text) : Screen :=
  (s.drawFrom chars).moveTo s.cursorX s.cursorY

/-- `cursor_x++` a number of times. -/
def Screen.advanceBy (s : Screen) : ℕ → Screen
  | 0 => s
  | n + 1 => s.advance.advanceBy n

/-- The line with characters put in before the cursor. -/
def LineInput.insert (l : LineInput) (chars : Text) : LineInput where
  prompt := l.prompt
  maxSize := l.maxSize
  line := l.line.take l.pos ++ chars ++ l.line.drop l.pos
  pos := l.pos + chars.length
  pos_le := by
    have hpos := l.pos_le
    simp only [List.length_append, List.length_take, List.length_drop]
    omega

/-- The line without the character before the cursor. -/
def LineInput.delete (l : LineInput) : LineInput where
  prompt := l.prompt
  maxSize := l.maxSize
  line := l.line.take (l.pos - 1) ++ l.line.drop l.pos
  pos := l.pos - 1
  pos_le := by
    have hpos := l.pos_le
    simp only [List.length_append, List.length_take, List.length_drop]
    omega

/-- The branch of `dogeio_input` for a key that puts characters in, if there is room. -/
def typeChars (chars : Text) (l : LineInput) (s : Screen) : LineInput × Screen :=
  if l.line.length + chars.length < l.maxSize then
    (l.insert chars, (s.redraw (chars ++ l.line.drop l.pos)).advanceBy chars.length)
  else (l, s)

/-- The branch of `dogeio_input` for `KEY_LEFT`. -/
def keyLeft (l : LineInput) (s : Screen) : LineInput × Screen :=
  if l.pos > 0 then
    ({ l with pos := l.pos - 1, pos_le := Nat.le_trans (Nat.sub_le _ _) l.pos_le }, s.stepBack)
  else (l, s)

/-- The branch of `dogeio_input` for `KEY_RIGHT`. -/
def keyRight (l : LineInput) (s : Screen) : LineInput × Screen :=
  if h : l.pos < l.line.length then ({ l with pos := l.pos + 1, pos_le := h }, s.advance)
  else (l, s)

/-- The branch of `dogeio_input` for `KEY_BACKSPACE`. -/
def keyBackspace (l : LineInput) (s : Screen) : LineInput × Screen :=
  if l.pos > 0 then (l.delete, s.stepBack.redraw (l.line.drop l.pos ++ [32])) else (l, s)

/-! ## The terminal -/

/-- The screen, the saved workspaces with the one that is shown, and the line that is read. -/
structure Terminal where
  screen : Screen
  workspaces : ℕ → Workspace
  current : ℕ
  input : Option LineInput

/-- `sys_switch_terminal` for the workspace that is shown. -/
def sysSwitchTerminal (t : Terminal) : Terminal :=
  let workspaces := Function.update t.workspaces t.current t.screen.toWorkspace
  let next := (t.current + 1) % 4
  { t with
    screen := menubarDraw { t.screen with toWorkspace := workspaces next }
    workspaces := workspaces
    current := next }

/-- The screen after the prompt of a line. -/
def printPrompt (prompt : Option Text) (s : Screen) : Screen :=
  match prompt with
  | none => s
  | some str => dogeioPrint str s

/-- The lines that report a cancelled input. -/
def printCancelled (s : Screen) : Screen :=
  dogeioPrintln (text "[Input cancelled]") (dogeioPrintln [] s)

/-- The terminal with an edited line. -/
def Terminal.edit (t : Terminal) (l : LineInput × Screen) : Terminal :=
  { t with screen := l.2, input := some l.1 }

/-- A round of the loop of `dogeio_input` with a key. -/
def inputRound (key : ℕ) (l : LineInput) (t : Terminal) : Terminal :=
  match inputKey key with
  | .switchTerminal =>
    let t := sysSwitchTerminal { t with screen := printCancelled t.screen }
    t.edit (LineInput.empty l.prompt l.maxSize, printPrompt l.prompt t.screen)
  | .enter => { t with screen := dogeioPrint [10] t.screen, input := none }
  | .left => t.edit (keyLeft l t.screen)
  | .tab => t.edit (typeChars (List.replicate 8 32) l t.screen)
  | .right => t.edit (keyRight l t.screen)
  | .backspace => t.edit (keyBackspace l t.screen)
  | .character c => t.edit (typeChars [c] l t.screen)
  | .other => t

/-- What happens to a terminal: a text is printed, a line input starts or gets a key, the timer
switches the workspace, or the menu bar is drawn anew. -/
inductive Event
  | print (str : Text)
  | input (prompt : Option Text) (maxSize : ℕ)
  | key (key : ℕ)
  | switched
  | refresh (bar : ℕ → Cell)

/-- A terminal after an event. Only an input reads keys, and nothing is printed while it waits. -/
def Terminal.step (t : Terminal) : Event → Terminal
  | .print str =>
    match t.input with
    | none => { t with screen := dogeioPrint str t.screen }
    | some _ => t
  | .input prompt maxSize =>
    match t.input with
    | none => t.edit (LineInput.empty prompt maxSize, printPrompt prompt t.screen)
    | some _ => t
  | .key key =>
    match t.input with
    | none => t
    | some l => inputRound key l t
  | .switched =>
    let t := sysSwitchTerminal t
    match t.input with
    | none => t
    | some l =>
      t.edit (LineInput.empty l.prompt l.maxSize, printPrompt l.prompt (printCancelled t.screen))
  | .refresh bar => { t with screen := menubarDraw { t.screen with bar := bar } }

/-- A terminal after events. -/
def Terminal.run (t : Terminal) : List Event → Terminal
  | [] => t
  | event :: rest => (t.step event).run rest

/-- A terminal with a cleared screen, after `sys_init_terminals`. -/
def Terminal.cleared (color background : ℕ) (bar : ℕ → Cell) : Terminal :=
  let blank : Workspace := ⟨fun _ => ⟨32, color, background⟩, 0, 1, color, background⟩
  ⟨{ blank with bar := bar, written := [] }, fun _ => blank, 0, none⟩

/-!
## The cursor and the cells of the screen

Printing keeps the cursor on the screen, whatever the text. The line editor does not: a step behind
the last column of the last row leaves the cursor in row 50, and the next character is written behind
the end of `text_grid`. A run stays on the screen exactly if every key finds the cells that it needs.
-/

open List Screen Terminal Function

/-- The cells of `text_grid` that were written exist. -/
def Screen.InGrid (s : Screen) : Prop := ∀ i ∈ s.written, i < 8000

/-- The cursor is on the screen, and only cells of the screen were written. -/
structure Screen.Bounded (s : Screen) : Prop where
  x_lt : s.cursorX < 160
  y_lt : s.cursorY < 50
  inGrid : s.InGrid

/-- The cursor of a saved workspace is on the screen. -/
def Workspace.Bounded (w : Workspace) : Prop := w.cursorX < 160 ∧ w.cursorY < 50

variable {s : Screen}

/-! ## Writes -/

theorem Screen.InGrid.append (h : s.InGrid) {indices : List ℕ} (hindices : ∀ i ∈ indices, i < 8000) :
    ∀ i ∈ indices ++ s.written, i < 8000 := by
  intro i hi
  rcases mem_append.mp hi with hnew | hold
  · exact hindices i hnew
  · exact h i hold

/-- A character is drawn into the grid if the cell under the cursor exists. -/
theorem Screen.draw_inGrid_iff (hx : s.cursorX < 160) (c : UInt8) :
    (s.draw c).InGrid ↔ s.InGrid ∧ s.index < 8000 := by
  have hpoke : (s.poke c).InGrid ↔ s.index < 8000 ∧ s.InGrid := forall_mem_cons
  rw [draw, dogeioPutchar]
  split_ifs
  · rw [hpoke, and_comm]
  have hindex : s.cursorY * 160 + s.cursorX < 8000 := by omega
  constructor
  · intro h
    have hrest := hpoke.mp (forall_mem_cons.mp h).2
    exact ⟨hrest.2, hrest.1⟩
  · rintro ⟨hgrid, hcell⟩ i hi
    rcases mem_cons.mp hi with rfl | hrest
    · exact hindex
    · exact hpoke.mpr ⟨hcell, hgrid⟩ i hrest

theorem Screen.draw_cursorX (s : Screen) (c : UInt8) : (s.draw c).cursorX = s.cursorX := by
  rw [draw, dogeioPutchar]
  split_ifs <;> rfl

theorem Screen.draw_cursorY (s : Screen) (c : UInt8) : (s.draw c).cursorY = s.cursorY := by
  rw [draw, dogeioPutchar]
  split_ifs <;> rfl

namespace Screen.Bounded

variable (h : s.Bounded)
include h

theorem index_lt : s.index < 8000 := by
  have hx := h.x_lt
  have hy := h.y_lt
  rw [index]
  omega

theorem moveTo {x y : ℕ} (hx : x < 160) (hy : y < 50) : (s.moveTo x y).Bounded := ⟨hx, hy, h.inGrid⟩

theorem draw (c : UInt8) : (s.draw c).Bounded := by
  refine ⟨?_, ?_, (draw_inGrid_iff h.x_lt c).mpr ⟨h.inGrid, h.index_lt⟩⟩
  · rw [draw_cursorX]
    exact h.x_lt
  · rw [draw_cursorY]
    exact h.y_lt

theorem drawBar : (menubarDraw s).Bounded :=
  ⟨h.x_lt, h.y_lt, h.inGrid.append fun i hi => by
    have hlt := mem_range.mp hi
    omega⟩

theorem clear : (dogeioClear s).Bounded :=
  ⟨Nat.zero_lt_succ 159, show 1 < 50 by decide, h.inGrid.append fun _ hi => mem_range.mp hi⟩

theorem stepBack : s.stepBack.Bounded := by
  have hx := h.x_lt
  have hy := h.y_lt
  rw [Screen.stepBack]
  split_ifs
  · exact h.moveTo (by omega) hy
  · exact h.moveTo (by decide) (by omega)
  · exact h

end Screen.Bounded

/-! ## Printing -/

/-- The screen while a character is printed: the cursor may be behind the last column. -/
structure Screen.Open (s : Screen) : Prop where
  x_le : s.cursorX ≤ 160
  y_lt : s.cursorY < 50
  inGrid : s.InGrid

theorem Screen.Bounded.toOpen (h : s.Bounded) : s.Open := ⟨Nat.le_of_lt h.x_lt, h.y_lt, h.inGrid⟩

theorem dogeioScroll_inGrid (h : s.InGrid) : (dogeioScroll s).InGrid := by
  have hmoved : ∀ i ∈ (range 8000).drop 160 ++ s.written, i < 8000 :=
    h.append fun _ hi => mem_range.mp (mem_of_mem_drop hi)
  intro i hi
  rcases mem_append.mp hi with hbar | hrest
  · have hlt := mem_range.mp hbar
    omega
  · exact hmoved i hrest

theorem Screen.Open.newline (h : s.Open) : s.newline.Bounded := by
  rw [Screen.newline]
  split_ifs with hlast
  · refine ⟨Nat.zero_lt_succ 159, Nat.lt_succ_self 49, ?_⟩
    exact dogeioScroll_inGrid (s := s.moveTo 0 (s.cursorY + 1)) h.inGrid
  · exact ⟨Nat.zero_lt_succ 159, Nat.lt_of_not_le hlast, h.inGrid⟩

theorem Screen.Open.wrap (h : s.Open) : s.wrap.Bounded := by
  rw [Screen.wrap]
  split_ifs with hbehind
  · exact h.newline
  · exact ⟨Nat.lt_of_not_le hbehind, h.y_lt, h.inGrid⟩

theorem Screen.Open.put (h : s.Open) (c : UInt8) : (s.put c).Open := by
  rw [Screen.put]
  split_ifs with hon
  · have hdrawn := Screen.Bounded.draw ⟨hon.1, hon.2, h.inGrid⟩ c
    exact ⟨hon.1, hon.2, hdrawn.inGrid⟩
  · exact h

namespace Screen.Bounded

variable (h : s.Bounded)
include h

theorem putchar (c : UInt8) : (dogeioPutchar c s.cursorX s.cursorY s).Bounded := by
  rw [dogeioPutchar]
  split_ifs
  · exact h
  · exact ⟨h.x_lt, h.y_lt, forall_mem_cons.mpr ⟨h.index_lt, h.inGrid⟩⟩

theorem printchar (c : UInt8) : (dogeioPrintchar c s).Bounded := by
  rw [dogeioPrintchar]
  by_cases hnewline : c = 10
  · rw [if_pos hnewline]
    exact (h.draw 32).toOpen.newline
  rw [if_neg hnewline]
  by_cases hback : c = 8
  · rw [if_pos hback, if_pos ⟨h.x_lt, h.y_lt⟩]
    exact (h.putchar _).stepBack.draw 32
  rw [if_neg hback]
  split_ifs
  · exact ((((h.toOpen.put 32).put 32).put 32).put 32).wrap
  · exact (h.toOpen.put c).wrap

theorem selectColor (param : ℕ) : (selectColor param s).Bounded := by
  rw [Console.selectColor]
  split_ifs <;> exact ⟨h.x_lt, h.y_lt, h.inGrid⟩

/-- Every escape sequence clamps the cursor, also if the sum wraps around. -/
theorem applyEscape (cmd : UInt8) (params : List ℕ) : (applyEscape cmd params s).Bounded := by
  have hx := h.x_lt
  have hy := h.y_lt
  unfold Console.applyEscape
  extract_lets first second n y x y' x'
  by_cases hcolor : cmd = 109
  · rw [if_pos hcolor]
    exact h.selectColor first
  rw [if_neg hcolor]
  by_cases hclear : cmd = 74
  · rw [if_pos hclear]
    split_ifs
    · exact h.clear
    · exact h
  · rw [if_neg hclear]
    split_ifs
    all_goals first
      | exact h
      | exact h.moveTo (by omega) (by omega)

theorem printRounds (rounds : ℕ) (str : Text) : (printRounds rounds str s).Bounded := by
  induction rounds generalizing str s with
  | zero => exact h
  | succ rounds ih =>
    cases str with
    | nil => exact h
    | cons c rest =>
      rw [Console.printRounds]
      split_ifs
      · split
        · exact h
        · exact ih (h.applyEscape _ _) _
      · exact ih (h.printchar c) rest

theorem print (str : Text) : (dogeioPrint str s).Bounded := h.printRounds str.length str

theorem println (str : Text) : (dogeioPrintln str s).Bounded := (h.print str).print [10]

theorem prompt (prompt : Option Text) : (printPrompt prompt s).Bounded := by
  cases prompt with
  | none => exact h
  | some str => exact h.print str

theorem cancelled : (printCancelled s).Bounded := (h.println []).println _

end Screen.Bounded

/-! ## The cells that a key needs -/

theorem Screen.index_advance (hx : s.cursorX < 160) :
    s.advance.cursorX < 160 ∧ s.advance.index = s.index + 1 := by
  rw [advance]
  split_ifs with hlast
  · refine ⟨Nat.zero_lt_succ 159, ?_⟩
    change (s.cursorY + 1) * 160 + 0 = s.cursorY * 160 + s.cursorX + 1
    omega
  · exact ⟨Nat.lt_of_not_le hlast, rfl⟩

theorem Screen.advance_inGrid : s.advance.InGrid ↔ s.InGrid := by
  rw [advance]
  split_ifs <;> rfl

/-- The loop over the rest of a line takes one cell for each character. -/
theorem Screen.drawFrom_inGrid_iff (chars : Text) (hx : s.cursorX < 160) :
    (s.drawFrom chars).InGrid ↔ s.InGrid ∧ (chars ≠ [] → s.index + chars.length ≤ 8000) := by
  induction chars generalizing s with
  | nil => simp [drawFrom]
  | cons c rest ih =>
    have hdrawn : (s.draw c).cursorX < 160 := by
      rwa [draw_cursorX]
    have hindex : (s.draw c).index = s.index := by rw [index, draw_cursorX, draw_cursorY, index]
    obtain ⟨hadvanced, hnext⟩ := index_advance hdrawn
    rw [drawFrom, ih hadvanced, advance_inGrid, draw_inGrid_iff hx, hnext, hindex, length_cons, and_assoc]
    refine and_congr_right fun _ => ?_
    cases rest with
    | nil =>
      simp only [length_nil, ne_eq, reduceCtorEq, not_true_eq_false, not_false_eq_true,
        false_implies, forall_const, and_true]
      omega
    | cons next rest =>
      simp only [length_cons, ne_eq, reduceCtorEq, not_false_eq_true, forall_const]
      omega

theorem Screen.advanceBy_index (n : ℕ) (hx : s.cursorX < 160) :
    (s.advanceBy n).cursorX < 160 ∧ (s.advanceBy n).index = s.index + n := by
  induction n generalizing s with
  | zero => exact ⟨hx, rfl⟩
  | succ n ih =>
    obtain ⟨hadvanced, hnext⟩ := index_advance hx
    obtain ⟨hfinal, hindex⟩ := ih hadvanced
    exact ⟨hfinal, by rw [advanceBy, hindex, hnext]; omega⟩

theorem Screen.advanceBy_inGrid (n : ℕ) : (s.advanceBy n).InGrid ↔ s.InGrid := by
  induction n generalizing s with
  | zero => rfl
  | succ n ih => rw [advanceBy, ih, advance_inGrid]

theorem Screen.bounded_iff (hx : s.cursorX < 160) : s.Bounded ↔ s.index < 8000 ∧ s.InGrid := by
  constructor
  · exact fun h => ⟨h.index_lt, h.inGrid⟩
  · rintro ⟨hindex, hgrid⟩
    rw [index] at hindex
    exact ⟨hx, by omega, hgrid⟩

/-- The cells for a number of typed characters and for the rest of the line exist. -/
def TypeFits (n : ℕ) (l : LineInput) (s : Screen) : Prop :=
  l.line.length + n < l.maxSize → s.index + n < 8000 ∧ s.index + n + (l.line.length - l.pos) ≤ 8000

/-- The cells that a key of a line input needs exist. -/
def KeyFits (key : ℕ) (l : LineInput) (s : Screen) : Prop :=
  match inputKey key with
  | .tab => TypeFits 8 l s
  | .character _ => TypeFits 1 l s
  | .right => l.pos < l.line.length → s.index + 1 < 8000
  | .backspace => l.pos > 0 → s.stepBack.index + (l.line.length - l.pos) + 1 ≤ 8000
  | _ => True

/-- Typed characters stay on the screen exactly if their cells exist. -/
theorem typeChars_bounded_iff (h : s.Bounded) {chars : Text} (hchars : chars ≠ []) (l : LineInput) :
    (typeChars chars l s).2.Bounded ↔ TypeFits chars.length l s := by
  rw [typeChars, TypeFits]
  split_ifs with hroom
  · set drawn := chars ++ l.line.drop l.pos with hdrawn
    have hlength : drawn.length = chars.length + (l.line.length - l.pos) := by
      rw [hdrawn, length_append, length_drop]
    have hne : drawn ≠ [] := fun hnil => hchars (append_eq_nil_iff.mp hnil).1
    have hx : (s.redraw drawn).cursorX < 160 := h.x_lt
    have hindex : (s.redraw drawn).index = s.index := rfl
    have hgrid : (s.redraw drawn).InGrid ↔ s.index + drawn.length ≤ 8000 := by
      refine (drawFrom_inGrid_iff drawn h.x_lt).trans ?_
      exact ⟨fun hboth => hboth.2 hne, fun hle => ⟨h.inGrid, fun _ => hle⟩⟩
    obtain ⟨hfinal, hcell⟩ := advanceBy_index chars.length hx
    rw [bounded_iff hfinal, hcell, hindex, advanceBy_inGrid, hgrid, hlength, ← Nat.add_assoc]
    exact ⟨fun hboth _ => hboth, fun hboth => hboth hroom⟩
  · exact ⟨fun _ hlt => absurd hlt hroom, fun _ => h⟩

theorem keyRight_bounded_iff (h : s.Bounded) (l : LineInput) :
    (keyRight l s).2.Bounded ↔ (l.pos < l.line.length → s.index + 1 < 8000) := by
  rw [keyRight]
  by_cases hinside : l.pos < l.line.length
  · rw [dif_pos hinside]
    obtain ⟨hx, hindex⟩ := index_advance h.x_lt
    rw [bounded_iff hx, hindex, advance_inGrid]
    exact ⟨fun hboth _ => hboth.1, fun hcell => ⟨hcell hinside, h.inGrid⟩⟩
  · rw [dif_neg hinside]
    exact ⟨fun _ hlt => absurd hlt hinside, fun _ => h⟩

theorem keyBackspace_bounded_iff (h : s.Bounded) (l : LineInput) :
    (keyBackspace l s).2.Bounded ↔ (l.pos > 0 → s.stepBack.index + (l.line.length - l.pos) + 1 ≤ 8000) := by
  rw [keyBackspace]
  split_ifs with hinside
  · have hback := h.stepBack
    have hne : l.line.drop l.pos ++ [32] ≠ [] := append_ne_nil_of_right_ne_nil _ (by simp)
    have hlength : (l.line.drop l.pos ++ [32]).length = l.line.length - l.pos + 1 := by
      rw [length_append, length_drop, length_singleton]
    rw [bounded_iff (s := s.stepBack.redraw _) hback.x_lt]
    change s.stepBack.index < 8000 ∧ (s.stepBack.drawFrom _).InGrid ↔ _
    rw [drawFrom_inGrid_iff _ hback.x_lt, hlength, ← Nat.add_assoc]
    exact ⟨fun hboth _ => hboth.2.2 hne, fun hcell => ⟨hback.index_lt, hback.inGrid, fun _ => hcell hinside⟩⟩
  · exact ⟨fun _ hlt => absurd hlt hinside, fun _ => h⟩

theorem keyLeft_bounded (h : s.Bounded) (l : LineInput) : (keyLeft l s).2.Bounded := by
  rw [keyLeft]
  split_ifs
  · exact h.stepBack
  · exact h

/-! ## Runs -/

/-- The screen and the saved workspaces have their cursors on the screen. -/
structure Terminal.Bounded (t : Terminal) : Prop where
  screen : t.screen.Bounded
  workspaces : ∀ w, (t.workspaces w).Bounded

variable {t : Terminal}

section

variable (h : t.Bounded)
include h

theorem Terminal.Bounded.switch : (sysSwitchTerminal t).Bounded := by
  have hsaved : ∀ w, (update t.workspaces t.current t.screen.toWorkspace w).Bounded := by
    intro w
    by_cases hcurrent : w = t.current
    · rw [hcurrent, update_self]
      exact ⟨h.screen.x_lt, h.screen.y_lt⟩
    · rw [update_of_ne hcurrent]
      exact h.workspaces w
  refine ⟨Screen.Bounded.drawBar ?_, hsaved⟩
  exact ⟨(hsaved _).1, (hsaved _).2, h.screen.inGrid⟩

theorem Terminal.Bounded.withScreen (hs : s.Bounded) (input : Option LineInput) :
    Terminal.Bounded { t with screen := s, input := input } :=
  ⟨hs, h.workspaces⟩

/-- The cells that an event needs exist; only a key of a line input can miss some. -/
def Terminal.Fits (t : Terminal) : Event → Prop
  | .key key =>
    match t.input with
    | none => True
    | some l => KeyFits key l t.screen
  | _ => True

/-- A key keeps the cursor on the screen and writes only cells of it exactly if the key fits. -/
theorem inputRound_bounded_iff (key : ℕ) (l : LineInput) :
    (inputRound key l t).screen.Bounded ↔ KeyFits key l t.screen := by
  rw [inputRound, KeyFits]
  cases inputKey key with
  | switchTerminal =>
    have hswitched := (h.withScreen h.screen.cancelled t.input).switch
    exact iff_of_true (hswitched.screen.prompt l.prompt) trivial
  | enter => exact iff_of_true (h.screen.print [10]) trivial
  | left => exact iff_of_true (keyLeft_bounded h.screen l) trivial
  | tab => exact typeChars_bounded_iff h.screen (by decide) l
  | right => exact keyRight_bounded_iff h.screen l
  | backspace => exact keyBackspace_bounded_iff h.screen l
  | character c => exact typeChars_bounded_iff h.screen (cons_ne_nil c []) l
  | other => exact iff_of_true h.screen trivial

theorem inputRound_workspaces (key : ℕ) (l : LineInput) (w : ℕ) :
    ((inputRound key l t).workspaces w).Bounded := by
  rw [inputRound]
  cases inputKey key with
  | switchTerminal => exact (h.withScreen h.screen.cancelled t.input).switch.workspaces w
  | enter | left | tab | right | backspace | character c | other => exact h.workspaces w

/-- An event keeps the cursor on the screen and writes only cells of it exactly if it fits. -/
theorem Terminal.step_bounded_iff (event : Event) : (t.step event).screen.Bounded ↔ t.Fits event := by
  cases event with
  | print str =>
    rw [step]
    cases t.input with
    | none => exact iff_of_true (h.screen.print str) trivial
    | some l => exact iff_of_true h.screen trivial
  | input prompt maxSize =>
    rw [step]
    cases t.input with
    | none => exact iff_of_true (h.screen.prompt prompt) trivial
    | some l => exact iff_of_true h.screen trivial
  | key key =>
    rw [step, Terminal.Fits]
    cases t.input with
    | none => exact iff_of_true h.screen trivial
    | some l => exact inputRound_bounded_iff h key l
  | switched =>
    rw [step]
    split
    · exact iff_of_true h.switch.screen trivial
    · exact iff_of_true (h.switch.screen.cancelled.prompt _) trivial
  | refresh bar =>
    refine iff_of_true (Screen.Bounded.drawBar ?_) trivial
    exact ⟨h.screen.x_lt, h.screen.y_lt, h.screen.inGrid⟩

theorem Terminal.step_workspaces (event : Event) (w : ℕ) : ((t.step event).workspaces w).Bounded := by
  cases event with
  | print str | input prompt maxSize =>
    rw [step]
    cases t.input <;> exact h.workspaces w
  | key key =>
    rw [step]
    cases t.input with
    | none => exact h.workspaces w
    | some l => exact inputRound_workspaces h key l w
  | switched =>
    rw [step]
    split <;> exact h.switch.workspaces w
  | refresh bar => exact h.workspaces w

/-- The cursor is on the screen and only cells of the screen are written, after every event. -/
def Terminal.StaysOnScreen (t : Terminal) : List Event → Prop
  | [] => t.screen.Bounded
  | event :: rest => t.screen.Bounded ∧ (t.step event).StaysOnScreen rest

/-- Every event fits when it happens. -/
def Terminal.AllFit (t : Terminal) : List Event → Prop
  | [] => True
  | event :: rest => t.Fits event ∧ (t.step event).AllFit rest

theorem Terminal.staysOnScreen_iff (events : List Event) : t.StaysOnScreen events ↔ t.AllFit events := by
  induction events generalizing t with
  | nil => exact iff_of_true h.screen trivial
  | cons event rest ih =>
    rw [Terminal.StaysOnScreen, Terminal.AllFit]
    constructor
    · rintro ⟨-, hrest⟩
      have hscreen : (t.step event).screen.Bounded := by
        cases rest with
        | nil => exact hrest
        | cons next rest => exact hrest.1
      have hstep : (t.step event).Bounded := ⟨hscreen, step_workspaces h event⟩
      exact ⟨(step_bounded_iff h event).mp hscreen, (ih hstep).mp hrest⟩
    · rintro ⟨hfits, hrest⟩
      have hstep : (t.step event).Bounded := ⟨(step_bounded_iff h event).mpr hfits, step_workspaces h event⟩
      exact ⟨h.screen, (ih hstep).mpr hrest⟩

end

/-- From a cleared screen, prints, line inputs and keys keep the cursor on the screen and write only
cells of it exactly if every key finds the cells that it needs. -/
theorem cleared_staysOnScreen_iff (color background : ℕ) (bar : ℕ → Cell) (events : List Event) :
    (Terminal.cleared color background bar).StaysOnScreen events ↔
      (Terminal.cleared color background bar).AllFit events :=
  staysOnScreen_iff ⟨⟨Nat.zero_lt_succ 159, show 1 < 50 by decide, fun i hi => absurd hi not_mem_nil⟩,
      fun _ => ⟨Nat.zero_lt_succ 159, show 1 < 50 by decide⟩⟩ events

/-- The cursor in the last cell, one character and another one: the first leaves the cursor in row
50, and the second is written behind the end of `text_grid`. -/
theorem typing_leaves_screen :
    ((Terminal.cleared 0 0 fun _ => ⟨32, 0, 0⟩).run
      [.print (text "\x1b[50;160H"), .input none 64, .key 97]).screen.cursorY = 50 ∧
    8000 ∈ ((Terminal.cleared 0 0 fun _ => ⟨32, 0, 0⟩).run
      [.print (text "\x1b[50;160H"), .input none 64, .key 97, .key 98]).screen.written := by
  decide

end Windoge.Console
