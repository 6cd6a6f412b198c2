import Windoge.Lib.Control
import Windoge.Script.Words

/-!
# The interpreter of scripts

`run_script` of `dogescript.c` from the point where the script file has been opened: lines
are read at byte offsets, blocks are found by scanning ahead for the line that closes them,
and open loops are kept on a stack of offsets. The reader's cache is left out, a script is
the bytes of its file. What `run_command` does and how `condition_value` turns out are
operations on a state that holds the variables.
-/

namespace Windoge.Script

open Control

/-- `DOGESCRIPT_MAX_SCRIPT_SIZE`. -/
def maxScriptSize : ℕ := 1048576

/-- `DOGESCRIPT_MAX_LOOP_DEPTH`. -/
def maxLoopDepth : ℕ := 32

/-- `DOGESCRIPT_MAX_STEPS`. -/
def maxSteps : ℕ := 500000

/-- `DOGESCRIPT_MAX_REPEAT`. -/
def maxRepeat : ℕ := 100000

/-- Why a line has no tokens. -/
inductive LineError
  | nullByte
  | tooLong
  | invalidTokens
  deriving DecidableEq

/-- The loop of `get_line` from a position on. -/
def lineLoop : List UInt8 → Text → ℕ → Except LineError (Text × ℕ)
  | [], line, position => .ok (line, position)
  | character :: bytes, line, position =>
    if character = 0 then .error .nullByte
    else if character = 10 then .ok (line, position + 1)
    else if maxLineSize ≤ line.length + 1 then .error .tooLong
    else lineLoop bytes (line ++ [character]) (position + 1)

/-- A line without a carriage return at its end. -/
def dropReturn (line : Text) : Text := if line.getLast? = some 13 then line.dropLast else line

/-- `get_line`. -/
def getLine (file : List UInt8) (offset : ℕ) : Except LineError (Text × ℕ) :=
  (lineLoop (file.drop offset) [] offset).map fun (line, next) => (dropReturn line, next)

/-- The tokens of a line, none for a blank line or a comment. -/
def lineTokens (lookup : Text → Text) (line : Text) : Option (List Text) :=
  let first := line.dropWhile isSpace
  if first = [] ∨ first.head? = some 35 then some [] else tokenizeLine lookup first

/-- `get_tokens`: the line, its tokens and the offset of the next line. -/
def getTokens (lookup : Text → Text) (file : List UInt8) (offset : ℕ) :
    Except LineError (Text × List Text × ℕ) :=
  match getLine file offset with
  | .error e => .error e
  | .ok (line, next) =>
    match lineTokens lookup line with
    | none => .error .invalidTokens
    | some tokens => .ok (line, tokens, next)

/-- What a line with this first token is for. -/
def keywordKind (token : Text) : Kind :=
  if token = text "if" then .ifLine
  else if token = text "while" then .whileLine
  else if token = text "repeat" then .repeatLine
  else if token = text "else" then .elseLine
  else if token = text "endif" then .endifLine
  else if token = text "endwhile" then .endwhileLine
  else if token = text "endrepeat" then .endrepeatLine
  else if token = text "break" then .breakLine
  else if token = text "continue" then .continueLine
  else .command

/-- What a line with these tokens is for. -/
def tokensKind : List Text → Kind
  | [] => .blank
  | token :: _ => keywordKind token

/-- Why no end of a block was found. -/
inductive FindError
  | line (error : LineError)
  | missing
  deriving DecidableEq

/-- The loop of `find_control_end`; every round consumes a byte of the file. -/
def controlEndLoop (lookup : Text → Text) (file : List UInt8) (opening closing : Kind) :
    ℕ → ℕ → ℕ → Except FindError (ℕ × ℕ)
  | 0, _, _ => .error .missing
  | fuel + 1, depth, position =>
    if file.length ≤ position then .error .missing
    else
      match getTokens lookup file position with
      | .error e => .error (.line e)
      | .ok (_, tokens, next) =>
        if tokensKind tokens = opening then controlEndLoop lookup file opening closing fuel (depth + 1) next
        else if tokensKind tokens = closing then
          if depth = 0 then .ok (position, next)
          else controlEndLoop lookup file opening closing fuel (depth - 1) next
        else controlEndLoop lookup file opening closing fuel depth next

/-- `find_control_end`: the offsets of the closing line and of the line after it. -/
def findControlEnd (lookup : Text → Text) (file : List UInt8) (start : ℕ) (opening closing : Kind) :
    Except FindError (ℕ × ℕ) :=
  match getLine file start with
  | .error e => .error (.line e)
  | .ok (_, position) => controlEndLoop lookup file opening closing (file.length + 1) 0 position

/-- What `find_if_end` finds: the end, the offset after it, and the offset after an else. -/
structure IfEnd where
  last : ℕ
  afterEnd : ℕ
  afterElse : Option ℕ
  deriving DecidableEq

/-- The loop of `find_if_end`; every round consumes a byte of the file. -/
def ifEndLoop (lookup : Text → Text) (file : List UInt8) :
    ℕ → ℕ → ℕ → Option ℕ → Except FindError IfEnd
  | 0, _, _, _ => .error .missing
  | fuel + 1, depth, position, afterElse =>
    if file.length ≤ position then .error .missing
    else
      match getTokens lookup file position with
      | .error e => .error (.line e)
      | .ok (_, tokens, next) =>
        if tokensKind tokens = .ifLine then ifEndLoop lookup file fuel (depth + 1) next afterElse
        else if tokensKind tokens = .endifLine then
          if depth = 0 then .ok ⟨position, next, afterElse⟩
          else ifEndLoop lookup file fuel (depth - 1) next afterElse
        else if tokensKind tokens = .elseLine ∧ depth = 0 then
          if afterElse.isSome then .error .missing else ifEndLoop lookup file fuel depth next (some next)
        else ifEndLoop lookup file fuel depth next afterElse

/-- `find_if_end`. -/
def findIfEnd (lookup : Text → Text) (file : List UInt8) (start : ℕ) : Except FindError IfEnd :=
  match getLine file start with
  | .error e => .error (.line e)
  | .ok (_, position) => ifEndLoop lookup file (file.length + 1) 0 position none

/-- `get_line_number`. -/
def getLineNumber (file : List UInt8) (offset : ℕ) : ℕ := 1 + (file.take offset).count 10

/-- The variables, and the world the commands act on. -/
structure Interp (W : Type) where
  vars : Variables
  world : W

/-- What `run_command` reports: its result, and the status of an exit that was requested. -/
structure CommandResult where
  status : ℤ
  exit : Option ℤ

/-- What a script runs on. -/
structure ScriptOps (W : Type) where
  arguments : Arguments
  condition : List Text → Interp W → Option Bool × Interp W
  command : List Text → Text → Interp W → CommandResult × Interp W

/-- A command that was run, and the line it stands on. -/
structure Command where
  tokens : List Text
  line : Text

/-- `loop_kind_t`. -/
inductive LoopKind
  | whileLoop
  | repeatLoop
  deriving DecidableEq

/-- `loop_frame_t`. -/
structure LoopFrame where
  kind : LoopKind
  startOffset : ℕ
  bodyOffset : ℕ
  endOffset : ℕ
  afterEndOffset : ℕ
  remaining : ℕ

/-- The state of `run_script` between two lines, and the commands it has run. -/
structure Run (W : Type) where
  programCounter : ℕ
  loops : List LoopFrame
  state : Interp W
  commands : List Command

/-- Why `run_script` gives up. -/
inductive Diagnostic
  | tooLarge
  | stepLimit
  | badLine (error : LineError)
  | invalidCondition
  | missingEndif (error : FindError)
  | missingEndwhile (error : FindError)
  | loopLimit
  | repeatUsage
  | missingEndrepeat (error : FindError)
  | unmatchedElse (error : FindError)
  | unmatchedEndwhile
  | unmatchedEndrepeat
  | outsideLoop
  | commandFailed (line : ℕ)
  deriving DecidableEq

/-- The commands that were run, the exit status, what was printed about a failure, and the state. -/
structure Finished (W : Type) where
  commands : List Command
  status : ℤ
  diagnostic : Option Diagnostic
  state : Interp W

/-- After a line, the script goes on or ends. -/
inductive Next (W : Type)
  | go (r : Run W)
  | stop (f : Finished W)

section Lines

variable {W : Type} (ops : ScriptOps W) (file : List UInt8)

/-- The values of variables. -/
def Interp.lookup (state : Interp W) : Text → Text := getVariable ops.arguments state.vars

/-- The script ends with a failure. -/
def Run.fail (r : Run W) (diagnostic : Diagnostic) : Next W :=
  .stop ⟨r.commands, 1, some diagnostic, r.state⟩

/-- The script goes on at an offset. -/
def Run.goto (r : Run W) (offset : ℕ) : Next W := .go { r with programCounter := offset }

/-- A line that starts with `if`. -/
def stepIf (tokens : List Text) (next : ℕ) (r : Run W) : Next W :=
  let (condition, state) := ops.condition tokens r.state
  let r := { r with state := state }
  match condition with
  | none => r.fail .invalidCondition
  | some condition =>
    match findIfEnd (state.lookup ops) file r.programCounter with
    | .error e => r.fail (.missingEndif e)
    | .ok found => if condition then r.goto next else r.goto (found.afterElse.getD found.afterEnd)

/-- Whether the innermost loop is the while loop of the current line. -/
def Run.atWhile (r : Run W) : Option LoopFrame :=
  r.loops.head?.filter fun frame =>
    frame.kind = .whileLoop && frame.startOffset = r.programCounter

/-- The end of the while loop of the current line. -/
def whileEnd (r : Run W) : Except FindError (ℕ × ℕ) :=
  match r.atWhile with
  | some frame => .ok (frame.endOffset, frame.afterEndOffset)
  | none => findControlEnd (r.state.lookup ops) file r.programCounter .whileLine .endwhileLine

/-- A line that starts with `while`. -/
def stepWhile (tokens : List Text) (next : ℕ) (r : Run W) : Next W :=
  let (condition, state) := ops.condition tokens r.state
  let r := { r with state := state }
  match condition with
  | none => r.fail .invalidCondition
  | some condition =>
    match whileEnd ops file r with
    | .error e => r.fail (.missingEndwhile e)
    | .ok (last, afterEnd) =>
      if ¬ condition then
        if r.atWhile.isSome then { r with loops := r.loops.tail }.goto afterEnd else r.goto afterEnd
      else if r.loops.head?.any fun frame => frame.startOffset = r.programCounter then r.goto next
      else if r.loops.length = maxLoopDepth then r.fail .loopLimit
      else
        let frame : LoopFrame := ⟨.whileLoop, r.programCounter % 2 ^ 32, next % 2 ^ 32, last % 2 ^ 32,
          afterEnd % 2 ^ 32, 0⟩
        { r with loops := frame :: r.loops }.goto next

/-- How often a loop is to be repeated. -/
def repeatCount (tokens : List Text) : Option ℕ :=
  if tokens.length ≠ 2 then none
  else
    (parseInteger (tokens.getD 1 [])).bind fun number =>
      if number < 0 ∨ (maxRepeat : ℤ) < number then none else some number.toNat

/-- A line that starts with `repeat`. -/
def stepRepeat (tokens : List Text) (next : ℕ) (r : Run W) : Next W :=
  match repeatCount tokens with
  | none => r.fail .repeatUsage
  | some number =>
    match findControlEnd (r.state.lookup ops) file r.programCounter .repeatLine .endrepeatLine with
    | .error e => r.fail (.missingEndrepeat e)
    | .ok (last, afterEnd) =>
      if number = 0 then r.goto afterEnd
      else if r.loops.length = maxLoopDepth then r.fail .loopLimit
      else
        let frame : LoopFrame := ⟨.repeatLoop, r.programCounter % 2 ^ 32, next % 2 ^ 32, last % 2 ^ 32,
          afterEnd % 2 ^ 32, number⟩
        { r with loops := frame :: r.loops }.goto next

/-- A line that starts with `else`: the end of the branch that was taken. -/
def stepElse (r : Run W) : Next W :=
  match findControlEnd (r.state.lookup ops) file r.programCounter .ifLine .endifLine with
  | .error e => r.fail (.unmatchedElse e)
  | .ok (_, afterEnd) => r.goto afterEnd

/-- A line that starts with `endwhile`. -/
def stepEndwhile (r : Run W) : Next W :=
  match r.loops with
  | [] => r.fail .unmatchedEndwhile
  | frame :: _ =>
    if frame.kind ≠ .whileLoop ∨ frame.endOffset ≠ r.programCounter then r.fail .unmatchedEndwhile
    else r.goto frame.startOffset

/-- A line that starts with `endrepeat`. -/
def stepEndrepeat (next : ℕ) (r : Run W) : Next W :=
  match r.loops with
  | [] => r.fail .unmatchedEndrepeat
  | frame :: loops =>
    if frame.kind ≠ .repeatLoop ∨ frame.endOffset ≠ r.programCounter then r.fail .unmatchedEndrepeat
    else if 1 < frame.remaining then
      { r with loops := { frame with remaining := frame.remaining - 1 } :: loops }.goto frame.bodyOffset
    else { r with loops := loops }.goto next

/-- A line that starts with `break`. -/
def stepBreak (tokens : List Text) (r : Run W) : Next W :=
  match r.loops with
  | [] => r.fail .outsideLoop
  | frame :: loops =>
    if tokens.length ≠ 1 then r.fail .outsideLoop else { r with loops := loops }.goto frame.afterEndOffset

/-- A line that starts with `continue`. -/
def stepContinue (tokens : List Text) (r : Run W) : Next W :=
  match r.loops with
  | [] => r.fail .outsideLoop
  | frame :: _ =>
    if tokens.length ≠ 1 then r.fail .outsideLoop
    else if frame.kind = .whileLoop then r.goto frame.startOffset
    else r.goto frame.endOffset

/-- Any other line. -/
def stepCommand (line : Text) (tokens : List Text) (next : ℕ) (r : Run W) : Next W :=
  let (result, state) := ops.command tokens line r.state
  let r : Run W := { r with state := state, commands := r.commands ++ [⟨tokens, line⟩] }
  if result.status ≠ 0 then r.fail (.commandFailed (getLineNumber file r.programCounter))
  else
    match result.exit with
    | some status => .stop ⟨r.commands, status, none, state⟩
    | none => r.goto next

/-- One line of a script. -/
def stepLine (line : Text) (tokens : List Text) (next : ℕ) (r : Run W) : Next W :=
  match tokensKind tokens with
  | .blank => r.goto next
  | .ifLine => stepIf ops file tokens next r
  | .whileLine => stepWhile ops file tokens next r
  | .repeatLine => stepRepeat ops file tokens next r
  | .elseLine => stepElse ops file r
  | .endifLine => r.goto next
  | .endwhileLine => stepEndwhile r
  | .endrepeatLine => stepEndrepeat next r
  | .breakLine => stepBreak tokens r
  | .continueLine => stepContinue tokens r
  | .command => stepCommand ops file line tokens next r

/-- One round of the loop of `run_script`. -/
def step (r : Run W) : Next W :=
  match getTokens (r.state.lookup ops) file r.programCounter with
  | .error e => r.fail (.badLine e)
  | .ok (line, tokens, next) => stepLine ops file line tokens next r

/-- The loop of `run_script` with the number of steps that are left. -/
def runLoop : ℕ → Run W → Finished W
  | 0, r =>
    if file.length ≤ r.programCounter then ⟨r.commands, 0, none, r.state⟩
    else ⟨r.commands, 1, some .stepLimit, r.state⟩
  | steps + 1, r =>
    if file.length ≤ r.programCounter then ⟨r.commands, 0, none, r.state⟩
    else
      match step ops file r with
      | .go r => runLoop steps r
      | .stop f => f

/-- `run_script` on the bytes of a script. -/
def runScript (world : W) : Finished W :=
  if maxScriptSize < file.length then ⟨[], 1, some .tooLarge, ⟨.empty, world⟩⟩
  else runLoop ops file maxSteps ⟨0, [], ⟨.empty, world⟩, []⟩

end Lines

end Windoge.Script
