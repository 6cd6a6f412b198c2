import Windoge.Exec.Arguments

/-!
# Splitting command lines

The two scanners of `dogeshell.c` that read quotes: `system_dogeshell_ex` looks for the
semicolons outside quotes and runs the segments between them one after the other, and
`dogeshell_tokenize` cuts a segment into arguments. What a command does, the history file
and the screen are operations on a state that the scanners do not look into.
-/

namespace Windoge.Shell

/-- `DOGESHELL_LINE_SIZE`. -/
def lineSize : ℕ := 256

/-- `DOGESHELL_ARGUMENT_COUNT`. -/
def argumentCapacity : ℕ := 24

/-- `'\\'`. -/
def backslash : UInt8 := 92

/-- `'\''`. -/
def singleQuote : UInt8 := 39

/-- `'"'`. -/
def doubleQuote : UInt8 := 34

/-- `';'`. -/
def semicolon : UInt8 := 59

/-- A blank between arguments. -/
def isBlank (c : UInt8) : Bool := c = 32 || c = 9

/-- The inner loop of `dogeshell_tokenize` from a place in the line on: the argument, the write
index behind its terminator and the rest of the line. A quote of 0 means outside quotes. -/
def tokenizeArgument (storageSize : ℕ) :
    List UInt8 → UInt8 → ℕ → List UInt8 → Option (List UInt8 × ℕ × List UInt8)
  | [], quote, writeIndex, argument =>
    if quote ≠ 0 ∨ storageSize ≤ writeIndex then none else some (argument, writeIndex + 1, [])
  | character :: line, quote, writeIndex, argument =>
    if quote = 0 ∧ isBlank character then
      if storageSize ≤ writeIndex then none
      else some (argument, writeIndex + 1, character :: line)
    else if character = backslash ∧ quote ≠ singleQuote then
      match line with
      | [] => none
      | escaped :: line =>
        if storageSize ≤ writeIndex + 1 then none
        else tokenizeArgument storageSize line quote (writeIndex + 1) (argument ++ [escaped])
    else if quote ≠ 0 ∧ character = quote then
      tokenizeArgument storageSize line 0 writeIndex argument
    else if quote = 0 ∧ (character = singleQuote ∨ character = doubleQuote) then
      tokenizeArgument storageSize line character writeIndex argument
    else if storageSize ≤ writeIndex + 1 then none
    else tokenizeArgument storageSize line quote (writeIndex + 1) (argument ++ [character])

/-- The outer loop of `dogeshell_tokenize`; every round consumes a character. -/
def tokenizeLoop (storageSize capacity : ℕ) :
    ℕ → List UInt8 → ℕ → List (List UInt8) → Option (List (List UInt8))
  | 0, _, _, _ => none
  | fuel + 1, line, writeIndex, arguments =>
    match line.dropWhile isBlank with
    | [] => some arguments
    | character :: line =>
      if arguments.length = capacity ∨ storageSize ≤ writeIndex then none
      else
        match tokenizeArgument storageSize (character :: line) 0 writeIndex [] with
        | none => none
        | some (argument, writeIndex, line) =>
          tokenizeLoop storageSize capacity fuel line writeIndex (arguments ++ [argument])

/-- `dogeshell_tokenize`: the arguments, or no result for -1. -/
def dogeshellTokenize (line : List UInt8) (storageSize capacity : ℕ) : Option (List (List UInt8)) :=
  tokenizeLoop storageSize capacity (line.length + 1) line 0 []

/-- The syntax errors of the separator scan. -/
inductive ScanError
  | trailingEscape
  | unmatchedQuote
  deriving DecidableEq

/-- The message of a syntax error. -/
def ScanError.message : ScanError → String
  | trailingEscape => "Syntax error: trailing escape."
  | unmatchedQuote => "Syntax error: unmatched quote."

/-- The scan of `system_dogeshell_ex` for separators, from index `i` on. -/
def findSeparators : List UInt8 → ℕ → UInt8 → List ℕ → Except ScanError (List ℕ)
  | [], _, quote, separators => if quote ≠ 0 then .error .unmatchedQuote else .ok separators
  | character :: input, i, quote, separators =>
    if character = backslash ∧ quote ≠ singleQuote then
      match input with
      | [] => .error .trailingEscape
      | _ :: input => findSeparators input (i + 2) quote separators
    else if quote ≠ 0 then
      findSeparators input (i + 1) (if character = quote then 0 else quote) separators
    else if character = singleQuote ∨ character = doubleQuote then
      findSeparators input (i + 1) character separators
    else if character = semicolon then findSeparators input (i + 1) quote (separators ++ [i])
    else findSeparators input (i + 1) quote separators

/-- What `system_dogeshell_ex` does to the rest of the kernel. -/
structure ShellOps (World : Type) where
  dogeshellExecute : List (List UInt8) → World → ℤ × World
  dogeshellAppendHistory : List UInt8 → World → ℤ × World
  dogeioPrintln : String → World → World
  exitRequested : World → Bool
  setLastStatus : ℤ → World → World

section Run

variable {World : Type} (ops : ShellOps World)

/-- Report an error: print a message and return status 2. -/
def reject (message : String) (w : World) : ℤ × World :=
  (2, ops.setLastStatus 2 (ops.dogeioPrintln message w))

/-- The loop over the segments; `ends` are the ends of the segments to come. -/
def runSegments (input : List UInt8) : List ℕ → ℕ → ℤ → World → ℤ × World
  | [], _, status, w => (status, ops.setLastStatus status w)
  | segmentEnd :: ends, segmentStart, status, w =>
    if ops.exitRequested w then (status, ops.setLastStatus status w)
    else
      match dogeshellTokenize ((input.take segmentEnd).drop segmentStart) lineSize argumentCapacity with
      | none => reject ops "Syntax error: too many arguments." w
      | some [] => runSegments input ends (segmentEnd + 1) status w
      | some arguments =>
        let (status, w) := ops.dogeshellExecute arguments w
        runSegments input ends (segmentEnd + 1) status (ops.setLastStatus status w)

/-- Save a command in the history; a failure only prints a warning. -/
def saveHistory (input : List UInt8) (w : World) : World :=
  let (result, w) := ops.dogeshellAppendHistory input w
  if result ≠ 0 then ops.dogeioPrintln "Warning: unable to save command history." w else w

/-- `system_dogeshell_ex` of a command that is not null. -/
def systemDogeshellEx (command : List UInt8) (w : World) : ℤ × World :=
  if command = [] then (0, w)
  else if lineSize ≤ command.length then reject ops "Error: command is too long." w
  else
    let w := saveHistory ops command w
    match findSeparators command 0 0 [] with
    | .error e => reject ops e.message w
    | .ok separators => runSegments ops command (separators ++ [command.length]) 0 0 w

end Run

end Windoge.Shell
