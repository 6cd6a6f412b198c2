import Windoge.Shell.Tokenize

/-!
# Shell commands of a script

A script line with a variable is expanded first and then quoted again by
`build_shell_command`: every token between double quotes, with a backslash before quotes
and backslashes. Both scanners of the shell read this text as one command with the same
tokens, whatever bytes the tokens hold.
-/

namespace Windoge.Script

open Shell Exec List Option CString

/-- `append_checked`: one more character, with room for the terminator. -/
def appendChecked (capacity : ℕ) (character : UInt8) (output : List UInt8) : Option (List UInt8) :=
  if capacity ≤ output.length + 1 then none else some (output ++ [character])

/-- The inner loop of `build_shell_command`. -/
def appendEscaped (capacity : ℕ) : List UInt8 → List UInt8 → Option (List UInt8)
  | [], output => some output
  | c :: token, output => do
    let output ← (if c = doubleQuote ∨ c = backslash then appendChecked capacity backslash output
      else some output)
    let output ← appendChecked capacity c output
    appendEscaped capacity token output

/-- The outer loop of `build_shell_command` from token `i` on. -/
def appendTokens (capacity : ℕ) : List CString → ℕ → List UInt8 → Option (List UInt8)
  | [], _, output => some output
  | token :: tokens, i, output => do
    let output ← (if i ≠ 0 then appendChecked capacity 32 output else some output)
    let output ← appendChecked capacity doubleQuote output
    let output ← appendEscaped capacity token.bytes output
    let output ← appendChecked capacity doubleQuote output
    appendTokens capacity tokens (i + 1) output

/-- `build_shell_command`: the command, or no result for -1. -/
def buildShellCommand (capacity : ℕ) (tokens : List CString) : Option (List UInt8) :=
  appendTokens capacity tokens 0 []

/-- A token with a backslash before each quote and backslash. -/
def escape (token : List UInt8) : List UInt8 :=
  token.flatMap fun c => if c = doubleQuote ∨ c = backslash then [backslash, c] else [c]

/-- A token between quotes. -/
def quoted (token : List UInt8) : List UInt8 := doubleQuote :: (escape token ++ [doubleQuote])

/-- Tokens between quotes, each with a blank before it. -/
def quotedTail (tokens : List CString) : List UInt8 :=
  tokens.flatMap fun token => 32 :: quoted token.bytes

variable {capacity size w i : ℕ} {token output rest argument output' : List UInt8}
  {tokens : List CString} {arguments : List (List UInt8)}

theorem appendChecked_some {c : UInt8} (h : appendChecked capacity c output = some output') :
    output' = output ++ [c] := by
  unfold appendChecked at h
  split_ifs at h
  exact (some.inj h).symm

/-- The escaped characters that were appended. -/
theorem appendEscaped_some (h : appendEscaped capacity token output = some output') :
    output' = output ++ escape token := by
  induction token generalizing output with
  | nil => simpa [escape] using (some.inj h).symm
  | cons c token ih =>
    rw [appendEscaped] at h
    obtain ⟨first, hfirst, h⟩ := bind_eq_some_iff.mp h
    obtain ⟨second, hsecond, h⟩ := bind_eq_some_iff.mp h
    have hsecond := appendChecked_some hsecond
    rw [ih h, hsecond, escape, escape, flatMap_cons]
    split_ifs at hfirst ⊢
    · rw [appendChecked_some hfirst]
      simp
    · rw [← some.inj hfirst]
      simp

/-- The quoted tokens that were appended behind others. -/
theorem appendTokens_some (hi : i ≠ 0) (h : appendTokens capacity tokens i output = some output') :
    output' = output ++ quotedTail tokens := by
  induction tokens generalizing i output with
  | nil => simpa [quotedTail] using (some.inj h).symm
  | cons token tokens ih =>
    rw [appendTokens] at h
    obtain ⟨blank, hblank, h⟩ := bind_eq_some_iff.mp h
    obtain ⟨opened, hopened, h⟩ := bind_eq_some_iff.mp h
    obtain ⟨escaped, hescaped, h⟩ := bind_eq_some_iff.mp h
    obtain ⟨closed, hclosed, h⟩ := bind_eq_some_iff.mp h
    rw [if_pos hi] at hblank
    rw [ih (Nat.succ_ne_zero i) h, appendChecked_some hclosed, appendEscaped_some hescaped,
      appendChecked_some hopened, appendChecked_some hblank]
    simp [quotedTail, quoted]

/-- The command that is built for a first token and others. -/
theorem buildShellCommand_some {first : CString}
    (h : buildShellCommand capacity (first :: tokens) = some output) :
    output = quoted first.bytes ++ quotedTail tokens := by
  rw [buildShellCommand, appendTokens] at h
  obtain ⟨blank, hblank, h⟩ := bind_eq_some_iff.mp h
  obtain ⟨opened, hopened, h⟩ := bind_eq_some_iff.mp h
  obtain ⟨escaped, hescaped, h⟩ := bind_eq_some_iff.mp h
  obtain ⟨closed, hclosed, h⟩ := bind_eq_some_iff.mp h
  have hnone : blank = [] := (some.inj hblank).symm
  rw [appendTokens_some (Nat.succ_ne_zero 0) h, appendChecked_some hclosed,
    appendEscaped_some hescaped, appendChecked_some hopened, hnone]
  simp [quoted]

theorem length_le_escape (token : List UInt8) : token.length ≤ (escape token).length := by
  induction token with
  | nil => exact zero_le
  | cons c token ih =>
    rw [escape, flatMap_cons, length_append, length_cons]
    change token.length ≤ (flatMap _ token).length at ih
    split_ifs <;> simp only [length_cons, length_nil] <;> omega

/-- The separator scan passes a quoted text and its closing quote. -/
theorem findSeparators_escape (token rest : List UInt8) (i : ℕ) (separators : List ℕ) :
    findSeparators (escape token ++ doubleQuote :: rest) i doubleQuote separators =
      findSeparators rest (i + (escape token).length + 1) 0 separators := by
  induction token generalizing i with
  | nil =>
    change findSeparators (doubleQuote :: rest) i doubleQuote separators = _
    rw [findSeparators.eq_def]
    dsimp only
    rw [if_neg (by decide), if_pos (by decide), if_pos rfl]
    rfl
  | cons c token ih =>
    by_cases hspecial : c = doubleQuote ∨ c = backslash
    · have hcons : escape (c :: token) = backslash :: c :: escape token := by simp [escape, hspecial]
      rw [hcons, cons_append, cons_append, findSeparators.eq_def]
      dsimp only
      rw [if_pos ⟨rfl, by decide⟩]
      rw [ih]
      congr 1
      simp only [length_cons]
      omega
    · have hcons : escape (c :: token) = c :: escape token := by simp [escape, hspecial]
      rw [not_or] at hspecial
      rw [hcons, cons_append, findSeparators.eq_def]
      dsimp only
      rw [if_neg (fun h => hspecial.2 h.1), if_pos (by decide), if_neg hspecial.1, ih]
      congr 1
      simp only [length_cons]
      omega

/-- The separator scan passes a quoted token. -/
theorem findSeparators_quoted (token rest : List UInt8) (i : ℕ) (separators : List ℕ) :
    findSeparators (quoted token ++ rest) i 0 separators =
      findSeparators rest (i + (quoted token).length) 0 separators := by
  rw [quoted, cons_append, findSeparators.eq_def]
  dsimp only
  rw [if_neg (by decide), if_neg (by decide), if_pos (Or.inr rfl), append_assoc, singleton_append,
    findSeparators_escape]
  congr 1
  simp only [length_cons, length_append, length_nil]
  omega

/-- The separator scan finds nothing in quoted tokens. -/
theorem findSeparators_quotedTail (tokens : List CString) (i : ℕ) (separators : List ℕ) :
    findSeparators (quotedTail tokens) i 0 separators = .ok separators := by
  induction tokens generalizing i with
  | nil => rfl
  | cons token tokens ih =>
    have hcons : quotedTail (token :: tokens) = 32 :: (quoted token.bytes ++ quotedTail tokens) := rfl
    rw [hcons, findSeparators.eq_def]
    dsimp only
    rw [if_neg (by decide), if_neg (by decide), if_neg (by decide), if_neg (by decide), findSeparators_quoted, ih]

/-- The tokenizer stores what was escaped, up to the closing quote. -/
theorem tokenizeArgument_escape (token rest argument : List UInt8) (hroom : w + token.length < size) :
    tokenizeArgument size (escape token ++ doubleQuote :: rest) doubleQuote w argument =
      tokenizeArgument size rest 0 (w + token.length) (argument ++ token) := by
  induction token generalizing w argument with
  | nil =>
    change tokenizeArgument size (doubleQuote :: rest) doubleQuote w argument = _
    rw [tokenizeArgument.eq_def]
    dsimp only
    rw [if_neg (by decide), if_neg (by decide), if_pos ⟨by decide, rfl⟩, append_nil]
    rfl
  | cons c token ih =>
    rw [length_cons] at hroom
    have hstored : ¬ size ≤ w + 1 := by omega
    have hindex : w + 1 + token.length = w + (c :: token).length := by
      rw [length_cons]
      omega
    have hnext := @ih (w + 1) (argument ++ [c]) (by omega)
    rw [hindex, append_assoc, singleton_append] at hnext
    by_cases hspecial : c = doubleQuote ∨ c = backslash
    · have hcons : escape (c :: token) = backslash :: c :: escape token := by simp [escape, hspecial]
      rw [hcons, cons_append, cons_append, tokenizeArgument.eq_def]
      dsimp only
      rw [if_neg (by decide), if_pos ⟨rfl, by decide⟩]
      rwa [if_neg hstored]
    · have hcons : escape (c :: token) = c :: escape token := by simp [escape, hspecial]
      rw [not_or] at hspecial
      have hopen : ¬ (doubleQuote = 0 ∧ isBlank c = true) := fun h => absurd h.1 (by decide)
      rw [hcons, cons_append, tokenizeArgument.eq_def]
      dsimp only
      rw [if_neg hopen, if_neg (fun h => hspecial.2 h.1), if_neg (fun h => hspecial.1 h.2),
        if_neg (fun h => absurd h.1 (by decide)), if_neg hstored]
      exact hnext

/-- The tokenizer reads a quoted token back, if a blank or the end follows. -/
theorem tokenizeArgument_quoted (token rest : List UInt8) (hroom : w + token.length < size)
    (hend : ∀ c ∈ rest.head?, isBlank c = true) :
    tokenizeArgument size (quoted token ++ rest) 0 w [] = some (token, w + token.length + 1, rest) := by
  have hfull : ¬ size ≤ w + token.length := by omega
  rw [quoted, cons_append, tokenizeArgument.eq_def]
  dsimp only
  rw [if_neg (by decide), if_neg (by decide), if_neg (by decide), if_pos ⟨rfl, Or.inr rfl⟩,
    append_assoc, singleton_append, tokenizeArgument_escape token rest [] hroom, nil_append]
  cases rest with
  | nil => rw [tokenizeArgument, if_neg (by simpa using hfull)]
  | cons c rest =>
    rw [tokenizeArgument.eq_def]
    dsimp only
    rw [if_pos ⟨rfl, hend c rfl⟩, if_neg hfull]

theorem quotedTail_head (tokens : List CString) : ∀ c ∈ (quotedTail tokens).head?, isBlank c = true := by
  cases tokens with
  | nil => exact fun c hc => absurd hc (by simp [quotedTail])
  | cons token tokens =>
    intro c hc
    obtain rfl : 32 = c := some.inj hc
    decide

/-- One round of the tokenizer on a quoted token, after blanks. -/
theorem tokenizeLoop_quoted {fuel : ℕ} {blanks : List UInt8} (hblanks : ∀ c ∈ blanks, isBlank c = true)
    (hcount : arguments.length < capacity) (hroom : w + token.length < size)
    (hend : ∀ c ∈ rest.head?, isBlank c = true) :
    tokenizeLoop size capacity (fuel + 1) (blanks ++ (quoted token ++ rest)) w arguments =
      tokenizeLoop size capacity fuel rest (w + token.length + 1) (arguments ++ [token]) := by
  have hskip : (blanks ++ (quoted token ++ rest)).dropWhile isBlank = quoted token ++ rest := by
    rw [dropWhile_append_of_pos hblanks]
    rfl
  have hargument := tokenizeArgument_quoted token rest hroom hend
  rw [quoted, cons_append] at hskip hargument ⊢
  rw [tokenizeLoop, hskip]
  dsimp only
  rw [if_neg (by omega), hargument]

/-- The tokenizer reads quoted tokens back. -/
theorem tokenizeLoop_quotedTail {fuel : ℕ} (hfuel : tokens.length < fuel)
    (hcount : arguments.length + tokens.length ≤ capacity) (hroom : w + (quotedTail tokens).length ≤ size) :
    tokenizeLoop size capacity fuel (quotedTail tokens) w arguments = some (arguments ++ tokens.map bytes) := by
  induction tokens generalizing fuel w arguments with
  | nil =>
    obtain _ | fuel := fuel
    · omega
    rw [map_nil, append_nil]
    rfl
  | cons token tokens ih =>
    obtain _ | fuel := fuel
    · omega
    have hcons : quotedTail (token :: tokens) = [32] ++ (quoted token.bytes ++ quotedTail tokens) := rfl
    have hlength := length_le_escape token.bytes
    rw [hcons] at hroom ⊢
    rw [length_cons] at hfuel hcount
    simp only [quoted, length_append, length_cons, length_nil] at hroom
    rw [tokenizeLoop_quoted (forall_mem_singleton.mpr rfl) (by omega) (by omega) (quotedTail_head tokens)]
    rw [ih (by omega) (by rw [length_append, length_singleton]; omega) (by omega)]
    rw [append_assoc, map_cons, singleton_append]

theorem length_le_quotedTail (tokens : List CString) : tokens.length ≤ (quotedTail tokens).length := by
  induction tokens with
  | nil => exact zero_le
  | cons token tokens ih =>
    have hcons : quotedTail (token :: tokens) = 32 :: (quoted token.bytes ++ quotedTail tokens) := rfl
    rw [hcons, length_cons, length_cons, length_append]
    omega

/-- The tokenizer reads a command that was built back into its tokens. -/
theorem dogeshellTokenize_built {first : CString} (hcount : (first :: tokens).length ≤ capacity)
    (hroom : (quoted first.bytes ++ quotedTail tokens).length ≤ size) :
    dogeshellTokenize (quoted first.bytes ++ quotedTail tokens) size capacity =
      some ((first :: tokens).map bytes) := by
  have hlength := length_le_escape first.bytes
  have htokens := length_le_quotedTail tokens
  rw [length_cons] at hcount
  simp only [length_append, quoted, length_cons, length_nil] at hroom
  have hround := @tokenizeLoop_quoted capacity size 0 first.bytes (quotedTail tokens) []
    (quoted first.bytes ++ quotedTail tokens).length [] (by simp) (by simpa using by omega)
    (by omega) (quotedTail_head tokens)
  rw [nil_append] at hround
  rw [dogeshellTokenize, hround, tokenizeLoop_quotedTail]
  · simp
  · simp only [length_append, quoted, length_cons]
    omega
  · simpa using by omega
  · omega

section Runs

variable {World : Type} (ops : ShellOps World)

/-- The shell run of a single command: saved in the history and executed unless the shell is to
exit. -/
def runCommandOnce (command : List UInt8) (arguments : List (List UInt8)) (world : World) : ℤ × World :=
  let world := saveHistory ops command world
  if ops.exitRequested world then (0, ops.setLastStatus 0 world)
  else
    let (status, world) := ops.dogeshellExecute arguments world
    (status, ops.setLastStatus status (ops.setLastStatus status world))

/-- A built command has no separator, is cut back into its tokens and is run as one command. -/
theorem built_command_runs_once (tokens : List CString) (hsome : 1 ≤ tokens.length)
    (hcount : tokens.length ≤ 16) (hbuilt : buildShellCommand capacity tokens = some output)
    (hshort : output.length < 256) (world : World) :
    findSeparators output 0 0 [] = .ok [] ∧
      dogeshellTokenize output lineSize argumentCapacity = some (tokens.map CString.bytes) ∧
      systemDogeshellEx ops output world =
        runCommandOnce ops output (tokens.map CString.bytes) world := by
  obtain ⟨first, tokens, rfl⟩ := exists_cons_of_length_pos hsome
  have houtput := buildShellCommand_some hbuilt
  have hseparators : findSeparators output 0 0 [] = .ok [] := by
    rw [houtput, findSeparators_quoted, findSeparators_quotedTail]
  have htokens : dogeshellTokenize output lineSize argumentCapacity = some ((first :: tokens).map bytes) := by
    rw [houtput] at hshort ⊢
    exact dogeshellTokenize_built (hcount.trans (by decide)) (by rw [lineSize]; omega)
  refine ⟨hseparators, htokens, ?_⟩
  have hsegment : (output.take output.length).drop 0 = output := by rw [take_length, drop_zero]
  rw [systemDogeshellEx, if_neg (by rw [houtput]; exact cons_ne_nil _ _),
    if_neg (by rw [lineSize]; omega), hseparators]
  change runSegments ops output [output.length] 0 0 _ = _
  rw [runSegments, hsegment, htokens]
  rfl

end Runs

/-- A shell that only records the commands it is given. -/
def recordingShell : ShellOps (List (List (List UInt8))) where
  dogeshellExecute arguments log := (0, log ++ [arguments])
  dogeshellAppendHistory _ log := (0, log)
  dogeioPrintln _ log := log
  exitRequested _ := false
  setLastStatus _ log := log

/-- A token with a quote, a semicolon, a blank and a final backslash. -/
def hostileToken : CString := ⟨[97, 34, 59, 32, 39, 92], by simp⟩

/-- The command for the hostile token and an empty one. -/
def hostileCommand : List UInt8 := [34, 97, 92, 34, 59, 32, 39, 92, 92, 34, 32, 34, 34]

/-- The hostile token and an empty token are run as one command with these two arguments. -/
theorem built_command_hostile :
    findSeparators hostileCommand 0 0 [] = .ok [] ∧
      dogeshellTokenize hostileCommand lineSize argumentCapacity = some [hostileToken.bytes, []] ∧
      systemDogeshellEx recordingShell hostileCommand [] =
        runCommandOnce recordingShell hostileCommand [hostileToken.bytes, []] [] :=
  @built_command_runs_once 4096 hostileCommand _ recordingShell [hostileToken, ⟨[], by simp⟩] (by decide)
    (by decide) (by decide) (by decide) []

end Windoge.Script
