import Windoge.Script.Words
import Windoge.Shell.Tokenize

/-!
# The command line of the Bash shell

`system_bash_ex` of `bash.c` cuts a line at its operators, one segment at a time, and hands each
segment it runs to `tokenize`, which expands variables and cuts words. The two scan quotes on
their own. What commands do, the variables, the history file and the screen are operations on a
state that the scanners do not look into.
-/

namespace Windoge.Bash

open Shell
open Script (Text text)

/-- `BASH_LINE_SIZE`. -/
def bashLineSize : ℕ := 256

/-- `BASH_TOKEN_COUNT`. -/
def bashTokenCount : ℕ := 32

/-- `BASH_VARIABLE_NAME_SIZE`. -/
def bashVariableNameSize : ℕ := 32

/-- `token_type_t`. -/
inductive TokenType
  | word
  | semicolon
  | and
  | or
  | unsupported
  deriving DecidableEq

/-- `bash_token_t`; operators have no value. -/
structure BashToken where
  type : TokenType
  value : Option Text
  deriving DecidableEq

/-- `'$'`. -/
def dollar : UInt8 := 36

/-- `'&'`. -/
def ampersand : UInt8 := 38

/-- `'|'`. -/
def pipe : UInt8 := 124

/-- `'<'`. -/
def less : UInt8 := 60

/-- `'>'`. -/
def greater : UInt8 := 62

/-- The characters operators are made of. -/
def isOperator (c : UInt8) : Bool :=
  c = semicolon || c = ampersand || c = pipe || c = less || c = greater

/-- A character a variable name can start with. -/
def isNameStart (c : UInt8) : Bool :=
  (65 ≤ c && c ≤ 90) || (97 ≤ c && c ≤ 122) || c = 95

/-- A character of a variable name. -/
def isNameChar (c : UInt8) : Bool :=
  isNameStart c || (48 ≤ c && c ≤ 57)

/-- `valid_variable_name`. -/
def validVariableName (name : Text) : Bool :=
  match name with
  | [] => false
  | c :: rest => decide (name.length < bashVariableNameSize) && isNameStart c && rest.all isNameChar

/-- The type of the operator at the front of a text, and its length. -/
def operatorAt (character : UInt8) (rest : Text) : TokenType × ℕ :=
  if character = semicolon then (.semicolon, 1)
  else if (character = ampersand ∨ character = pipe) ∧ rest.head? = some character then
    (if character = ampersand then .and else .or, 2)
  else if (character = less ∨ character = greater) ∧ rest.head? = some character then
    (.unsupported, 2)
  else (.unsupported, 1)

/-- `append_expansion` behind the dollar: the text it appends and what is left of the source. -/
def appendExpansion (getVariable : Text → Text) (source : Text) : Option (Text × Text) :=
  match source with
  | 63 :: rest => some (getVariable (text "?"), rest)
  | 123 :: rest =>
    let name := rest.takeWhile (· ≠ 125)
    match rest.drop name.length with
    | [] => none
    | _ :: rest => if validVariableName name then some (getVariable name, rest) else none
  | c :: rest =>
    if isNameStart c then
      let name := c :: rest.takeWhile isNameChar
      some (getVariable name, rest.drop (name.length - 1))
    else some (text "$", c :: rest)
  | [] => some (text "$", [])

/-- The variables of `tokenize`: the current word, if there is one, with its text, the place in the
storage, and the tokens so far. -/
structure Tokenizer where
  quote : UInt8
  word : Option Text
  writeIndex : ℕ
  tokens : List BashToken

/-- `add_token`. -/
def addToken (t : Tokenizer) (token : BashToken) : Option Tokenizer :=
  if t.tokens.length = bashTokenCount then none
  else some { t with tokens := t.tokens ++ [token] }

/-- End the current word: terminate it in the storage and add its token. -/
def endWord (t : Tokenizer) : Option Tokenizer :=
  match t.word with
  | none => some t
  | some word =>
    if bashLineSize ≤ t.writeIndex then none
    else addToken { t with word := none, writeIndex := t.writeIndex + 1 } ⟨.word, some word⟩

/-- Start a word unless one is open. -/
def startWord (t : Tokenizer) : Option Tokenizer :=
  match t.word with
  | some _ => some t
  | none =>
    if t.tokens.length = bashTokenCount ∨ bashLineSize ≤ t.writeIndex then none
    else some { t with word := some [] }

/-- Store a character of the current word. -/
def putCharacter (t : Tokenizer) (c : UInt8) : Option Tokenizer :=
  if bashLineSize ≤ t.writeIndex + 1 then none
  else some { t with word := some (t.word.getD [] ++ [c]), writeIndex := t.writeIndex + 1 }

/-- `append_text` to the current word. -/
def appendText (t : Tokenizer) (value : Text) : Option Tokenizer :=
  if bashLineSize < t.writeIndex ∨ bashLineSize - t.writeIndex ≤ value.length then none
  else some { t with word := some (t.word.getD [] ++ value), writeIndex := t.writeIndex + value.length }

/-- One round of the loop of `tokenize`: the rest of the source and the variables after it. -/
def tokenizeRound (getVariable : Text → Text) (character : UInt8) (source : Text) (t : Tokenizer) :
    Option (Text × Tokenizer) :=
  if t.quote = 0 ∧ isBlank character then do
    let t ← endWord t
    some (source, t)
  else if t.quote = 0 ∧ isOperator character then do
    let t ← endWord t
    let t ← addToken t ⟨(operatorAt character source).1, none⟩
    some (source.drop ((operatorAt character source).2 - 1), t)
  else do
    let t ← startWord t
    if t.quote = 0 ∧ (character = singleQuote ∨ character = doubleQuote) then
      some (source, { t with quote := character })
    else if t.quote ≠ 0 ∧ character = t.quote then
      some (source, { t with quote := 0 })
    else if character = backslash ∧ t.quote ≠ singleQuote then
      match source with
      | [] => none
      | escaped :: source => do
        let t ← putCharacter t escaped
        some (source, t)
    else if character = dollar ∧ t.quote ≠ singleQuote then do
      let (value, source) ← appendExpansion getVariable source
      let t ← appendText t value
      some (source, t)
    else do
      let t ← putCharacter t character
      some (source, t)

/-- The loop of `tokenize`; every round consumes a character. -/
def tokenizeLoop (getVariable : Text → Text) : ℕ → Text → Tokenizer → Option (List BashToken)
  | 0, _, _ => none
  | _ + 1, [], t => if t.quote ≠ 0 then none else (endWord t).map Tokenizer.tokens
  | fuel + 1, character :: source, t =>
    match tokenizeRound getVariable character source t with
    | none => none
    | some (source, t) => tokenizeLoop getVariable fuel source t

/-- `tokenize`. -/
def tokenize (getVariable : Text → Text) (source : Text) : Option (List BashToken) :=
  tokenizeLoop getVariable (source.length + 1) source ⟨0, none, 0, []⟩

/-- `find_next_operator`: the length of the segment, and the length and type of the operator that
ends it; the end of the text is a word of length zero. `length` characters have been passed. -/
def findNextOperator : Text → UInt8 → ℕ → Option (ℕ × ℕ × TokenType)
  | [], quote, length => if quote ≠ 0 then none else some (length, 0, .word)
  | character :: source, quote, length =>
    if character = backslash ∧ quote ≠ singleQuote then
      match source with
      | [] => none
      | _ :: source => findNextOperator source quote (length + 2)
    else if quote ≠ 0 then
      findNextOperator source (if character = quote then 0 else quote) (length + 1)
    else if character = singleQuote ∨ character = doubleQuote then
      findNextOperator source character (length + 1)
    else if isOperator character then
      some (length, (operatorAt character source).2, (operatorAt character source).1)
    else findNextOperator source quote (length + 1)

/-- The shell's own variables, and the rest of the kernel. -/
structure Session (World : Type) where
  world : World
  shellStatus : ℤ
  shellExitRequested : Bool

/-- What `system_bash_ex` does to the rest of the kernel; `getVariable` is `get_variable`. -/
structure BashOps (World : Type) where
  executeCommand : List (Option Text) → Session World → ℤ × Session World
  getVariable : Session World → Text → Text
  appendHistory : Text → World → ℤ × World
  dogeioPrintln : String → World → World

section Run

variable {World : Type} (ops : BashOps World)

/-- Print a line. -/
def say (message : String) (s : Session World) : Session World :=
  { s with world := ops.dogeioPrintln message s.world }

/-- How a round of the loop ends: the status and the session with which the loop is left, or the text
to go on with and whether its first segment runs and must not be blank. -/
inductive Round (World : Type)
  | stop (status : ℤ) (s : Session World)
  | next (source : Text) (status : ℤ) (shouldExecute requiresCommand : Bool) (s : Session World)

/-- The first half of a round: run the segment, if it is to run. An error status ends the loop. -/
def runSegment (segment : Text) (operatorType : TokenType) (status : ℤ) (shouldExecute : Bool)
    (s : Session World) : Except (ℤ × Session World) (ℤ × Session World) :=
  if shouldExecute ∧ segment.any (fun c => !isBlank c) then
    match tokenize (ops.getVariable s) segment with
    | none => .error (2, say ops "bash: syntax error or command line too long" s)
    | some [] => .ok (status, s)
    | some tokens =>
      let (status, s) := ops.executeCommand (tokens.map BashToken.value) s
      .ok (status, { s with shellStatus := status })
  else if operatorType ≠ .semicolon ∧ operatorType ≠ .word ∧ shouldExecute then
    .error (2, say ops "bash: pipelines and redirections are not supported" s)
  else .ok (status, s)

/-- The second half of a round: go on behind the operator. `source` starts behind it. -/
def followOperator (source : Text) (operatorType : TokenType) (status : ℤ) (requiresCommand : Bool)
    (s : Session World) : Round World :=
  let go (shouldExecute requiresCommand : Bool) : Round World :=
    match source.dropWhile isBlank with
    | [] =>
      if operatorType = .semicolon then .stop status s
      else .stop 2 (say ops "bash: syntax error near unexpected token" s)
    | next => .next next status shouldExecute requiresCommand s
  match operatorType with
  | .semicolon => go true requiresCommand
  | .and => go (status = 0) true
  | .or => go (status ≠ 0) true
  | _ => .stop 2 (say ops "bash: pipelines and redirections are not supported" s)

/-- One round of the loop of `system_bash_ex`. -/
def bashRound (source : Text) (status : ℤ) (shouldExecute requiresCommand : Bool) (s : Session World) :
    Round World :=
  match findNextOperator source 0 0 with
  | none => .stop 2 (say ops "bash: syntax error: unmatched quote or escape" s)
  | some (segmentLength, operatorLength, operatorType) =>
    let segment := source.take segmentLength
    let segmentHasCommand := segment.any fun c => !isBlank c
    match runSegment ops segment operatorType status shouldExecute s with
    | .error (status, s) => .stop status s
    | .ok (status, s) =>
      if requiresCommand ∧ ¬ segmentHasCommand then
        .stop 2 (say ops "bash: syntax error near unexpected token" s)
      else if operatorLength = 0 then .stop status s
      else followOperator ops (source.drop (segmentLength + operatorLength)) operatorType status
        (if segmentHasCommand then false else requiresCommand) s

/-- The loop of `system_bash_ex`; every round consumes an operator. -/
def bashLoop : ℕ → Text → ℤ → Bool → Bool → Session World → ℤ × Session World
  | 0, _, status, _, _, s => (status, s)
  | fuel + 1, source, status, shouldExecute, requiresCommand, s =>
    if source = [] ∨ s.shellExitRequested then (status, s)
    else
      match bashRound ops source status shouldExecute requiresCommand s with
      | .stop status s => (status, s)
      | .next source status shouldExecute requiresCommand s =>
        bashLoop fuel source status shouldExecute requiresCommand s

/-- Save a line in the history; a failure only prints a warning. -/
def saveLine (line : Text) (s : Session World) : Session World :=
  let (result, world) := ops.appendHistory line s.world
  if result ≠ 0 then say ops "bash: unable to save command history" { s with world := world }
  else { s with world := world }

/-- `system_bash_ex` of a command that is not null. -/
def systemBashEx (command : Text) (s : Session World) : ℤ × Session World :=
  let s := { s with shellExitRequested := false }
  if command = [] then (s.shellStatus, s)
  else if bashLineSize ≤ command.length then
    (2, { say ops "bash: syntax error or command line too long" s with shellStatus := 2 })
  else
    let (status, s) := bashLoop ops (command.length + 1) command 0 true false (saveLine ops command s)
    (status, { s with shellStatus := status })

end Run

/-!
## Clean texts

A text is clean when its quotes and escapes are complete and no operator is outside them. Both
scanners of the Bash shell pass over clean texts: `find_next_operator` finds no operator in one
and cuts off nothing else, and `tokenize` makes words of it.
-/

open List Option Prod Bool

/-- Quotes and escapes are complete and no operator is outside them, when `quote` is open before the
text (0 for none). -/
def Clean : Text → UInt8 → Bool
  | [], quote => quote = 0
  | character :: source, quote =>
    if character = backslash ∧ quote ≠ singleQuote then
      match source with
      | [] => false
      | _ :: source => Clean source quote
    else if quote ≠ 0 then Clean source (if character = quote then 0 else quote)
    else if character = singleQuote ∨ character = doubleQuote then Clean source character
    else !isOperator character && Clean source quote

/-- A text that is not blank. -/
def hasCommand (source : Text) : Bool := source.any fun c => !isBlank c

section Scanning

variable {source tail : Text} {quote character : UInt8}

theorem clean_cons (character quote : UInt8) (source : Text) :
    Clean (character :: source) quote =
      if character = backslash ∧ quote ≠ singleQuote then
        match source with
        | [] => false
        | _ :: source => Clean source quote
      else if quote ≠ 0 then Clean source (if character = quote then 0 else quote)
      else if character = singleQuote ∨ character = doubleQuote then Clean source character
      else !isOperator character && Clean source quote := by
  rw [Clean.eq_def]
  rfl

theorem findNextOperator_cons (character quote : UInt8) (source : Text) (length : ℕ) :
    findNextOperator (character :: source) quote length =
      if character = backslash ∧ quote ≠ singleQuote then
        match source with
        | [] => none
        | _ :: source => findNextOperator source quote (length + 2)
      else if quote ≠ 0 then
        findNextOperator source (if character = quote then 0 else quote) (length + 1)
      else if character = singleQuote ∨ character = doubleQuote then
        findNextOperator source character (length + 1)
      else if isOperator character then
        some (length, (operatorAt character source).2, (operatorAt character source).1)
      else findNextOperator source quote (length + 1) := by
  rw [findNextOperator.eq_def]
  rfl

/-- The scan for operators passes over a clean text. -/
theorem findNextOperator_clean (length : ℕ) (hclean : Clean source quote) :
    findNextOperator (source ++ tail) quote length = findNextOperator tail 0 (length + source.length) := by
  induction source, quote using Clean.induct generalizing length with
  | case1 quote =>
    rw [Clean, decide_eq_true_eq] at hclean
    rw [hclean]
    rfl
  | case2 character quote hescape =>
    rw [clean_cons, if_pos hescape] at hclean
    cases hclean
  | case3 character quote hescape next source ih =>
    rw [clean_cons, if_pos hescape] at hclean
    rw [cons_append, cons_append, findNextOperator_cons, if_pos hescape]
    dsimp only
    rw [ih _ hclean]
    congr 1
    simp only [length_cons]
    omega
  | case4 character source quote hescape hquote ih =>
    rw [clean_cons, if_neg hescape, if_pos hquote] at hclean
    rw [cons_append, findNextOperator_cons, if_neg hescape, if_pos hquote, ih _ hclean]
    congr 1
    simp only [length_cons]
    omega
  | case5 character source quote hescape hquote hopens ih =>
    rw [clean_cons, if_neg hescape, if_neg hquote, if_pos hopens] at hclean
    rw [cons_append, findNextOperator_cons, if_neg hescape, if_neg hquote, if_pos hopens, ih _ hclean]
    congr 1
    simp only [length_cons]
    omega
  | case6 character source quote hescape hquote hplain ih =>
    rw [clean_cons, if_neg hescape, if_neg hquote, if_neg hplain, and_eq_true, Bool.not_eq_true'] at hclean
    rw [cons_append, findNextOperator_cons, if_neg hescape, if_neg hquote, if_neg hplain,
      if_neg (by rw [hclean.1]; exact nofun), ih _ hclean.2]
    congr 1
    simp only [length_cons]
    omega

/-- What the scan cuts off is clean. -/
theorem clean_of_findNextOperator {length segmentEnd operatorLength : ℕ} {type : TokenType}
    (hfind : findNextOperator source quote length = some (segmentEnd, operatorLength, type)) :
    ∃ n, segmentEnd = length + n ∧ Clean (source.take n) quote := by
  induction source, quote, length using findNextOperator.induct with
  | case1 quote length hopen =>
    rw [findNextOperator, if_pos hopen] at hfind
    cases hfind
  | case2 quote length hclosed =>
    rw [findNextOperator, if_neg hclosed] at hfind
    cases hfind
    exact ⟨0, rfl, by simpa [Clean] using hclosed⟩
  | case3 character quote length hescape =>
    rw [findNextOperator_cons, if_pos hescape] at hfind
    cases hfind
  | case4 character quote length hescape next source ih =>
    rw [findNextOperator_cons, if_pos hescape] at hfind
    obtain ⟨n, rfl, hclean⟩ := ih hfind
    refine ⟨n + 1 + 1, by omega, ?_⟩
    rwa [take_succ_cons, take_succ_cons, clean_cons, if_pos hescape]
  | case5 character source quote length hescape hquote ih =>
    rw [findNextOperator_cons, if_neg hescape, if_pos hquote] at hfind
    obtain ⟨n, rfl, hclean⟩ := ih hfind
    refine ⟨n + 1, by omega, ?_⟩
    rwa [take_succ_cons, clean_cons, if_neg hescape, if_pos hquote]
  | case6 character source quote length hescape hquote hopens ih =>
    rw [findNextOperator_cons, if_neg hescape, if_neg hquote, if_pos hopens] at hfind
    obtain ⟨n, rfl, hclean⟩ := ih hfind
    refine ⟨n + 1, by omega, ?_⟩
    rwa [take_succ_cons, clean_cons, if_neg hescape, if_neg hquote, if_pos hopens]
  | case7 character source quote length hescape hquote hplain hoperator =>
    rw [findNextOperator_cons, if_neg hescape, if_neg hquote, if_neg hplain, if_pos hoperator] at hfind
    cases hfind
    exact ⟨0, rfl, by simpa [Clean] using hquote⟩
  | case8 character source quote length hescape hquote hplain hoperator ih =>
    rw [findNextOperator_cons, if_neg hescape, if_neg hquote, if_neg hplain, if_neg hoperator] at hfind
    obtain ⟨n, rfl, hclean⟩ := ih hfind
    refine ⟨n + 1, by omega, ?_⟩
    rw [take_succ_cons, clean_cons, if_neg hescape, if_neg hquote, if_neg hplain, hclean,
      Bool.and_true, Bool.not_eq_true', Bool.eq_false_iff]
    exact hoperator

/-- The quotes a scanner can be in. -/
def IsQuote (quote : UInt8) : Prop := quote = 0 ∨ quote = singleQuote ∨ quote = doubleQuote

/-- A character that neither quotes nor escapes. -/
def Neutral (c : UInt8) : Prop := c ≠ backslash ∧ c ≠ singleQuote ∧ c ≠ doubleQuote

/-- Neutral characters leave the state of the scanner as it is. -/
theorem clean_of_neutral (hquote : IsQuote quote) (hneutral : Neutral character)
    (hclean : Clean (character :: source) quote) : Clean source quote := by
  obtain ⟨hbackslash, hsingle, hdouble⟩ := hneutral
  rw [clean_cons, if_neg (by simp [hbackslash])] at hclean
  by_cases hopen : quote ≠ 0
  · have hother : character ≠ quote := by
      rcases hquote with rfl | rfl | rfl
      · exact absurd rfl hopen
      · exact hsingle
      · exact hdouble
    rwa [if_pos hopen, if_neg hother] at hclean
  · rw [if_neg hopen, if_neg (by simp [hsingle, hdouble]), and_eq_true] at hclean
    exact hclean.2

theorem clean_of_neutral_append {front : Text} (hquote : IsQuote quote) (hfront : ∀ c ∈ front, Neutral c)
    (hclean : Clean (front ++ source) quote) : Clean source quote := by
  induction front with
  | nil => exact hclean
  | cons c front ih =>
    exact ih (fun c hc => hfront c (mem_cons_of_mem _ hc))
      (clean_of_neutral hquote (hfront c mem_cons_self) hclean)

theorem neutral_of_isNameChar (h : isNameChar character) : Neutral character := by
  refine ⟨?_, ?_, ?_⟩ <;>
  · rintro rfl
    revert h
    decide

theorem neutral_of_isBlank (h : isBlank character) : Neutral character := by
  refine ⟨?_, ?_, ?_⟩ <;>
  · rintro rfl
    revert h
    decide

theorem isNameChar_of_validVariableName {name : Text} (h : validVariableName name) :
    ∀ c ∈ name, isNameChar c := by
  cases name with
  | nil => simp
  | cons c rest =>
    simp only [validVariableName, and_eq_true, List.all_eq_true] at h
    intro x hx
    rcases mem_cons.mp hx with rfl | hx
    · rw [isNameChar, h.1.2, Bool.true_or]
    · exact h.2 x hx

theorem drop_takeWhile_length (p : UInt8 → Bool) (source : Text) :
    source.drop (source.takeWhile p).length = source.dropWhile p := by
  induction source with
  | nil => rfl
  | cons c source ih =>
    rw [takeWhile_cons, dropWhile_cons]
    split
    · exact ih
    · rfl

/-- An expansion passes over neutral characters only. -/
theorem appendExpansion_neutral {getVariable : Text → Text} {value rest : Text}
    (h : appendExpansion getVariable source = some (value, rest)) :
    ∃ front, source = front ++ rest ∧ ∀ c ∈ front, Neutral c := by
  unfold appendExpansion at h
  split at h
  · rename_i tail
    cases h
    exact ⟨[63], rfl, by simp [Neutral, backslash, singleQuote, doubleQuote]⟩
  · rename_i tail
    dsimp only at h
    rw [drop_takeWhile_length] at h
    split at h
    · cases h
    rename_i brace after hdrop
    split_ifs at h with hvalid
    cases h
    have hbrace : brace = 125 := by
      have hhead := head?_dropWhile_not (fun c : UInt8 => decide (c ≠ 125)) tail
      rw [hdrop] at hhead
      simpa using hhead
    refine ⟨123 :: (tail.takeWhile (· ≠ 125) ++ [brace]), ?_, ?_⟩
    · rw [cons_append, append_assoc, singleton_append, ← hdrop, takeWhile_append_dropWhile]
    · intro c hc
      rcases mem_cons.mp hc with rfl | hc
      · simp [Neutral, backslash, singleQuote, doubleQuote]
      rcases mem_append.mp hc with hc | hc
      · exact neutral_of_isNameChar (isNameChar_of_validVariableName hvalid c hc)
      · rw [mem_singleton.mp hc, hbrace]
        simp [Neutral, backslash, singleQuote, doubleQuote]
  · rename_i c tail _ _
    split_ifs at h with hstart
    · cases h
      refine ⟨c :: tail.takeWhile isNameChar, ?_, ?_⟩
      · rw [length_cons, Nat.add_sub_cancel, drop_takeWhile_length, cons_append, takeWhile_append_dropWhile]
      · intro x hx
        rcases mem_cons.mp hx with rfl | hx
        · exact neutral_of_isNameChar (by rw [isNameChar, hstart, Bool.true_or])
        · exact neutral_of_isNameChar (mem_takeWhile_imp hx)
    · cases h
      exact ⟨[], rfl, by simp⟩
  · cases h
    exact ⟨[], rfl, by simp⟩

end Scanning

section Tokens

variable {getVariable : Text → Text} {character : UInt8} {source source' : Text} {t t' : Tokenizer}

/-- A word is ended by adding a token for it. -/
theorem endWord_some (h : endWord t = some t') :
    t'.quote = t.quote ∧ t'.word = none ∧ ∃ words, t'.tokens = t.tokens ++ words ∧
      (∀ x ∈ words, x.type = .word) ∧ (t.word.isSome → words ≠ []) := by
  unfold endWord at h
  split at h
  · rename_i hnone
    cases h
    exact ⟨rfl, hnone, [], by simp, by simp, by simp [hnone]⟩
  · rename_i word _
    unfold addToken at h
    split_ifs at h
    cases h
    exact ⟨rfl, rfl, [⟨.word, some word⟩], rfl, by simp, by simp⟩

theorem startWord_some (h : startWord t = some t') :
    t'.quote = t.quote ∧ t'.tokens = t.tokens ∧ t'.word.isSome := by
  unfold startWord at h
  split at h
  · rename_i hsome
    cases h
    exact ⟨rfl, rfl, by rw [hsome]; rfl⟩
  · split_ifs at h
    cases h
    exact ⟨rfl, rfl, rfl⟩

theorem putCharacter_some {c : UInt8} (h : putCharacter t c = some t') :
    t'.quote = t.quote ∧ t'.tokens = t.tokens ∧ t'.word.isSome := by
  unfold putCharacter at h
  split_ifs at h
  cases h
  exact ⟨rfl, rfl, rfl⟩

theorem appendText_some {value : Text} (h : appendText t value = some t') :
    t'.quote = t.quote ∧ t'.tokens = t.tokens ∧ t'.word.isSome := by
  unfold appendText at h
  split_ifs at h
  cases h
  exact ⟨rfl, rfl, rfl⟩

/-- What a round of `tokenize` does: it passes a blank and ends the word, adds an operator, or adds
to the word, which is open then; the quote and the rest of the source are those of the scan. -/
theorem tokenizeRound_cases (h : tokenizeRound getVariable character source t = some (source', t')) :
    (t.quote = 0 ∧ isBlank character ∧ source' = source ∧ endWord t = some t') ∨
    (t.quote = 0 ∧ isOperator character ∧ t'.tokens ≠ []) ∨
    (¬ (t.quote = 0 ∧ (isBlank character ∨ isOperator character)) ∧ t'.tokens = t.tokens ∧ t'.word.isSome ∧
      ((t.quote = 0 ∧ (character = singleQuote ∨ character = doubleQuote) ∧ t'.quote = character ∧
          source' = source) ∨
       (t.quote ≠ 0 ∧ character = t.quote ∧ t'.quote = 0 ∧ source' = source) ∨
       (character = backslash ∧ t.quote ≠ singleQuote ∧ t'.quote = t.quote ∧ ∃ c, source = c :: source') ∨
       (character = dollar ∧ t'.quote = t.quote ∧
          ∃ value, appendExpansion getVariable source = some (value, source')) ∨
       (¬ (t.quote = 0 ∧ (character = singleQuote ∨ character = doubleQuote)) ∧
          ¬ (t.quote ≠ 0 ∧ character = t.quote) ∧ ¬ (character = backslash ∧ t.quote ≠ singleQuote) ∧
          t'.quote = t.quote ∧ source' = source))) := by
  unfold tokenizeRound at h
  split_ifs at h with hblank hoperator
  · obtain ⟨ended, hend, hrest⟩ := bind_eq_some_iff.mp h
    cases hrest
    exact .inl ⟨hblank.1, hblank.2, rfl, hend⟩
  · obtain ⟨ended, -, hrest⟩ := bind_eq_some_iff.mp h
    obtain ⟨added, hadd, hrest⟩ := bind_eq_some_iff.mp hrest
    cases hrest
    refine .inr (.inl ⟨hoperator.1, hoperator.2, ?_⟩)
    unfold addToken at hadd
    split_ifs at hadd
    cases hadd
    simp
  · obtain ⟨started, hstart, h⟩ := bind_eq_some_iff.mp h
    obtain ⟨hquote, htokens, hword⟩ := startWord_some hstart
    rw [hquote] at h
    refine .inr (.inr ⟨by tauto, ?_⟩)
    split_ifs at h with hopens hcloses hescape hdollar
    · cases h
      exact ⟨htokens, hword, .inl ⟨hopens.1, hopens.2, rfl, rfl⟩⟩
    · cases h
      exact ⟨htokens, hword, .inr (.inl ⟨hcloses.1, hcloses.2, rfl, rfl⟩)⟩
    · split at h
      · cases h
      obtain ⟨put, hput, hrest⟩ := bind_eq_some_iff.mp h
      cases hrest
      obtain ⟨hquote', htokens', hword'⟩ := putCharacter_some hput
      exact ⟨htokens'.trans htokens, hword', .inr (.inr (.inl
        ⟨hescape.1, hescape.2, hquote'.trans hquote, _, rfl⟩))⟩
    · obtain ⟨⟨value, rest⟩, hexpand, hrest⟩ := bind_eq_some_iff.mp h
      obtain ⟨put, hput, hrest⟩ := bind_eq_some_iff.mp hrest
      cases hrest
      obtain ⟨hquote', htokens', hword'⟩ := appendText_some hput
      exact ⟨htokens'.trans htokens, hword', .inr (.inr (.inr (.inl
        ⟨hdollar.1, hquote'.trans hquote, value, hexpand⟩)))⟩
    · obtain ⟨put, hput, hrest⟩ := bind_eq_some_iff.mp h
      cases hrest
      obtain ⟨hquote', htokens', hword'⟩ := putCharacter_some hput
      exact ⟨htokens'.trans htokens, hword', .inr (.inr (.inr (.inr
        ⟨hopens, hcloses, hescape, hquote'.trans hquote, rfl⟩)))⟩

/-- A round over a clean text leaves a clean text, and adds words only. -/
theorem tokenizeRound_clean (hquote : IsQuote t.quote) (hclean : Clean (character :: source) t.quote)
    (h : tokenizeRound getVariable character source t = some (source', t')) :
    IsQuote t'.quote ∧ Clean source' t'.quote ∧
      ∃ words, t'.tokens = t.tokens ++ words ∧ ∀ x ∈ words, x.type = .word := by
  rcases tokenizeRound_cases h with ⟨_, hblank, rfl, hend⟩ | ⟨hopen, hoperator, _⟩ |
      ⟨_, htokens, _, hcases⟩
  · obtain ⟨hsame, -, words, htokens, hwords, -⟩ := endWord_some hend
    rw [hsame]
    exact ⟨hquote, clean_of_neutral hquote (neutral_of_isBlank hblank) hclean, words, htokens, hwords⟩
  · -- An operator outside quotes is not clean.
    exfalso
    have hplain : character ≠ backslash ∧ ¬ (character = singleQuote ∨ character = doubleQuote) := by
      refine ⟨?_, ?_⟩
      · rintro rfl
        revert hoperator
        decide
      · rintro (rfl | rfl) <;>
        · revert hoperator
          decide
    rw [clean_cons, if_neg (by simp [hplain.1]), if_neg (by simp [hopen]), if_neg hplain.2, hoperator] at hclean
    cases hclean
  · have hnone : ∃ words, t'.tokens = t.tokens ++ words ∧ ∀ x ∈ words, x.type = .word :=
      ⟨[], by rw [htokens, append_nil], by simp⟩
    rcases hcases with ⟨hopen, hopens, hsame, rfl⟩ | ⟨hopen, hcloses, hsame, rfl⟩ |
      ⟨hescape, hsingle, hsame, c, rfl⟩ | ⟨hdollar, hsame, value, hexpand⟩ |
      ⟨hopens, hcloses, hescape, hsame, rfl⟩
    · have hnotEscape : ¬ (character = backslash ∧ t.quote ≠ singleQuote) := by
        rintro ⟨rfl, -⟩
        revert hopens
        decide
      rw [clean_cons, if_neg hnotEscape, if_neg (by simp [hopen]), if_pos hopens] at hclean
      rw [hsame]
      exact ⟨.inr hopens, hclean, hnone⟩
    · have hnotEscape : ¬ (character = backslash ∧ t.quote ≠ singleQuote) := by
        rintro ⟨rfl, -⟩
        rcases hquote with h | h | h <;> rw [h] at hcloses <;> revert hcloses <;> decide
      rw [clean_cons, if_neg hnotEscape, if_pos hopen, if_pos hcloses] at hclean
      rw [hsame]
      exact ⟨.inl rfl, hclean, hnone⟩
    · rw [clean_cons, if_pos ⟨hescape, hsingle⟩] at hclean
      rw [hsame]
      exact ⟨hquote, hclean, hnone⟩
    · obtain ⟨front, rfl, hfront⟩ := appendExpansion_neutral hexpand
      rw [hsame]
      have hneutral : Neutral character := by
        rw [hdollar]
        simp [Neutral, dollar, backslash, singleQuote, doubleQuote]
      exact ⟨hquote, clean_of_neutral_append hquote hfront (clean_of_neutral hquote hneutral hclean), hnone⟩
    · rw [hsame]
      refine ⟨hquote, ?_, hnone⟩
      rw [clean_cons, if_neg hescape] at hclean
      by_cases hopen : t.quote ≠ 0
      · rwa [if_pos hopen, if_neg fun heq => hcloses ⟨hopen, heq⟩] at hclean
      · rw [if_neg hopen, if_neg fun heq => hopens ⟨not_not.mp hopen, heq⟩, and_eq_true] at hclean
        exact hclean.2

/-- There is a token already, a word is open, or something is still to come. -/
def Pending (source : Text) (t : Tokenizer) : Prop :=
  t.tokens ≠ [] ∨ t.word.isSome ∨ hasCommand source

theorem tokenizeRound_pending (hpending : Pending (character :: source) t)
    (h : tokenizeRound getVariable character source t = some (source', t')) : Pending source' t' := by
  rcases tokenizeRound_cases h with ⟨_, hblank, rfl, hend⟩ | ⟨_, _, htokens⟩ | ⟨_, _, hword, _⟩
  · obtain ⟨-, -, words, htokens, -, hwords⟩ := endWord_some hend
    rcases hpending with hsome | hword | hmore
    · exact .inl (by rw [htokens]; simp [hsome])
    · exact .inl (by rw [htokens]; simp [hwords hword])
    · rw [hasCommand, any_cons, hblank] at hmore
      exact .inr (.inr hmore)
  · exact .inl htokens
  · exact .inr (.inl hword)

/-- The loop over a clean text adds words only. -/
theorem tokenizeLoop_words {fuel : ℕ} {tokens : List BashToken} (hquote : IsQuote t.quote)
    (hclean : Clean source t.quote) (hwords : ∀ x ∈ t.tokens, x.type = .word)
    (h : tokenizeLoop getVariable fuel source t = some tokens) : ∀ x ∈ tokens, x.type = .word := by
  induction fuel generalizing source t with
  | zero => cases h
  | succ fuel ih =>
    cases source with
    | nil =>
      rw [tokenizeLoop] at h
      split_ifs at h
      obtain ⟨ended, hend, rfl⟩ := map_eq_some_iff.mp h
      obtain ⟨-, -, words, htokens, hmore, -⟩ := endWord_some hend
      rw [htokens]
      exact fun x hx => (mem_append.mp hx).elim (hwords x) (hmore x)
    | cons character source =>
      rw [tokenizeLoop] at h
      split at h
      · cases h
      rename_i hround
      obtain ⟨hquote', hclean', words, htokens, hmore⟩ := tokenizeRound_clean hquote hclean hround
      refine ih hquote' hclean' (fun x hx => ?_) h
      rw [htokens] at hx
      exact (mem_append.mp hx).elim (hwords x) (hmore x)

/-- A loop with something to come ends with a token. -/
theorem tokenizeLoop_ne_nil {fuel : ℕ} {tokens : List BashToken} (hpending : Pending source t)
    (h : tokenizeLoop getVariable fuel source t = some tokens) : tokens ≠ [] := by
  induction fuel generalizing source t with
  | zero => cases h
  | succ fuel ih =>
    cases source with
    | nil =>
      rw [tokenizeLoop] at h
      split_ifs at h
      obtain ⟨ended, hend, rfl⟩ := map_eq_some_iff.mp h
      obtain ⟨-, -, words, htokens, -, hword⟩ := endWord_some hend
      rw [htokens]
      rcases hpending with hsome | hopen | hmore
      · simp [hsome]
      · simp [hword hopen]
      · cases hmore
    | cons character source =>
      rw [tokenizeLoop] at h
      split at h
      · cases h
      · rename_i hround
        exact ih (tokenizeRound_pending hpending hround) h

end Tokens

section Tokenize

variable {getVariable : Text → Text} {c : Text} {tokens : List BashToken}

/-- Blanks in front make no difference. -/
theorem tokenize_dropWhile (getVariable : Text → Text) (c : Text) :
    tokenize getVariable (c.dropWhile isBlank) = tokenize getVariable c := by
  induction c with
  | nil => rfl
  | cons character c ih =>
    rw [dropWhile_cons]
    split
    · rename_i hblank
      have hround : tokenizeRound getVariable character c ⟨0, none, 0, []⟩ = some (c, ⟨0, none, 0, []⟩) := by
        rw [tokenizeRound, if_pos ⟨rfl, hblank⟩]
        rfl
      rw [ih, tokenize, tokenize, length_cons, tokenizeLoop, hround]
    · rfl

/-- What passes over a blank passes over all in front. -/
theorem dropWhile_of_step {P : Text → Prop} (hstep : ∀ {character c}, isBlank character → P (character :: c) → P c)
    (h : P c) : P (c.dropWhile isBlank) := by
  induction c with
  | nil => exact h
  | cons character c ih =>
    rw [dropWhile_cons]
    split_ifs with hblank
    · exact ih (hstep hblank h)
    · exact h

theorem clean_dropWhile (hclean : Clean c 0) : Clean (c.dropWhile isBlank) 0 :=
  dropWhile_of_step (P := (Clean · 0)) (fun hblank => clean_of_neutral (.inl rfl) (neutral_of_isBlank hblank))
    hclean

theorem hasCommand_dropWhile (hcommand : hasCommand c) : hasCommand (c.dropWhile isBlank) :=
  dropWhile_of_step (P := (hasCommand ·)) (fun hblank h => by rwa [hasCommand, any_cons, hblank] at h) hcommand

theorem dropWhile_append_of_hasCommand (hcommand : hasCommand c) (tail : Text) :
    (c ++ tail).dropWhile isBlank = c.dropWhile isBlank ++ tail := by
  induction c with
  | nil => cases hcommand
  | cons character c ih =>
    rw [cons_append, dropWhile_cons, dropWhile_cons]
    split
    · rename_i hblank
      rw [hasCommand, any_cons, hblank] at hcommand
      exact ih hcommand
    · rfl

end Tokenize

end Windoge.Bash
