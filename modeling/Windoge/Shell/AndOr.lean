import Windoge.Shell.Bash

/-!
# Command lists

A line of commands joined by `;`, `&&` and `||` is run as a list of left-associative and-or
lists. A command is a text whose quotes and escapes are complete and that has no operator outside
them: both scanners pass over it, so the segments are the commands and give words only.
-/

namespace Windoge.Bash

open Shell List Option Prod
open Script (Text text)

/-- A left-associative and-or list of commands. -/
inductive AndOr
  | command (c : Text)
  | and (left : AndOr) (right : Text)
  | or (left : AndOr) (right : Text)

/-- The text of an operator. -/
def operatorText : TokenType → Text
  | .semicolon => [semicolon]
  | .and => [ampersand, ampersand]
  | .or => [pipe, pipe]
  | _ => []

namespace AndOr

/-- The text of an and-or list. -/
def text : AndOr → Text
  | command c => c
  | and left right => left.text ++ operatorText .and ++ right
  | or left right => left.text ++ operatorText .or ++ right

/-- The commands of an and-or list. -/
def commands : AndOr → List Text
  | command c => [c]
  | and left right => left.commands ++ [right]
  | or left right => left.commands ++ [right]

end AndOr

/-- One or more and-or lists, to be run one after the other. -/
structure CommandList where
  first : AndOr
  others : List AndOr

namespace CommandList

/-- The line of a command list. -/
def line (l : CommandList) : Text :=
  l.first.text ++ l.others.flatMap fun a => operatorText .semicolon ++ a.text

/-- The commands of a command list. -/
def commands (l : CommandList) : List Text :=
  l.first.commands ++ l.others.flatMap AndOr.commands

end CommandList

section Semantics

variable {World : Type} (ops : BashOps World)

/-- Run a command: cut it into words and execute them. There is no result if it cannot be cut into
words or asks for the end of the shell. -/
def runCommand (c : Text) (s : Session World) : Option (ℤ × Session World) :=
  match tokenize (ops.getVariable s) c with
  | none => none
  | some tokens =>
    let (status, s) := ops.executeCommand (tokens.map BashToken.value) s
    if s.shellExitRequested then none else some (status, { s with shellStatus := status })

/-- The right side of `&&` runs after a success, that of `||` after a failure; the status is that of
the last command that ran. -/
def AndOr.run : AndOr → Session World → Option (ℤ × Session World)
  | .command c, s => runCommand ops c s
  | .and left right, s =>
    match left.run s with
    | none => none
    | some (status, s) => if status = 0 then runCommand ops right s else some (status, s)
  | .or left right, s =>
    match left.run s with
    | none => none
    | some (status, s) => if status ≠ 0 then runCommand ops right s else some (status, s)

/-- Run and-or lists one after the other, from a status and a session. -/
def runOthers : List AndOr → ℤ × Session World → Option (ℤ × Session World)
  | [], result => some result
  | a :: others, (_, s) =>
    match a.run ops s with
    | none => none
    | some result => runOthers others result

/-- Run a command list. -/
def CommandList.run (l : CommandList) (s : Session World) : Option (ℤ × Session World) :=
  match l.first.run ops s with
  | none => none
  | some result => runOthers ops l.others result

end Semantics

/-- A text that can stand between operators. -/
def IsCommand (c : Text) : Prop := Clean c 0 ∧ hasCommand c

instance : DecidablePred IsCommand := fun c => inferInstanceAs (Decidable (Clean c 0 ∧ hasCommand c))

/-- What follows a command on its line: nothing, or an operator and more. -/
abbrev Tail := Option (TokenType × Text)

/-- The text of what follows. -/
def Tail.text : Tail → Text
  | none => []
  | some (type, rest) => operatorText type ++ rest

/-- The operator is one of the three, and more follows it. -/
def Tail.Valid : Tail → Prop
  | none => True
  | some (type, rest) => (type = .semicolon ∨ type = .and ∨ type = .or) ∧ hasCommand rest

variable {World : Type} {ops : BashOps World} {c : Text} {a : AndOr} {others : List AndOr} {tail : Tail}
  {status status' : ℤ} {s s' : Session World} {requires : Bool}

/-- How the loop goes on behind a command. -/
def goOn (ops : BashOps World) (fuel : ℕ) (status : ℤ) (s : Session World) : Tail → ℤ × Session World
  | none => (status, s)
  | some (.semicolon, rest) => bashLoop ops fuel (rest.dropWhile isBlank) status true false s
  | some (.and, rest) => bashLoop ops fuel (rest.dropWhile isBlank) status (status = 0) true s
  | some (.or, rest) => bashLoop ops fuel (rest.dropWhile isBlank) status (status ≠ 0) true s
  | some _ => (2, s)

/-- The operator in front of a text is the one that was written there. -/
theorem findNextOperator_operatorText {type : TokenType} (rest : Text) (length : ℕ)
    (htype : type = .semicolon ∨ type = .and ∨ type = .or) :
    findNextOperator (operatorText type ++ rest) 0 length = some (length, (operatorText type).length, type) := by
  rcases htype with rfl | rfl | rfl <;>
    simp [operatorText, findNextOperator_cons, operatorAt, isOperator, semicolon, ampersand, pipe, backslash,
      singleQuote, doubleQuote]

theorem findNextOperator_command (hc : IsCommand c) (htail : tail.Valid) :
    findNextOperator (c ++ tail.text) 0 0 = some (c.length, match tail with
        | none => (0, .word)
        | some (type, _) => ((operatorText type).length, type)) := by
  rw [findNextOperator_clean 0 hc.1, zero_add]
  match tail, htail with
  | none, _ => rfl
  | some (type, rest), htail => exact findNextOperator_operatorText rest c.length htail.1

/-- Behind an operator the loop skips blanks and goes on with the next command. -/
theorem followOperator_next {type : TokenType} {rest : Text} (fuel : ℕ)
    (htype : type = .semicolon ∨ type = .and ∨ type = .or) (hrest : hasCommand rest) :
    (match followOperator ops rest type status false s with
      | .stop status s => (status, s)
      | .next source status shouldExecute requiresCommand s =>
        bashLoop ops fuel source status shouldExecute requiresCommand s) =
      goOn ops fuel status s (some (type, rest)) := by
  obtain ⟨first, more, hmore⟩ : ∃ first more, rest.dropWhile isBlank = first :: more := by
    cases hdrop : rest.dropWhile isBlank with
    | nil =>
      have hcommand := hasCommand_dropWhile hrest
      rw [hdrop] at hcommand
      cases hcommand
    | cons first more => exact ⟨first, more, rfl⟩
  rcases htype with rfl | rfl | rfl <;> simp only [followOperator, goOn, hmore]

section

variable (fuel : ℕ) (hc : IsCommand c) (htail : tail.Valid) (hexit : s.shellExitRequested = false)
include hc htail hexit

/-- A round over a command: once its segment has run or been passed over, the loop goes on behind
it. -/
theorem bashLoop_round (shouldExecute : Bool)
    (hrun : ∀ type, runSegment ops c type status shouldExecute s = .ok (status', s')) :
    bashLoop ops (fuel + 1) (c ++ tail.text) status shouldExecute requires s = goOn ops fuel status' s' tail := by
  have hsome : c ++ tail.text ≠ [] := by
    intro h
    obtain ⟨rfl, -⟩ := append_eq_nil_iff.mp h
    cases hc.2
  have htake : (c ++ tail.text).take c.length = c := take_left
  rw [bashLoop, if_neg (by simp [hsome, hexit]), bashRound, findNextOperator_command hc htail]
  match tail, htail with
  | none, _ =>
    simp only [htake, hrun]
    have hcommand : (c.any fun c => !isBlank c) = true := hc.2
    simp [hcommand, goOn]
  | some (type, rest), htail =>
    have hcommand : (c.any fun c => !isBlank c) = true := hc.2
    have hlength : (operatorText type).length ≠ 0 := by
      rcases htail.1 with rfl | rfl | rfl <;> decide
    have hdrop : (c ++ Tail.text (some (type, rest))).drop (c.length + (operatorText type).length) = rest := by
      rw [Tail.text, ← append_assoc, ← length_append, drop_left]
    simp only [htake, hrun, hcommand, hlength, hdrop, not_true_eq_false, and_false, if_false, if_true]
    exact followOperator_next fuel htail.1 htail.2

/-- A command that is to run runs. -/
theorem bashLoop_run (hrun : runCommand ops c s = some (status', s')) :
    bashLoop ops (fuel + 1) (c ++ tail.text) status true requires s = goOn ops fuel status' s' tail := by
  refine bashLoop_round fuel hc htail hexit true fun type => ?_
  have hcommand := hc.2
  unfold runCommand at hrun
  rw [runSegment, if_pos ⟨rfl, hcommand⟩]
  split at hrun
  · cases hrun
  rename_i tokens htokens
  have hsome := tokenizeLoop_ne_nil (.inr (.inr hc.2)) htokens
  rw [htokens]
  dsimp only at hrun
  split_ifs at hrun
  cases tokens with
  | nil => exact absurd rfl hsome
  | cons token tokens =>
    cases hrun
    rfl

theorem bashLoop_skip :
    bashLoop ops (fuel + 1) (c ++ tail.text) status false requires s = goOn ops fuel status s tail :=
  bashLoop_round fuel hc htail hexit false fun type => by simp [runSegment]

end

theorem runCommand_continues (hrun : runCommand ops c s = some (status', s')) :
    s'.shellExitRequested = false := by
  unfold runCommand at hrun
  split at hrun
  · cases hrun
  dsimp only at hrun
  split_ifs at hrun with hexit
  cases hrun
  simpa using hexit

theorem runCommand_dropWhile (ops : BashOps World) (c : Text) (s : Session World) :
    runCommand ops (c.dropWhile isBlank) s = runCommand ops c s := by
  rw [runCommand, runCommand, tokenize_dropWhile]

theorem IsCommand.dropWhile (hc : IsCommand c) : IsCommand (c.dropWhile isBlank) :=
  ⟨clean_dropWhile hc.1, hasCommand_dropWhile hc.2⟩

/-- The right side of an operator runs if `condition` holds, and is passed over otherwise. -/
theorem bashLoop_right (fuel : ℕ) (condition : Prop) [Decidable condition] (hc : IsCommand c)
    (htail : tail.Valid) (hexit : s.shellExitRequested = false)
    (hrun : (if condition then runCommand ops c s else some (status, s)) = some (status', s')) :
    bashLoop ops (fuel + 1) ((c ++ tail.text).dropWhile isBlank) status condition true s =
        goOn ops fuel status' s' tail ∧
      s'.shellExitRequested = false := by
  rw [dropWhile_append_of_hasCommand hc.2]
  split_ifs at hrun with h
  · rw [decide_eq_true h]
    exact ⟨bashLoop_run fuel hc.dropWhile htail hexit (by rw [runCommand_dropWhile, hrun]),
      runCommand_continues hrun⟩
  · cases hrun
    rw [decide_eq_false h]
    exact ⟨bashLoop_skip fuel hc.dropWhile htail hexit, hexit⟩

namespace AndOr

/-- The and-or list without the blanks in front of its first command. -/
def trim : AndOr → AndOr
  | command c => command (c.dropWhile isBlank)
  | and left right => and left.trim right
  | or left right => or left.trim right

theorem hasCommand_text (hcommands : ∀ c ∈ a.commands, IsCommand c) : hasCommand a.text := by
  induction a with
  | command c => exact (hcommands c (mem_singleton_self c)).2
  | and left right ih | or left right ih =>
    have hleft := ih (forall_mem_append.mp hcommands).1
    rw [text, append_assoc, hasCommand, any_append]
    exact Bool.or_eq_true_iff.mpr (.inl hleft)

theorem text_trim (hcommands : ∀ c ∈ a.commands, IsCommand c) : a.trim.text = a.text.dropWhile isBlank := by
  induction a with
  | command c => rfl
  | and left right ih | or left right ih =>
    have hleft := (forall_mem_append.mp hcommands).1
    rw [trim, text, text, ih hleft, append_assoc, append_assoc,
      dropWhile_append_of_hasCommand (hasCommand_text hleft)]

theorem run_trim (ops : BashOps World) (a : AndOr) (s : Session World) : a.trim.run ops s = a.run ops s := by
  induction a with
  | command c => exact runCommand_dropWhile ops c s
  | and left right ih | or left right ih => rw [trim, run, run, ih]

theorem isCommand_trim (hcommands : ∀ c ∈ a.commands, IsCommand c) : ∀ c ∈ a.trim.commands, IsCommand c := by
  induction a with
  | command c =>
    intro x hx
    rw [mem_singleton.mp hx]
    exact (hcommands c (mem_singleton_self c)).dropWhile
  | and left right ih | or left right ih =>
    intro x hx
    rcases mem_append.mp hx with hx | hx
    · exact ih (forall_mem_append.mp hcommands).1 x hx
    · exact hcommands x (mem_append_right _ hx)

theorem length_commands_trim (a : AndOr) : a.trim.commands.length = a.commands.length := by
  induction a with
  | command c => rfl
  | and left right ih | or left right ih => rw [trim, commands, commands, length_append, length_append, ih]

/-- Every command takes at least one character. -/
theorem length_commands_le (hcommands : ∀ c ∈ a.commands, IsCommand c) : a.commands.length ≤ a.text.length := by
  have hpos : ∀ c, IsCommand c → 1 ≤ c.length := by
    intro c hc
    cases c with
    | nil => cases hc.2
    | cons _ _ => exact Nat.succ_le_succ zero_le
  induction a with
  | command c => exact hpos c (hcommands c (mem_singleton_self c))
  | and left right ih | or left right ih =>
    have hleft := ih (forall_mem_append.mp hcommands).1
    have hright := hpos right (hcommands right (mem_append_right _ (mem_singleton_self right)))
    rw [commands, text, length_append, length_append, length_append, length_singleton]
    omega

/-- An operator with its right side, behind a left side that the loop runs as it is meant. -/
theorem bashLoop_operator {left : AndOr} {right : Text} {type : TokenType} {middle : ℤ}
    {between : Session World} (fuel : ℕ) (condition : Prop) [Decidable condition]
    (htype : type = .semicolon ∨ type = .and ∨ type = .or)
    (hgoOn : ∀ fuel rest, goOn ops fuel middle between (some (type, rest)) =
      bashLoop ops fuel (rest.dropWhile isBlank) middle condition true between)
    (hleft : ∀ (fuel : ℕ) (tail : Tail), tail.Valid →
      bashLoop ops (fuel + left.commands.length) (left.text ++ tail.text) status true requires s =
        goOn ops fuel middle between tail)
    (hright : IsCommand right) (htail : tail.Valid) (hbetween : between.shellExitRequested = false)
    (hrun : (if condition then runCommand ops right between else some (middle, between)) = some (status', s')) :
    bashLoop ops (fuel + (left.commands ++ [right]).length)
        (left.text ++ operatorText type ++ right ++ tail.text) status true requires s =
        goOn ops fuel status' s' tail ∧
      s'.shellExitRequested = false := by
  have hmore : hasCommand (right ++ tail.text) := by
    rw [hasCommand, any_append]
    exact Bool.or_eq_true_iff.mpr (.inl hright.2)
  obtain ⟨hlast, hend⟩ := bashLoop_right fuel condition hright htail hbetween hrun
  refine ⟨?_, hend⟩
  have hloop := hleft (fuel + 1) (some (type, right ++ tail.text)) ⟨htype, hmore⟩
  rw [hgoOn, hlast] at hloop
  rwa [length_append, length_singleton, ← add_assoc, add_right_comm, append_assoc, append_assoc]

/-- The loop runs an and-or list as it is meant and goes on behind it. -/
theorem bashLoop_run (fuel : ℕ) (hcommands : ∀ c ∈ a.commands, IsCommand c) (htail : tail.Valid)
    (hexit : s.shellExitRequested = false) (hrun : a.run ops s = some (status', s')) :
    bashLoop ops (fuel + a.commands.length) (a.text ++ tail.text) status true requires s =
        goOn ops fuel status' s' tail ∧
      s'.shellExitRequested = false := by
  induction a generalizing fuel tail status' s' with
  | command c =>
    exact ⟨Bash.bashLoop_run fuel (hcommands c (mem_singleton_self c)) htail hexit hrun,
      runCommand_continues hrun⟩
  | and left right ih =>
    rw [run] at hrun
    split at hrun
    · cases hrun
    rename_i middle between hleft
    have hcommands' := (forall_mem_append.mp hcommands).1
    exact bashLoop_operator fuel (middle = 0) (.inr (.inl rfl)) (fun _ _ => rfl)
      (fun n rest hrest => (ih n hcommands' hrest hleft).1)
      (hcommands right (mem_append_right _ (mem_singleton_self right))) htail
      (ih 0 hcommands' (show Tail.Valid none from trivial) hleft).2 hrun
  | or left right ih =>
    rw [run] at hrun
    split at hrun
    · cases hrun
    rename_i middle between hleft
    have hcommands' := (forall_mem_append.mp hcommands).1
    exact bashLoop_operator fuel (middle ≠ 0) (.inr (.inr rfl)) (fun _ _ => rfl)
      (fun n rest hrest => (ih n hcommands' hrest hleft).1)
      (hcommands right (mem_append_right _ (mem_singleton_self right))) htail
      (ih 0 hcommands' (show Tail.Valid none from trivial) hleft).2 hrun

end AndOr

/-- What follows the first and-or list of a command list. -/
def othersTail : List AndOr → Tail
  | [] => none
  | a :: others => some (.semicolon, a.text ++ (othersTail others).text)

theorem othersTail_text (others : List AndOr) :
    (othersTail others).text = others.flatMap fun a => operatorText .semicolon ++ a.text := by
  induction others with
  | nil => rfl
  | cons a others ih => rw [othersTail, Tail.text, ih, flatMap_cons, append_assoc]

theorem othersTail_valid (hcommands : ∀ a ∈ others, ∀ c ∈ a.commands, IsCommand c) :
    (othersTail others).Valid := by
  cases others with
  | nil => trivial
  | cons a others =>
    refine ⟨.inl rfl, ?_⟩
    rw [hasCommand, any_append]
    exact Bool.or_eq_true_iff.mpr (.inl (AndOr.hasCommand_text (hcommands a mem_cons_self)))

/-- The and-or lists behind the first run one after the other. -/
theorem goOn_others (fuel : ℕ) (hcommands : ∀ a ∈ others, ∀ c ∈ a.commands, IsCommand c)
    (hexit : s.shellExitRequested = false) (hrun : runOthers ops others (status, s) = some (status', s')) :
    goOn ops (fuel + (others.flatMap AndOr.commands).length) status s (othersTail others) = (status', s') := by
  induction others generalizing status s with
  | nil =>
    cases hrun
    rfl
  | cons a others ih =>
    have ha := hcommands a mem_cons_self
    have hothers := (forall_mem_cons.mp hcommands).2
    rw [runOthers] at hrun
    split at hrun
    · cases hrun
    rename_i result hfirst
    obtain ⟨middle, between⟩ := result
    rw [← AndOr.run_trim] at hfirst
    obtain ⟨hloop, hbetween⟩ := AndOr.bashLoop_run (fuel + (others.flatMap AndOr.commands).length)
      (AndOr.isCommand_trim ha) (othersTail_valid hothers) hexit hfirst
    rw [ih hothers hbetween hrun, AndOr.text_trim ha, AndOr.length_commands_trim] at hloop
    rw [othersTail, goOn, dropWhile_append_of_hasCommand (AndOr.hasCommand_text ha), flatMap_cons,
      length_append, add_comm a.commands.length, ← add_assoc]
    exact hloop

/-- The segments a line is cut into. -/
def cutSegments : ℕ → Text → List Text
  | 0, _ => []
  | fuel + 1, source =>
    match findNextOperator source 0 0 with
    | none => []
    | some (segmentLength, operatorLength, _) =>
      source.take segmentLength ::
        if operatorLength = 0 then []
        else cutSegments fuel ((source.drop (segmentLength + operatorLength)).dropWhile isBlank)

/-- Segments are clean, whatever the line. -/
theorem clean_of_mem_cutSegments {fuel : ℕ} {source segment : Text} (h : segment ∈ cutSegments fuel source) :
    Clean segment 0 := by
  induction fuel generalizing source with
  | zero => cases h
  | succ fuel ih =>
    rw [cutSegments] at h
    split at h
    · cases h
    rename_i segmentLength operatorLength type hfind
    rcases mem_cons.mp h with rfl | h
    · obtain ⟨n, rfl, hclean⟩ := clean_of_findNextOperator hfind
      rwa [zero_add]
    · split_ifs at h
      · cases h
      exact ih h

/-- A line of fewer than 256 bytes made of commands joined by `;`, `&&` and `||` does to the shell
what the left-associative and-or lists of these commands do and returns their status, where every
command that runs can be cut into words and none asks for the end of the shell. The segments the
line is cut into give words only. -/
theorem bash_runs_command_list {World : Type} (ops : BashOps World) (l : CommandList) (s : Session World)
    (hcommands : ∀ c ∈ l.commands, IsCommand c) (hlength : l.line.length < 256) {status : ℤ}
    {s' : Session World}
    (hrun : l.run ops (saveLine ops l.line { s with shellExitRequested := false }) = some (status, s')) :
    systemBashEx ops l.line s = (status, { s' with shellStatus := status }) ∧
      ∀ segment ∈ cutSegments (l.line.length + 1) l.line, ∀ getVariable tokens,
        tokenize getVariable segment = some tokens → ∀ t ∈ tokens, t.type = .word := by
  refine ⟨?_, fun segment hsegment getVariable tokens htokens =>
    tokenizeLoop_words (.inl rfl) (clean_of_mem_cutSegments hsegment) (by simp) htokens⟩
  have hfirst := (forall_mem_append.mp hcommands).1
  have hothers : ∀ a ∈ l.others, ∀ c ∈ a.commands, IsCommand c :=
    fun a ha c hc => hcommands c (mem_append_right _ (mem_flatMap.mpr ⟨a, ha, hc⟩))
  have hcount : l.commands.length ≤ l.line.length := by
    rw [CommandList.commands, CommandList.line, length_append, length_append]
    refine add_le_add (AndOr.length_commands_le hfirst) ?_
    rw [length_flatMap, length_flatMap]
    refine sum_le_sum fun a ha => ?_
    rw [length_append]
    exact (AndOr.length_commands_le (hothers a ha)).trans (Nat.le_add_left _ _)
  have hsome : l.line ≠ [] := by
    intro hnil
    have htext := AndOr.hasCommand_text hfirst
    rw [(append_eq_nil_iff.mp hnil).1] at htext
    cases htext
  set saved := saveLine ops l.line { s with shellExitRequested := false } with hsaved
  have hexit : saved.shellExitRequested = false := by
    rw [hsaved, saveLine]
    dsimp only
    split <;> rfl
  rw [CommandList.run] at hrun
  split at hrun
  · cases hrun
  rename_i result hleft
  obtain ⟨middle, between⟩ := result
  obtain ⟨hloop, hbetween⟩ := AndOr.bashLoop_run
    (l.line.length + 1 - l.commands.length + (l.others.flatMap AndOr.commands).length) hfirst
    (othersTail_valid hothers) hexit hleft
  rw [goOn_others _ hothers hbetween hrun, othersTail_text] at hloop
  have hfuel : l.line.length + 1 - l.commands.length + (l.others.flatMap AndOr.commands).length +
      l.first.commands.length = l.line.length + 1 := by
    rw [CommandList.commands, length_append] at hcount ⊢
    omega
  rw [hfuel] at hloop
  change bashLoop ops (l.line.length + 1) l.line 0 true false saved = (status, s') at hloop
  rw [systemBashEx]
  simp only [if_neg hsome, if_neg (show ¬ bashLineSize ≤ l.line.length from Nat.not_le.mpr hlength)]
  rw [hloop]

/-- A shell whose commands return their number of arguments and are kept on a list. -/
def countingOps : BashOps (List (List (Option Text))) where
  executeCommand arguments s := (arguments.length - 1, { s with world := s.world ++ [arguments] })
  getVariable _ _ := []
  appendHistory _ world := (0, world)
  dogeioPrintln _ world := world

/-- The line `a && b x || c ; d`. -/
def sampleList : CommandList :=
  ⟨.or (.and (.command (text "a ")) (text " b x ")) (text " c "), [.command (text " d")]⟩

/-- The command `a` succeeds and `b` fails, so `c` and `d` run. -/
theorem bash_runs_command_list_sample :
    systemBashEx countingOps sampleList.line ⟨[], 0, false⟩ =
        (0, ⟨[[some (text "a")], [some (text "b"), some (text "x")], [some (text "c")], [some (text "d")]],
          0, false⟩) ∧
      ∀ segment ∈ cutSegments (sampleList.line.length + 1) sampleList.line, ∀ getVariable tokens,
        tokenize getVariable segment = some tokens → ∀ t ∈ tokens, t.type = .word :=
  bash_runs_command_list countingOps sampleList ⟨[], 0, false⟩ (by decide) (by decide) rfl

end Windoge.Bash
