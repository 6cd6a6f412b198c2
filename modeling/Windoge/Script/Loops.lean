import Windoge.Script.Simulation

/-!
# Loops of a script

A while loop leaves its frame on the stack until its condition fails, and a counted loop
counts its frame down. With them every block is run as it is meant, as long as neither the
number of steps nor the depth of loops reaches its limit.
-/

namespace Windoge.Script

open Control Exec Meets Run Option

variable {W : Type} {ops : ScriptOps W} {file : List UInt8} {steps offset : ℕ} {loops : List LoopFrame}
  {state : Interp W} {commands : List Command} {f : Finished W} {raw last : List UInt8}
  {body rest : Block lineKind}

/-- The frame of a loop that stands at an offset. -/
def loopFrame (kind : LoopKind) (offset : ℕ) (raw : List UInt8) (body : Block lineKind)
    (last : List UInt8) (remaining : ℕ) : LoopFrame :=
  ⟨kind, offset, offset + raw.length, offset + raw.length + body.lines.flatten.length,
    offset + raw.length + body.lines.flatten.length + last.length, remaining⟩

/-- A while loop is entered, or gone on with when its frame is on top. -/
def WhileLoops (offset : ℕ) (raw : List UInt8) (body : Block lineKind) (last : List UInt8)
    (loops stack : List LoopFrame) : Prop :=
  (stack = loops ∧ Below loops offset) ∨ stack = loopFrame .whileLoop offset raw body last 0 :: loops

section Loop

variable (hat : LinesAt file offset (raw :: (body.lines ++ last :: rest.lines)))

include hat

/-- Offsets of a script fit 32 bits. -/
theorem loopFrame_mod (kind : LoopKind) (remaining : ℕ) (hsize : file.length ≤ maxScriptSize) :
    (⟨kind, offset % 2 ^ 32, (offset + raw.length) % 2 ^ 32,
      (offset + raw.length + body.lines.flatten.length) % 2 ^ 32,
      (offset + raw.length + body.lines.flatten.length + last.length) % 2 ^ 32, remaining⟩ : LoopFrame) =
        loopFrame kind offset raw body last remaining := by
  have hend := hat.le_length
  rw [end_bracket] at hend
  have hsmall : file.length < 2 ^ 32 := Nat.lt_of_le_of_lt hsize (by decide)
  rw [loopFrame, Nat.mod_eq_of_lt (by omega), Nat.mod_eq_of_lt (by omega), Nat.mod_eq_of_lt (by omega),
    Nat.mod_eq_of_lt (by omega)]

theorem below_frame {kind : LoopKind} {remaining : ℕ} :
    Below (loopFrame kind offset raw body last remaining :: loops) (offset + raw.length) := by
  intro frame hframe
  cases hframe
  exact Nat.lt_add_of_pos_right hat.length_pos

/-- One round of a counted loop, given those after it. -/
theorem meets_round {n : ℕ} (hbelow : Below loops offset) (ih : ∀ left ≤ steps, Simulates ops file left)
    (again : ∀ left ≤ steps, ∀ state' commands',
      runLoop ops file left ⟨offset + raw.length + body.lines.flatten.length,
        loopFrame .repeatLoop offset raw body last (n + 1) :: loops, state', commands'⟩ = f →
      Meets ops file left (.rounds n body rest) loops state' commands'
        (offset + (raw :: (body.lines ++ last :: rest.lines)).flatten.length) f)
    (hrun : runLoop ops file steps ⟨offset + raw.length,
      loopFrame .repeatLoop offset raw body last (n + 1) :: loops, state, commands⟩ = f)
    (hlimit : ¬ f.Limited) :
    Meets ops file steps (.rounds (n + 1) body rest) loops state commands
      (offset + (raw :: (body.lines ++ last :: rest.lines)).flatten.length) f := by
  refine prepend ?_ (Nat.le_refl steps) fun _ _ _ => rounds
  refine (ih steps (Nat.le_refl _) body hat.tail.left (below_frame hat) hrun hlimit).round again again ?_
  intro left hleft state' commands' hleave
  rw [end_bracket]
  exact ih left hleft rest hat.tail.right.tail (hbelow.mono (by omega)) hleave hlimit

variable (hplain : ∀ raw ∈ cutLines file, PlainLine ops.arguments raw)

include hplain

variable {stack : List LoopFrame}

/-- The end of a while loop is found, whether it is entered or gone on with. -/
theorem WhileLoops.whileEnd (h : WhileLoops offset raw body last loops stack)
    (closes : lineKind last = .endwhileLine) :
    whileEnd ops file ⟨offset, stack, state, commands⟩ = .ok (offset + raw.length + body.lines.flatten.length,
          offset + raw.length + body.lines.flatten.length + last.length) ∧
      (if (⟨offset, stack, state, commands⟩ : Run W).atWhile.isSome then stack.tail else stack) = loops ∧
      (((stack.head?.any fun frame => frame.startOffset = offset) = false ∧ stack = loops) ∨
        ((stack.head?.any fun frame => frame.startOffset = offset) = true ∧
          stack = loopFrame .whileLoop offset raw body last 0 :: loops)) := by
  rcases h with ⟨rfl, hbelow⟩ | rfl
  · have houtside : ∀ frame ∈ stack.head?, frame.startOffset ≠ offset := fun frame hframe =>
      Nat.ne_of_lt (hbelow frame hframe)
    have hnone : (⟨offset, stack, state, commands⟩ : Run W).atWhile = none := by
      rw [atWhile, filter_eq_none_iff]
      intro frame hframe
      simp [houtside frame hframe]
    refine ⟨?_, by rw [hnone]; rfl, ?_⟩
    · rw [Script.whileEnd, hnone]
      exact @findControlEnd_block ops.arguments state.vars file offset raw last rest.lines hplain
        .loop body hat closes
    · refine .inl ⟨?_, rfl⟩
      cases hhead : stack.head? with
      | none => rfl
      | some frame => exact decide_eq_false (houtside frame hhead)
  · have hsome : (⟨offset, loopFrame .whileLoop offset raw body last 0 :: loops, state, commands⟩ :
        Run W).atWhile = some (loopFrame .whileLoop offset raw body last 0) := by
      simp [atWhile, loopFrame]
    refine ⟨?_, by rw [hsome]; rfl, ?_⟩
    · rw [Script.whileEnd, hsome]
      rfl
    · exact .inr ⟨by simp [loopFrame], rfl⟩

/-- What a while line does. -/
theorem stepWhile_cases {condition : Option Bool} {state' : Interp W} (hsize : file.length ≤ maxScriptSize)
    (closes : lineKind last = .endwhileLine) (hloops : WhileLoops offset raw body last loops stack)
    (hcondition : ops.condition (tokensOf ops.arguments state.vars raw) state = (condition, state')) :
    let next := stepWhile ops file (tokensOf ops.arguments state.vars raw) (offset + raw.length)
      ⟨offset, stack, state, commands⟩
    match condition with
    | none => next = .stop ⟨commands, 1, some .invalidCondition, state'⟩
    | some false => next = .go
      ⟨offset + raw.length + body.lines.flatten.length + last.length, loops, state', commands⟩
    | some true => next = .stop ⟨commands, 1, some .loopLimit, state'⟩ ∨ next = .go
      ⟨offset + raw.length, loopFrame .whileLoop offset raw body last 0 :: loops, state', commands⟩ := by
  intro next
  obtain ⟨hend, hpop, hany⟩ := @WhileLoops.whileEnd W ops file offset loops state' commands raw last body
    rest hat hplain stack hloops closes
  have hframe := loopFrame_mod hat .whileLoop 0 hsize
  match condition with
  | none =>
    change stepWhile ops file _ _ _ = _
    rw [stepWhile, hcondition]
    rfl
  | some false =>
    change stepWhile ops file _ _ _ = _
    rw [stepWhile, hcondition]
    dsimp only
    rw [hend]
    dsimp only
    rw [if_pos (by decide)]
    split_ifs at hpop ⊢
    · rw [← hpop]
      rfl
    · rw [← hpop]
      rfl
  | some true =>
    change stepWhile ops file _ _ _ = _ ∨ stepWhile ops file _ _ _ = _
    rw [stepWhile, hcondition]
    dsimp only
    rw [hend]
    dsimp only
    rw [if_neg (by decide)]
    rcases hany with ⟨hany, rfl⟩ | ⟨hany, rfl⟩
    · rw [if_neg (Bool.eq_false_iff.mp hany), hframe]
      split_ifs
      · exact .inl rfl
      · exact .inr rfl
    · rw [if_pos hany]
      exact .inr rfl

/-- The last line of a while loop leads back to its first. -/
theorem runLoop_endwhile (closes : lineKind last = .endwhileLine)
    (hrun : runLoop ops file steps ⟨offset + raw.length + body.lines.flatten.length,
      loopFrame .whileLoop offset raw body last 0 :: loops, state, commands⟩ = f) (hlimit : ¬ f.Limited) :
    ∃ left, steps = left + 1 ∧ runLoop ops file left
      ⟨offset, loopFrame .whileLoop offset raw body last 0 :: loops, state, commands⟩ = f := by
  obtain ⟨left, rfl, hline, hnext⟩ := runLoop_line hplain closes hat.tail.right hrun hlimit
  rw [stepLine, hline] at hnext
  refine ⟨left, rfl, ?_⟩
  rw [← hnext]
  simp [stepEndwhile, loopFrame, goto, Next.run]

/-- A while loop, entered or gone on with. -/
theorem meets_loop (hsize : file.length ≤ maxScriptSize) (is : lineKind raw = .whileLine)
    (closes : lineKind last = .endwhileLine) (hbelow : Below loops offset)
    (ih : ∀ left < steps, Simulates ops file left) (hloops : WhileLoops offset raw body last loops stack)
    (hrun : runLoop ops file steps ⟨offset, stack, state, commands⟩ = f) (hlimit : ¬ f.Limited) :
    Meets ops file steps (.run (.loop raw is body last closes rest)) loops state commands
      (offset + (raw :: (body.lines ++ last :: rest.lines)).flatten.length) f := by
  induction steps using Nat.strongRecOn generalizing stack state commands with
  | ind steps again =>
    have hlast := hat.tail.right
    obtain ⟨left, rfl, hline, hnext⟩ := runLoop_line hplain is hat hrun hlimit
    rw [stepLine, hline] at hnext
    obtain ⟨⟨condition, state'⟩, hcondition⟩ :
      ∃ found, ops.condition (tokensOf ops.arguments state.vars raw) state = found := ⟨_, rfl⟩
    have hcases := @stepWhile_cases W ops file offset loops state commands raw last body rest hat hplain
      stack condition state' hsize closes hloops hcondition
    rcases condition with _ | _ | _
    · rw [hcases] at hnext
      exact stop (.loopStop (scriptOracles_condition hcondition)) hnext
    · rw [hcases] at hnext
      rw [end_bracket]
      exact (ih left (Nat.lt_succ_self _) rest hlast.tail (hbelow.mono (by omega)) hnext hlimit).prepend
        (Nat.le_succ _) fun _ _ _ => loopEnd (scriptOracles_condition hcondition)
    · rcases hcases with hcases | hcases
      · rw [hcases] at hnext
        exact absurd (.inr (by rw [← hnext]; rfl)) hlimit
      rw [hcases] at hnext
      refine prepend ?_ (Nat.le_succ left) fun _ _ _ => loop (scriptOracles_condition hcondition)
      refine (ih left (Nat.lt_succ_self _) body hat.tail.left (below_frame hat) hnext hlimit).round ?_ ?_ ?_
      · intro left' hleft state'' commands' hdone
        obtain ⟨left'', rfl, hback⟩ := runLoop_endwhile hat hplain closes hdone hlimit
        exact (again left'' (by omega) (fun m hm => ih m (by omega)) (.inr rfl) hback).prepend
          (Nat.le_succ _) fun _ _ _ hexec => hexec
      · intro left' hleft state'' commands' hback
        exact again left' (by omega) (fun m hm => ih m (by omega)) (.inr rfl) hback
      · intro left' hleft state'' commands' hleave
        rw [end_bracket]
        exact ih left' (by omega) rest hlast.tail (hbelow.mono (by omega)) hleave hlimit

/-- The last line of a counted loop leads back to its body, or behind it after the last round. -/
theorem runLoop_endrepeat {n : ℕ} (closes : lineKind last = .endrepeatLine)
    (hrun : runLoop ops file steps ⟨offset + raw.length + body.lines.flatten.length,
      loopFrame .repeatLoop offset raw body last (n + 1) :: loops, state, commands⟩ = f)
    (hlimit : ¬ f.Limited) :
    ∃ left, steps = left + 1 ∧ runLoop ops file left (if n = 0 then
        ⟨offset + raw.length + body.lines.flatten.length + last.length, loops, state, commands⟩
      else ⟨offset + raw.length, loopFrame .repeatLoop offset raw body last n :: loops, state, commands⟩) =
        f := by
  obtain ⟨left, rfl, hline, hnext⟩ := runLoop_line hplain closes hat.tail.right hrun hlimit
  rw [stepLine, hline] at hnext
  refine ⟨left, rfl, ?_⟩
  rw [← hnext]
  unfold stepEndrepeat
  dsimp only
  have hmatched : ¬ ((loopFrame .repeatLoop offset raw body last (n + 1)).kind ≠ .repeatLoop ∨
      (loopFrame .repeatLoop offset raw body last (n + 1)).endOffset ≠
        offset + raw.length + body.lines.flatten.length) :=
    fun h => h.elim (fun hne => hne rfl) fun hne => hne rfl
  rw [if_neg hmatched]
  by_cases hn : n = 0
  · subst hn
    rfl
  have hmore : 1 < (loopFrame .repeatLoop offset raw body last (n + 1)).remaining :=
    Nat.succ_lt_succ (Nat.pos_of_ne_zero hn)
  rw [if_neg hn, if_pos hmore]
  rfl

/-- The rounds of a counted loop. -/
theorem meets_rounds {n : ℕ} (closes : lineKind last = .endrepeatLine) (hbelow : Below loops offset)
    (ih : ∀ left ≤ steps, Simulates ops file left)
    (hrun : runLoop ops file steps ⟨offset + raw.length,
      loopFrame .repeatLoop offset raw body last (n + 1) :: loops, state, commands⟩ = f)
    (hlimit : ¬ f.Limited) :
    Meets ops file steps (.rounds (n + 1) body rest) loops state commands
      (offset + (raw :: (body.lines ++ last :: rest.lines)).flatten.length) f := by
  induction n generalizing steps state commands with
  | zero =>
    refine meets_round hat hbelow ih (fun left hleft state' commands' hdone => ?_) hrun hlimit
    obtain ⟨left', rfl, hnext⟩ := runLoop_endrepeat hat hplain closes hdone hlimit
    rw [end_bracket]
    exact (ih left' (by omega) rest hat.tail.right.tail (hbelow.mono (by omega)) hnext hlimit).prepend
      (Nat.le_succ _) fun _ _ _ => roundsNone
  | succ n again =>
    refine meets_round hat hbelow ih (fun left hleft state' commands' hdone => ?_) hrun hlimit
    obtain ⟨left', rfl, hnext⟩ := runLoop_endrepeat hat hplain closes hdone hlimit
    rw [if_neg (Nat.succ_ne_zero n)] at hnext
    exact (again (fun m hm => ih m (by omega)) hnext).prepend (Nat.le_succ _) fun _ _ _ hexec => hexec

/-- A counted loop. -/
theorem meets_count (hsize : file.length ≤ maxScriptSize) (is : lineKind raw = .repeatLine)
    (closes : lineKind last = .endrepeatLine) (hbelow : Below loops offset)
    (ih : ∀ left < steps, Simulates ops file left)
    (hrun : runLoop ops file steps ⟨offset, loops, state, commands⟩ = f) (hlimit : ¬ f.Limited) :
    Meets ops file steps (.run (.count raw is body last closes rest)) loops state commands
      (offset + (raw :: (body.lines ++ last :: rest.lines)).flatten.length) f := by
  obtain ⟨left, rfl, hline, hnext⟩ := runLoop_line hplain is hat hrun hlimit
  rw [stepLine, hline] at hnext
  unfold stepRepeat at hnext
  cases hcount : repeatCount (tokensOf ops.arguments state.vars raw) with
  | none =>
    have horacle : (scriptOracles ops).times raw state = .error 1 := by simp only [scriptOracles, hcount]
    rw [hcount] at hnext
    exact stop (.countStop horacle) hnext
  | some n =>
    have horacle : (scriptOracles ops).times raw state = .ok n := by simp only [scriptOracles, hcount]
    have hfound := @findControlEnd_block ops.arguments state.vars file offset raw last rest.lines
      hplain .count body hat closes
    rw [hcount] at hnext
    rw [Interp.lookup, show Kind.repeatLine = Nest.count.opening from rfl,
      show Kind.endrepeatLine = Nest.count.closing from rfl, hfound] at hnext
    dsimp only at hnext
    refine prepend ?_ (Nat.le_succ left) fun _ _ _ => count horacle
    cases n with
    | zero =>
      rw [if_pos rfl] at hnext
      rw [end_bracket]
      exact (ih left (Nat.lt_succ_self _) rest hat.tail.right.tail (hbelow.mono (by omega)) hnext
        hlimit).prepend (Nat.le_refl _) fun _ _ _ => roundsNone
    | succ n =>
      rw [if_neg (Nat.succ_ne_zero n), loopFrame_mod hat .repeatLoop (n + 1) hsize] at hnext
      split_ifs at hnext
      · exact absurd (.inr (by rw [← hnext]; rfl)) hlimit
      · exact meets_rounds hat hplain closes hbelow (fun m hm => ih m (by omega)) hnext hlimit

end Loop

/-- The interpreter does what blocks do. -/
theorem simulates (hplain : ∀ raw ∈ cutLines file, PlainLine ops.arguments raw)
    (hsize : file.length ≤ maxScriptSize) (steps : ℕ) : Simulates ops file steps := by
  induction steps using Nat.strongRecOn with
  | ind steps ih =>
    intro b offset loops state commands f hat hbelow hrun hlimit
    cases b with
    | nil => exact nil hrun
    | blank raw is rest =>
      rw [Block.lines, end_cons]
      exact (meets_over hplain hrun hlimit ih hbelow is (.inl rfl) hat).prepend (Nat.le_refl _) fun _ _ _ => blank
    | command raw is rest => exact meets_command hplain hrun hlimit ih hbelow is hat
    | leave raw is rest => exact meets_leave hplain hrun hlimit is hat
    | next raw is rest => exact meets_next hplain hrun hlimit is hat
    | branch raw is body last closes rest => exact meets_branch hplain hrun hlimit ih hbelow is closes hat
    | branchElse raw is body middle turns other last closes rest =>
      exact meets_branchElse hplain hrun hlimit ih hbelow is turns closes hat
    | loop raw is body last closes rest =>
      exact meets_loop hat hplain hsize is closes hbelow ih (.inl ⟨rfl, hbelow⟩) hrun hlimit
    | count raw is body last closes rest => exact meets_count hat hplain hsize is closes hbelow ih hrun hlimit

/-!
## Scripts mean what their blocks mean

The interpreter runs the commands of the structured meaning of a script and ends with its
status, as long as neither the number of steps nor the depth of loops reaches its limit.
Scripts of more than a mebibyte are refused.
-/

open List Except

/-- The exit status of a script whose block ends in this way. A break or continue outside a loop is
an error. -/
def exitStatus : Signal → ℤ
  | .done => 0
  | .leave => 1
  | .next => 1
  | .stop status => status

/-- The commands a script runs and its exit status, by the structured meaning of its blocks. -/
def StructuredMeaning (ops : ScriptOps W) (script : Block lineKind) (world : W)
    (commands : List Command) (status : ℤ) : Prop :=
  ∃ signal state, Exec (scriptOracles ops) (.run script) ⟨.empty, world⟩ commands signal state ∧
    exitStatus signal = status

theorem runLoop_end (h : file.length ≤ offset) :
    runLoop ops file steps ⟨offset, loops, state, commands⟩ = ⟨commands, 0, none, state⟩ := by
  cases steps with
  | zero => rw [runLoop, if_pos h]
  | succ steps => rw [runLoop, if_pos h]

/-- For a well-nested script of at most a mebibyte whose lines all tokenize whatever the variables
are, with first tokens that name no variable: if neither the step limit nor the limit on open loops
is reached, the commands that are run and the exit status are those of the structured meaning, and no
others. -/
theorem runScript_structured (ops : ScriptOps W) (file : List UInt8) (script : Block lineKind) (world : W)
    (hnested : script.lines = cutLines file)
    (hplain : ∀ raw ∈ cutLines file, PlainLine ops.arguments raw)
    (hsize : file.length ≤ maxScriptSize) (hlimit : ¬ (runScript ops file world).Limited)
    (commands : List Command) (status : ℤ) :
    StructuredMeaning ops script world commands status ↔
      commands = (runScript ops file world).commands ∧ status = (runScript ops file world).status := by
  have hat : LinesAt file 0 script.lines := ⟨[], [], by rw [hnested]; simp, rfl⟩
  have hend : 0 + script.lines.flatten.length = file.length := by
    rw [hnested, cutLines_flatten, Nat.zero_add]
  rw [runScript, if_neg (Nat.not_lt.mpr hsize)] at hlimit ⊢
  obtain ⟨trace, signal, state, hexec, hresume⟩ := simulates hplain hsize maxSteps script hat
    (fun _ hframe => by cases hframe) rfl hlimit
  rw [hend, nil_append] at hresume
  have hmeaning : trace = (runLoop ops file maxSteps ⟨0, [], ⟨.empty, world⟩, []⟩).commands ∧
      exitStatus signal = (runLoop ops file maxSteps ⟨0, [], ⟨.empty, world⟩, []⟩).status := by
    cases signal with
    | done =>
      obtain ⟨left, -, hrun⟩ := hresume
      rw [runLoop_end (Nat.le_refl _)] at hrun
      rw [← hrun]
      exact ⟨rfl, rfl⟩
    | leave =>
      rw [hresume]
      exact ⟨rfl, rfl⟩
    | next =>
      rw [hresume]
      exact ⟨rfl, rfl⟩
    | stop status => exact ⟨hresume.1.symm, hresume.2.1.symm⟩
  constructor
  · rintro ⟨signal', state', hexec', rfl⟩
    obtain ⟨rfl, rfl, -⟩ := hexec.deterministic hexec'
    exact hmeaning
  · rintro ⟨rfl, rfl⟩
    exact ⟨signal, state, hmeaning.1 ▸ hexec, hmeaning.2⟩

/-- Commands that succeed, conditions that fail. -/
def quietOps : ScriptOps Unit where
  arguments := ⟨text "script", 1, fun _ => none⟩
  condition _ state := (some false, state)
  command _ _ state := (⟨0, none⟩, state)

/-- A loop of two rounds. -/
def repeatScript : List UInt8 := text "repeat 2\nnext $x\nendrepeat\n"

/-- Its block. -/
def repeatBlock : Block lineKind :=
  .count (text "repeat 2\n") (by decide +kernel) (.command (text "next $x\n") (by decide +kernel) .nil)
    (text "endrepeat\n") (by decide +kernel) .nil

theorem lineText_of_toOption {raw line : List UInt8} (h : (lineText raw).toOption = some line) :
    lineText raw = .ok line := by
  cases hline : lineText raw with
  | error e =>
    rw [hline] at h
    cases h
  | ok line' =>
    rw [hline] at h
    rw [some.inj h]

/-- A line of words of which the first names no variable. -/
theorem plainLine_of_words {arguments : Arguments} {raw line word : Text} {words : List Text}
    (hline : (lineText raw).toOption = some line) (hraw : rawLineTokens line = some (word :: words))
    (hliteral : hasVariable word = false)
    (hexpand : ∀ vars, ∃ tokens, (word :: words).mapM (fun token =>
      expandText (getVariable arguments vars) token variableValueSize) = some tokens) :
    PlainLine arguments raw := by
  have htext := lineText_of_toOption hline
  constructor
  · intro vars
    obtain ⟨tokens, htokens⟩ := hexpand vars
    refine ⟨line, tokens, htext, ?_⟩
    unfold rawLineTokens at hraw
    unfold lineTokens
    dsimp only at hraw ⊢
    split_ifs at hraw ⊢
    · cases hraw
    · rw [tokenizeLine, hraw, bind_some, htokens]
  · intro line' tokens hline' htokens token htoken
    cases htext.symm.trans hline'
    cases hraw.symm.trans htokens
    rwa [← some.inj htoken]

/-- The value of a variable fits a token. -/
theorem expandText_x (vars : Variables) :
    ∃ value, expandText (getVariable quietOps.arguments vars) (text "$x") variableValueSize = some value := by
  have hvalue : (getVariable quietOps.arguments vars [120]).length < variableValueSize := by
    have hplace : getVariable quietOps.arguments vars [120] =
        ((vars.list.find? fun v => v.name = [120]).map Variable.value).getD [] := rfl
    rw [hplace]
    cases hfind : vars.list.find? fun v => v.name = [120] with
    | none => exact (by decide : ([] : Text).length < variableValueSize)
    | some v => exact (vars.fits v (mem_of_find?_eq_some hfind)).2.2
  have htext : text "$x" = [dollar, 120] := by decide +kernel
  refine ⟨getVariable quietOps.arguments vars [120], ?_⟩
  rw [htext, expandText]
  simp [expandLoop, isNameCharacter, isDigit, isNameStart, variableNameSize, Nat.not_le.mpr hvalue]

/-- Its lines are plain. -/
theorem repeatScript_plain : ∀ raw ∈ cutLines repeatScript, PlainLine quietOps.arguments raw := by
  have hlines : cutLines repeatScript =
      [text "repeat 2\n", text "next $x\n", text "endrepeat\n"] := by decide +kernel
  have hliteral {word : Text} {vars : Variables} (hword : hasVariable word = false)
      (hlength : word.length < variableValueSize) :
      expandText (getVariable quietOps.arguments vars) word variableValueSize = some word := by
    rw [expandText_literal hword, if_pos hlength]
  intro raw hraw
  rw [hlines, mem_cons, mem_cons, mem_singleton] at hraw
  rcases hraw with rfl | rfl | rfl
  · refine @plainLine_of_words _ _ (text "repeat 2") (text "repeat") [text "2"] (by decide +kernel)
      (by decide +kernel) (by decide +kernel) fun vars => ⟨[text "repeat", text "2"], ?_⟩
    rw [mapM_cons, mapM_cons, hliteral (by decide +kernel) (by decide +kernel),
      hliteral (by decide +kernel) (by decide +kernel)]
    rfl
  · refine @plainLine_of_words _ _ (text "next $x") (text "next") [text "$x"] (by decide +kernel)
      (by decide +kernel) (by decide +kernel) fun vars => ?_
    obtain ⟨value, hvalue⟩ := expandText_x vars
    refine ⟨[text "next", value], ?_⟩
    rw [mapM_cons, mapM_cons, hliteral (by decide +kernel) (by decide +kernel), hvalue]
    rfl
  · refine @plainLine_of_words _ _ (text "endrepeat") (text "endrepeat") [] (by decide +kernel)
      (by decide +kernel) (by decide +kernel) fun vars => ⟨[text "endrepeat"], ?_⟩
    rw [mapM_cons, hliteral (by decide +kernel) (by decide +kernel)]
    rfl

/-- The command is run twice. -/
theorem runScript_structured_repeat :
    ¬ (runScript quietOps repeatScript ()).Limited ∧
      StructuredMeaning quietOps repeatBlock () (runScript quietOps repeatScript ()).commands 0 := by
  have hdone : (runScript quietOps repeatScript ()).diagnostic = none := by decide +kernel
  have hstatus : (0 : ℤ) = (runScript quietOps repeatScript ()).status := by decide +kernel
  have hlimit : ¬ (runScript quietOps repeatScript ()).Limited := by
    rw [Finished.Limited, hdone]
    exact fun h => h.elim nofun fun heq => by cases heq
  exact ⟨hlimit, (runScript_structured quietOps repeatScript repeatBlock () (by decide +kernel)
    repeatScript_plain (by decide +kernel) hlimit _ _).mpr ⟨rfl, hstatus⟩⟩

/-- A comment of 128 bytes. -/
def commentLine : List UInt8 := List.replicate 127 35 ++ [10]

/-- A script of comments. -/
def commentScript (n : ℕ) : List UInt8 := (List.replicate n commentLine).flatten

theorem lineKind_commentLine : lineKind commentLine = .blank := by decide +kernel

/-- A block of comments. -/
def commentBlock : ℕ → Block lineKind
  | 0 => .nil
  | n + 1 => .blank commentLine lineKind_commentLine (commentBlock n)

theorem cutLines_line {front : List UInt8} (rest : List UInt8) (hfront : 10 ∉ front) :
    cutLines (front ++ 10 :: rest) = (front ++ [10]) :: cutLines rest := by
  induction front with
  | nil => rfl
  | cons character front ih =>
    obtain ⟨hcharacter, hfront⟩ := not_or.mp (mt mem_cons.mpr hfront)
    rw [cons_append, cutLines, if_neg fun heq => hcharacter heq.symm, ih hfront]
    rfl

theorem cutLines_commentScript (n : ℕ) : cutLines (commentScript n) = List.replicate n commentLine := by
  induction n with
  | zero => rfl
  | succ n ih =>
    have hfront : (10 : UInt8) ∉ replicate 127 35 := by decide +kernel
    rw [commentScript, replicate_succ, flatten_cons, commentLine, append_assoc,
      singleton_append, cutLines_line _ hfront, ← commentLine, ← commentScript, ih]

theorem commentBlock_lines (n : ℕ) : (commentBlock n).lines = cutLines (commentScript n) := by
  rw [cutLines_commentScript]
  induction n with
  | zero => rfl
  | succ n ih => rw [commentBlock, Block.lines, ih, replicate_succ]

/-- Its lines are plain. -/
theorem commentScript_plain (n : ℕ) : ∀ raw ∈ cutLines (commentScript n), PlainLine quietOps.arguments raw := by
  intro raw hraw
  rw [cutLines_commentScript] at hraw
  obtain rfl := eq_of_mem_replicate hraw
  have htext : lineText commentLine = .ok (replicate 127 35) := lineText_of_toOption (by decide +kernel)
  have hcomment : (replicate 127 (35 : UInt8)).dropWhile isSpace = replicate 127 35 := by decide +kernel
  constructor
  · intro vars
    refine ⟨_, [], htext, ?_⟩
    rw [lineTokens, hcomment]
    rfl
  · intro line tokens hline htokens token htoken
    cases htext.symm.trans hline
    rw [rawLineTokens, hcomment] at htokens
    obtain rfl : [] = tokens := some.inj htokens
    cases htoken

theorem commentScript_length (n : ℕ) : (commentScript n).length = n * 128 := by
  induction n with
  | zero => rfl
  | succ n ih =>
    have hline : commentLine.length = 128 := rfl
    rw [commentScript, replicate_succ, flatten_cons, length_append, ← commentScript, ih, hline]
    omega

theorem commentBlock_meaning (n : ℕ) : StructuredMeaning quietOps (commentBlock n) () [] 0 := by
  refine ⟨.done, ⟨.empty, ()⟩, ?_, rfl⟩
  induction n with
  | zero => exact .nil
  | succ n ih => exact .blank ih

/-- A script of more than a mebibyte is refused, although it is a well-nested script of plain lines
that means nothing. -/
theorem large_script_refused :
    (commentBlock 8193).lines = cutLines (commentScript 8193) ∧
      (∀ raw ∈ cutLines (commentScript 8193), PlainLine quietOps.arguments raw) ∧
      ¬ (runScript quietOps (commentScript 8193) ()).Limited ∧
      StructuredMeaning quietOps (commentBlock 8193) () [] 0 ∧
      (runScript quietOps (commentScript 8193) ()).status = 1 := by
  have hrefused : runScript quietOps (commentScript 8193) () = ⟨[], 1, some .tooLarge, ⟨.empty, ()⟩⟩ := by
    rw [runScript, if_pos (by rw [commentScript_length]; decide)]
  refine ⟨commentBlock_lines _, commentScript_plain _, ?_, commentBlock_meaning _, by rw [hrefused]⟩
  rw [hrefused]
  exact fun h => h.elim nofun fun heq => by cases heq

end Windoge.Script
