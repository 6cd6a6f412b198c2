import Windoge.Script.Layout

/-!
# Jumps and nested blocks

The interpreter goes from offset to offset with a stack of open loops. Started at a block it
runs the commands the block runs, and comes out where the way the block ends says: behind the
block, behind or at the innermost loop, or at the end of the script. The induction is on the
steps that are left, so a loop can go round as often as there are steps for it.
-/

namespace Windoge.Script

open Control List

variable {W : Type} {ops : ScriptOps W} {file : List UInt8}

/-- What the lines of a script do. -/
def scriptOracles (ops : ScriptOps W) : Oracles (List UInt8) (Interp W) Command where
  describe raw state := ⟨tokensOf ops.arguments state.vars raw, textOf raw⟩
  command raw state :=
    let (result, state) := ops.command (tokensOf ops.arguments state.vars raw) (textOf raw) state
    (if result.status ≠ 0 then .error 1
      else match result.exit with
        | some status => .error status
        | none => .ok (), state)
  condition raw state :=
    let (condition, state) := ops.condition (tokensOf ops.arguments state.vars raw) state
    (match condition with
      | none => .error 1
      | some condition => .ok condition, state)
  times raw state :=
    match repeatCount (tokensOf ops.arguments state.vars raw) with
    | none => .error 1
    | some number => .ok number
  jump raw state := if (tokensOf ops.arguments state.vars raw).length ≠ 1 then .error 1 else .ok ()

variable {f : Finished W} {state state' state₀ : Interp W} {raw last : List UInt8} {steps steps' offset middle : ℕ}
  {commands : List Command} {loops : List LoopFrame} {body rest : Block lineKind}

theorem scriptOracles_condition {condition : Option Bool}
    (h : ops.condition (tokensOf ops.arguments state.vars raw) state = (condition, state')) :
    (scriptOracles ops).condition raw state =
      (match condition with | none => .error 1 | some condition => .ok condition, state') := by
  cases condition <;> simp only [scriptOracles, h]

/-- A run ended because a limit of the interpreter was reached. -/
def Finished.Limited (f : Finished W) : Prop :=
  f.diagnostic = some .stepLimit ∨ f.diagnostic = some .loopLimit

/-- What comes after a line. -/
def Next.run (ops : ScriptOps W) (file : List UInt8) (steps : ℕ) : Next W → Finished W
  | .go r => runLoop ops file steps r
  | .stop f => f

/-- How a run goes on when a block has ended. -/
def Resumes (ops : ScriptOps W) (file : List UInt8) (steps : ℕ) (commands : List Command)
    (loops : List LoopFrame) (state : Interp W) (offset : ℕ) (f : Finished W) : Signal → Prop
  | .done => ∃ left ≤ steps, runLoop ops file left ⟨offset, loops, state, commands⟩ = f
  | .leave =>
    match loops with
    | [] => f = ⟨commands, 1, some .outsideLoop, state⟩
    | frame :: loops =>
      ∃ left ≤ steps, runLoop ops file left ⟨frame.afterEndOffset, loops, state, commands⟩ = f
  | .next =>
    match loops with
    | [] => f = ⟨commands, 1, some .outsideLoop, state⟩
    | frame :: _ =>
      ∃ left ≤ steps, runLoop ops file left
        ⟨if frame.kind = .whileLoop then frame.startOffset else frame.endOffset, loops, state, commands⟩ = f
  | .stop status => f.commands = commands ∧ f.status = status ∧ f.state = state

/-- A run does what a block does, and goes on accordingly. -/
def Meets (ops : ScriptOps W) (file : List UInt8) (steps : ℕ) (config : Config lineKind)
    (loops : List LoopFrame) (state : Interp W) (commands : List Command) (offset : ℕ) (f : Finished W) :
    Prop :=
  ∃ trace signal state', Exec (scriptOracles ops) config state trace signal state' ∧
    Resumes ops file steps (commands ++ trace) loops state' offset f signal

/-- More steps may have been left at the start. -/
theorem Resumes.mono {signal : Signal} (hle : steps ≤ steps')
    (h : Resumes ops file steps commands loops state offset f signal) :
    Resumes ops file steps' commands loops state offset f signal := by
  cases signal with
  | done =>
    obtain ⟨left, hleft, hrun⟩ := h
    exact ⟨left, Nat.le_trans hleft hle, hrun⟩
  | leave | next =>
    cases loops with
    | nil => exact h
    | cons frame loops =>
      obtain ⟨left, hleft, hrun⟩ := h
      exact ⟨left, Nat.le_trans hleft hle, hrun⟩
  | stop status => exact h

namespace Meets

variable {config config' again : Config lineKind} {frame : LoopFrame}

/-- Some commands were run before. -/
theorem after {before : List Command} (h : Meets ops file steps config loops state (commands ++ before) offset f)
    (hle : steps ≤ steps')
    (hexec : ∀ trace signal state', Exec (scriptOracles ops) config state trace signal state' →
      Exec (scriptOracles ops) config' state₀ (before ++ trace) signal state') :
    Meets ops file steps' config' loops state₀ commands offset f := by
  obtain ⟨trace, signal, state', hrun, hresume⟩ := h
  rw [append_assoc] at hresume
  exact ⟨before ++ trace, signal, state', hexec _ _ _ hrun, hresume.mono hle⟩

/-- Something was done before without running a command. -/
theorem prepend (h : Meets ops file steps config loops state commands offset f) (hle : steps ≤ steps')
    (hexec : ∀ trace signal state', Exec (scriptOracles ops) config state trace signal state' →
      Exec (scriptOracles ops) config' state₀ trace signal state') :
    Meets ops file steps' config' loops state₀ commands offset f :=
  have h' : Meets ops file steps config loops state (commands ++ []) offset f := by rwa [append_nil]
  after h' hle hexec

theorem stop {status : ℤ} {diagnostic : Option Diagnostic}
    (hexec : Exec (scriptOracles ops) config state [] (.stop status) state')
    (hf : (⟨commands, status, diagnostic, state'⟩ : Finished W) = f) :
    Meets ops file steps config loops state commands offset f := by
  subst hf
  exact ⟨[], .stop status, state', hexec, (append_nil _).symm, rfl, rfl⟩

/-- A block and what follows it. -/
theorem seq (h : Meets ops file steps (.run body) loops state commands middle f)
    (hrest : ∀ left ≤ steps, ∀ state' commands', runLoop ops file left ⟨middle, loops, state', commands'⟩ = f →
      Meets ops file left (.run rest) loops state' commands' offset f) :
    Meets ops file steps (.seq body rest) loops state commands offset f := by
  obtain ⟨trace, signal, state', hexec, hresume⟩ := h
  cases signal with
  | done =>
    obtain ⟨left, hleft, hrun⟩ := hresume
    exact (hrest left hleft _ _ hrun).after hleft fun _ _ _ => .seqDone hexec
  | leave | next | stop => exact ⟨trace, _, state', .seqEnd hexec (by rintro ⟨⟩), hresume⟩

/-- One round of a loop and what follows it. -/
theorem round (h : Meets ops file steps (.run body) (frame :: loops) state commands middle f)
    (hdone : ∀ left ≤ steps, ∀ state' commands',
      runLoop ops file left ⟨middle, frame :: loops, state', commands'⟩ = f →
      Meets ops file left again loops state' commands' offset f)
    (hnext : ∀ left ≤ steps, ∀ state' commands', runLoop ops file left
      ⟨if frame.kind = .whileLoop then frame.startOffset else frame.endOffset, frame :: loops, state',
        commands'⟩ = f → Meets ops file left again loops state' commands' offset f)
    (hleave : ∀ left ≤ steps, ∀ state' commands',
      runLoop ops file left ⟨frame.afterEndOffset, loops, state', commands'⟩ = f →
      Meets ops file left (.run rest) loops state' commands' offset f) :
    Meets ops file steps (.round body again rest) loops state commands offset f := by
  obtain ⟨trace, signal, state', hexec, hresume⟩ := h
  cases signal with
  | done =>
    obtain ⟨left, hleft, hrun⟩ := hresume
    exact (hdone left hleft _ _ hrun).after hleft fun _ _ _ => .roundDone hexec
  | leave =>
    obtain ⟨left, hleft, hrun⟩ := hresume
    exact (hleave left hleft _ _ hrun).after hleft fun _ _ _ => .roundLeave hexec
  | next =>
    obtain ⟨left, hleft, hrun⟩ := hresume
    exact (hnext left hleft _ _ hrun).after hleft fun _ _ _ => .roundNext hexec
  | stop status => exact ⟨trace, .stop status, state', .roundStop hexec, hresume⟩

end Meets

/-- A line that stands at the program counter is run, if no limit is reached. -/
theorem runLoop_line {lines : List (List UInt8)} {r : Run W} {kind : Kind}
    (hplain : ∀ raw ∈ cutLines file, PlainLine ops.arguments raw) (is : lineKind raw = kind)
    (hat : LinesAt file r.programCounter (raw :: lines)) (hrun : runLoop ops file steps r = f)
    (hlimit : ¬ f.Limited) :
    ∃ left, steps = left + 1 ∧ tokensKind (tokensOf ops.arguments r.state.vars raw) = kind ∧
      (stepLine ops file (textOf raw) (tokensOf ops.arguments r.state.vars raw)
        (r.programCounter + raw.length) r).run ops file left = f := by
  have hinside := Nat.not_le.mpr hat.lt_length
  cases steps with
  | zero =>
    rw [runLoop, if_neg hinside] at hrun
    exact absurd (.inl (by rw [← hrun])) hlimit
  | succ left =>
    refine ⟨left, rfl, (hplain raw hat.mem).tokensKind_eq.trans is, ?_⟩
    rw [runLoop, if_neg hinside, step] at hrun
    rw [← hrun]
    have htokens := @PlainLine.getTokens ops.arguments raw r.state.vars (hplain raw hat.mem)
      file r.programCounter lines hat
    rw [Interp.lookup, htokens]
    dsimp only
    cases stepLine ops file (textOf raw) (tokensOf ops.arguments r.state.vars raw)
      (r.programCounter + raw.length) r <;> rfl

/-- The innermost open loop starts before an offset. -/
def Below (loops : List LoopFrame) (offset : ℕ) : Prop := ∀ frame ∈ loops.head?, frame.startOffset < offset

/-- From every block, a run with so many steps does what the block does. -/
def Simulates (ops : ScriptOps W) (file : List UInt8) (steps : ℕ) : Prop :=
  ∀ (b : Block lineKind) {offset : ℕ} {loops : List LoopFrame} {state : Interp W}
    {commands : List Command} {f : Finished W}, LinesAt file offset b.lines → Below loops offset →
    runLoop ops file steps ⟨offset, loops, state, commands⟩ = f → ¬ f.Limited →
    Meets ops file steps (.run b) loops state commands (offset + b.lines.flatten.length) f

theorem Below.mono {offset' : ℕ} (h : Below loops offset) (hle : offset ≤ offset') : Below loops offset' :=
  fun frame hframe => Nat.lt_of_lt_of_le (h frame hframe) hle

theorem end_cons (raw : List UInt8) (lines : List (List UInt8)) :
    offset + (raw :: lines).flatten.length = offset + raw.length + lines.flatten.length := by
  rw [flatten_cons, length_append, Nat.add_assoc]

theorem end_bracket (raw last : List UInt8) (inner lines : List (List UInt8)) :
    offset + (raw :: (inner ++ last :: lines)).flatten.length =
      offset + raw.length + inner.flatten.length + last.length + lines.flatten.length := by
  rw [end_cons, flatten_append, length_append, flatten_cons, length_append]
  omega

theorem Meets.nil (hrun : runLoop ops file steps ⟨offset, loops, state, commands⟩ = f) :
    Meets ops file steps (.run .nil) loops state commands offset f := by
  refine ⟨[], .done, state, .nil, steps, Nat.le_refl _, ?_⟩
  rwa [append_nil]

variable (hplain : ∀ raw ∈ cutLines file, PlainLine ops.arguments raw)
  (hrun : runLoop ops file steps ⟨offset, loops, state, commands⟩ = f) (hlimit : ¬ f.Limited)
  (ih : ∀ left < steps, Simulates ops file left) (hbelow : Below loops offset)

include hplain hrun hlimit

/-- A break. -/
theorem meets_leave (is : lineKind raw = .breakLine) (hat : LinesAt file offset (raw :: rest.lines)) :
    Meets ops file steps (.run (.leave raw is rest)) loops state commands
      (offset + (raw :: rest.lines).flatten.length) f := by
  obtain ⟨left, rfl, hline, hnext⟩ := runLoop_line hplain is hat hrun hlimit
  rw [stepLine, hline] at hnext
  unfold stepBreak at hnext
  by_cases hcount : (tokensOf ops.arguments state.vars raw).length ≠ 1
  · have hjump : (scriptOracles ops).jump raw state = .error 1 := if_pos hcount
    cases loops with
    | nil => exact Meets.stop (.leaveStop hjump) hnext
    | cons frame loops =>
      dsimp only at hnext
      rw [if_pos hcount] at hnext
      exact Meets.stop (.leaveStop hjump) hnext
  · have hjump : (scriptOracles ops).jump raw state = .ok () := if_neg hcount
    refine ⟨[], .leave, state, .leave hjump, ?_⟩
    rw [append_nil]
    cases loops with
    | nil => exact hnext.symm
    | cons frame loops =>
      dsimp only at hnext
      rw [if_neg hcount] at hnext
      exact ⟨left, Nat.le_succ _, hnext⟩

/-- A continue. -/
theorem meets_next (is : lineKind raw = .continueLine) (hat : LinesAt file offset (raw :: rest.lines)) :
    Meets ops file steps (.run (.next raw is rest)) loops state commands
      (offset + (raw :: rest.lines).flatten.length) f := by
  obtain ⟨left, rfl, hline, hnext⟩ := runLoop_line hplain is hat hrun hlimit
  rw [stepLine, hline] at hnext
  unfold stepContinue at hnext
  by_cases hcount : (tokensOf ops.arguments state.vars raw).length ≠ 1
  · have hjump : (scriptOracles ops).jump raw state = .error 1 := if_pos hcount
    cases loops with
    | nil => exact Meets.stop (.nextStop hjump) hnext
    | cons frame loops =>
      dsimp only at hnext
      rw [if_pos hcount] at hnext
      exact Meets.stop (.nextStop hjump) hnext
  · have hjump : (scriptOracles ops).jump raw state = .ok () := if_neg hcount
    refine ⟨[], .next, state, .next hjump, ?_⟩
    rw [append_nil]
    cases loops with
    | nil => exact hnext.symm
    | cons frame loops =>
      dsimp only at hnext
      rw [if_neg hcount] at hnext
      refine ⟨left, Nat.le_succ _, ?_⟩
      split_ifs at hnext ⊢
      · exact hnext
      · exact hnext

include ih hbelow

/-- A line that the interpreter steps over, before a block. -/
theorem meets_over {kind : Kind} (hkind : lineKind raw = kind) (hover : kind = .blank ∨ kind = .endifLine)
    (hat : LinesAt file offset (raw :: rest.lines)) :
    Meets ops file steps (.run rest) loops state commands
      (offset + raw.length + rest.lines.flatten.length) f := by
  obtain ⟨left, rfl, hline, hnext⟩ := runLoop_line hplain hkind hat hrun hlimit
  rw [stepLine, hline] at hnext
  have hgo : runLoop ops file left ⟨offset + raw.length, loops, state, commands⟩ = f := by
    rcases hover with rfl | rfl
    · exact hnext
    · exact hnext
  exact (ih left (Nat.lt_succ_self _) rest hat.tail (hbelow.mono (Nat.le_add_right _ _)) hgo hlimit).prepend
    (Nat.le_succ _) fun _ _ _ hexec => hexec

/-- A command before a block. -/
theorem meets_command (is : lineKind raw = .command) (hat : LinesAt file offset (raw :: rest.lines)) :
    Meets ops file steps (.run (.command raw is rest)) loops state commands
      (offset + (raw :: rest.lines).flatten.length) f := by
  obtain ⟨left, rfl, hline, hnext⟩ := runLoop_line hplain is hat hrun hlimit
  rw [stepLine, hline] at hnext
  unfold stepCommand at hnext
  cases hcommand : ops.command (tokensOf ops.arguments state.vars raw) (textOf raw) state with
  | mk result state' =>
    rw [hcommand] at hnext
    dsimp only at hnext
    split_ifs at hnext with hstatus
    · have horacle : (scriptOracles ops).command raw state = (.error 1, state') := by
        simp only [scriptOracles, hcommand, if_pos hstatus]
      rw [← hnext]
      exact ⟨_, .stop 1, state', .commandStop horacle, rfl, rfl, rfl⟩
    cases hexit : result.exit with
    | some status =>
      rw [hexit] at hnext
      have horacle : (scriptOracles ops).command raw state = (.error status, state') := by
        simp only [scriptOracles, hcommand, if_neg hstatus, hexit]
      rw [← hnext]
      exact ⟨_, .stop status, state', .commandStop horacle, rfl, rfl, rfl⟩
    | none =>
      rw [hexit] at hnext
      have horacle : (scriptOracles ops).command raw state = (.ok (), state') := by
        simp only [scriptOracles, hcommand, if_neg hstatus, hexit]
      rw [end_cons]
      exact (ih left (Nat.lt_succ_self _) rest hat.tail (hbelow.mono (Nat.le_add_right _ _)) hnext hlimit).after
        (Nat.le_succ _) fun _ _ _ => .command horacle

/-- A branch. -/
theorem meets_branch (is : lineKind raw = .ifLine) (closes : lineKind last = .endifLine)
    (hat : LinesAt file offset (raw :: (body.lines ++ last :: rest.lines))) :
    Meets ops file steps (.run (.branch raw is body last closes rest)) loops state commands
      (offset + (raw :: (body.lines ++ last :: rest.lines)).flatten.length) f := by
  obtain ⟨left, rfl, hline, hnext⟩ := runLoop_line hplain is hat hrun hlimit
  rw [stepLine, hline] at hnext
  unfold stepIf at hnext
  cases hcondition : ops.condition (tokensOf ops.arguments state.vars raw) state with
  | mk condition state' =>
    rw [hcondition] at hnext
    cases condition with
    | none => exact Meets.stop (.branchStop (scriptOracles_condition hcondition)) hnext
    | some condition =>
      have horacle := scriptOracles_condition hcondition
      dsimp only at hnext
      rw [Interp.lookup, findIfEnd_branch hplain body hat closes] at hnext
      refine Meets.prepend ?_ (Nat.le_succ left) fun _ _ _ => Exec.branch horacle
      have hlast := hat.tail.right
      rw [end_bracket]
      cases condition with
      | false =>
        refine (Meets.nil hnext).seq fun left' hleft state'' commands' hrest => ?_
        exact ih left' (by omega) rest hlast.tail (hbelow.mono (by omega)) hrest hlimit
      | true =>
        refine (ih left (Nat.lt_succ_self _) body hat.tail.left (hbelow.mono (by omega)) hnext hlimit).seq
          fun left' hleft state'' commands' hrest => ?_
        exact meets_over hplain hrest hlimit (fun m hm => ih m (by omega)) (hbelow.mono (by omega))
          closes (.inr rfl) hlast

/-- A branch with two sides. -/
theorem meets_branchElse {middle : List UInt8} {other : Block lineKind} (is : lineKind raw = .ifLine)
    (turns : lineKind middle = .elseLine) (closes : lineKind last = .endifLine)
    (hat : LinesAt file offset (raw :: (body.lines ++ middle :: (other.lines ++ last :: rest.lines)))) :
    Meets ops file steps (.run (.branchElse raw is body middle turns other last closes rest)) loops state commands
      (offset + (raw :: (body.lines ++ middle :: (other.lines ++ last :: rest.lines))).flatten.length)
      f := by
  obtain ⟨left, rfl, hline, hnext⟩ := runLoop_line hplain is hat hrun hlimit
  rw [stepLine, hline] at hnext
  unfold stepIf at hnext
  cases hcondition : ops.condition (tokensOf ops.arguments state.vars raw) state with
  | mk condition state' =>
    rw [hcondition] at hnext
    cases condition with
    | none => exact Meets.stop (.branchElseStop (scriptOracles_condition hcondition)) hnext
    | some condition =>
      have horacle := scriptOracles_condition hcondition
      dsimp only at hnext
      rw [Interp.lookup, findIfEnd_branchElse hplain body other hat turns closes] at hnext
      refine Meets.prepend ?_ (Nat.le_succ left) fun _ _ _ => Exec.branchElse horacle
      have hmiddle := hat.tail.right
      have hlast := hmiddle.tail.right
      have hend : offset + (raw :: (body.lines ++ middle :: (other.lines ++ last :: rest.lines))).flatten.length =
          offset + raw.length + body.lines.flatten.length + middle.length + other.lines.flatten.length +
            last.length + rest.lines.flatten.length := by
        rw [end_bracket, flatten_append, length_append, flatten_cons, length_append]
        omega
      rw [hend]
      cases condition with
      | false =>
        refine (ih left (Nat.lt_succ_self _) other hmiddle.tail.left (hbelow.mono (by omega)) hnext
          hlimit).seq fun left' hleft state'' commands' hrest => ?_
        exact meets_over hplain hrest hlimit (fun m hm => ih m (by omega)) (hbelow.mono (by omega))
          closes (.inr rfl) hlast
      | true =>
        refine (ih left (Nat.lt_succ_self _) body hat.tail.left (hbelow.mono (by omega)) hnext hlimit).seq
          fun left' hleft state'' commands' hrest => ?_
        -- the side that was taken ends at the else, from where the interpreter looks for the end
        obtain ⟨left'', rfl, hline, hjump⟩ := runLoop_line hplain turns hmiddle hrest hlimit
        rw [stepLine, hline] at hjump
        have hfound := @findControlEnd_block ops.arguments state''.vars file _ middle last rest.lines
          hplain .branch other hmiddle closes
        unfold stepElse at hjump
        rw [Interp.lookup, show Kind.ifLine = Nest.branch.opening from rfl,
          show Kind.endifLine = Nest.branch.closing from rfl, hfound] at hjump
        refine Meets.prepend (ih left'' (by omega) rest hlast.tail (hbelow.mono (by omega)) hjump hlimit)
          (Nat.le_succ _) fun _ _ _ hexec => hexec

end Windoge.Script
