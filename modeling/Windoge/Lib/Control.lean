import Mathlib

/-!
# Structured control over lines

A program is a list of lines of which some open and close blocks. Its meaning is given on
the nested blocks, by a relation from a state to the commands that are run, to how the block
ends and to the state then. What a command does and how a condition turns out are left to
oracles.
-/

namespace Windoge.Control

/-- What a line is for. -/
inductive Kind
  | blank
  | command
  | ifLine
  | elseLine
  | endifLine
  | whileLine
  | endwhileLine
  | repeatLine
  | endrepeatLine
  | breakLine
  | continueLine
  deriving DecidableEq

/-- A sequence of lines in which everything that is opened is closed. -/
inductive Block {L : Type} (kind : L → Kind)
  | nil
  | blank (line : L) (is : kind line = .blank) (rest : Block kind)
  | command (line : L) (is : kind line = .command) (rest : Block kind)
  | leave (line : L) (is : kind line = .breakLine) (rest : Block kind)
  | next (line : L) (is : kind line = .continueLine) (rest : Block kind)
  | branch (line : L) (is : kind line = .ifLine) (body : Block kind)
      (last : L) (closes : kind last = .endifLine) (rest : Block kind)
  | branchElse (line : L) (is : kind line = .ifLine) (body : Block kind)
      (middle : L) (turns : kind middle = .elseLine) (other : Block kind)
      (last : L) (closes : kind last = .endifLine) (rest : Block kind)
  | loop (line : L) (is : kind line = .whileLine) (body : Block kind)
      (last : L) (closes : kind last = .endwhileLine) (rest : Block kind)
  | count (line : L) (is : kind line = .repeatLine) (body : Block kind)
      (last : L) (closes : kind last = .endrepeatLine) (rest : Block kind)

/-- The lines of a block in their order. -/
def Block.lines {L : Type} {kind : L → Kind} : Block kind → List L
  | nil => []
  | blank line _ rest => line :: rest.lines
  | command line _ rest => line :: rest.lines
  | leave line _ rest => line :: rest.lines
  | next line _ rest => line :: rest.lines
  | branch line _ body last _ rest => line :: (body.lines ++ last :: rest.lines)
  | branchElse line _ body middle _ other last _ rest =>
    line :: (body.lines ++ middle :: (other.lines ++ last :: rest.lines))
  | loop line _ body last _ rest => line :: (body.lines ++ last :: rest.lines)
  | count line _ body last _ rest => line :: (body.lines ++ last :: rest.lines)

/-- What the lines do. An error is the status with which the program ends. -/
structure Oracles (L W C : Type) where
  describe : L → W → C
  command : L → W → Except ℤ Unit × W
  condition : L → W → Except ℤ Bool × W
  times : L → W → Except ℤ ℕ
  jump : L → W → Except ℤ Unit

/-- How a block ends. -/
inductive Signal
  | done
  | leave
  | next
  | stop (status : ℤ)

/-- What is to be run: a block, a block before another, one round of a loop, or rounds that are
counted. -/
inductive Config {L : Type} (kind : L → Kind)
  | run (block : Block kind)
  | seq (block rest : Block kind)
  | round (body : Block kind) (again : Config kind) (rest : Block kind)
  | rounds (count : ℕ) (body rest : Block kind)

/-- The meaning of blocks. -/
inductive Exec {L W C : Type} {kind : L → Kind} (oracles : Oracles L W C) :
    Config kind → W → List C → Signal → W → Prop
  | nil {w} : Exec oracles (.run .nil) w [] .done w
  | blank {line is rest w trace signal w'} :
    Exec oracles (.run rest) w trace signal w' →
    Exec oracles (.run (.blank line is rest)) w trace signal w'
  | command {line is rest w w₁ trace signal w'} :
    oracles.command line w = (.ok (), w₁) → Exec oracles (.run rest) w₁ trace signal w' →
    Exec oracles (.run (.command line is rest)) w (oracles.describe line w :: trace) signal w'
  | commandStop {line is rest w w₁ status} :
    oracles.command line w = (.error status, w₁) →
    Exec oracles (.run (.command line is rest)) w [oracles.describe line w] (.stop status) w₁
  | leave {line is rest w} :
    oracles.jump line w = .ok () → Exec oracles (.run (.leave line is rest)) w [] .leave w
  | leaveStop {line is rest w status} :
    oracles.jump line w = .error status →
    Exec oracles (.run (.leave line is rest)) w [] (.stop status) w
  | next {line is rest w} :
    oracles.jump line w = .ok () → Exec oracles (.run (.next line is rest)) w [] .next w
  | nextStop {line is rest w status} :
    oracles.jump line w = .error status →
    Exec oracles (.run (.next line is rest)) w [] (.stop status) w
  | branch {line is body last closes rest w c w₁ trace signal w'} :
    oracles.condition line w = (.ok c, w₁) →
    Exec oracles (.seq (if c then body else .nil) rest) w₁ trace signal w' →
    Exec oracles (.run (.branch line is body last closes rest)) w trace signal w'
  | branchStop {line is body last closes rest w status w₁} :
    oracles.condition line w = (.error status, w₁) →
    Exec oracles (.run (.branch line is body last closes rest)) w [] (.stop status) w₁
  | branchElse {line is body middle turns other last closes rest w c w₁ trace signal w'} :
    oracles.condition line w = (.ok c, w₁) →
    Exec oracles (.seq (if c then body else other) rest) w₁ trace signal w' →
    Exec oracles (.run (.branchElse line is body middle turns other last closes rest)) w trace signal w'
  | branchElseStop {line is body middle turns other last closes rest w status w₁} :
    oracles.condition line w = (.error status, w₁) →
    Exec oracles (.run (.branchElse line is body middle turns other last closes rest)) w []
      (.stop status) w₁
  | loopEnd {line is body last closes rest w w₁ trace signal w'} :
    oracles.condition line w = (.ok false, w₁) → Exec oracles (.run rest) w₁ trace signal w' →
    Exec oracles (.run (.loop line is body last closes rest)) w trace signal w'
  | loop {line is body last closes rest w w₁ trace signal w'} :
    oracles.condition line w = (.ok true, w₁) →
    Exec oracles (.round body (.run (.loop line is body last closes rest)) rest) w₁ trace signal w' →
    Exec oracles (.run (.loop line is body last closes rest)) w trace signal w'
  | loopStop {line is body last closes rest w status w₁} :
    oracles.condition line w = (.error status, w₁) →
    Exec oracles (.run (.loop line is body last closes rest)) w [] (.stop status) w₁
  | count {line is body last closes rest w n trace signal w'} :
    oracles.times line w = .ok n → Exec oracles (.rounds n body rest) w trace signal w' →
    Exec oracles (.run (.count line is body last closes rest)) w trace signal w'
  | countStop {line is body last closes rest w status} :
    oracles.times line w = .error status →
    Exec oracles (.run (.count line is body last closes rest)) w [] (.stop status) w
  | seqDone {block rest w trace₁ w₁ trace₂ signal w'} :
    Exec oracles (.run block) w trace₁ .done w₁ → Exec oracles (.run rest) w₁ trace₂ signal w' →
    Exec oracles (.seq block rest) w (trace₁ ++ trace₂) signal w'
  | seqEnd {block rest w trace signal w'} :
    Exec oracles (.run block) w trace signal w' → signal ≠ .done →
    Exec oracles (.seq block rest) w trace signal w'
  | roundDone {body again rest w trace₁ w₁ trace₂ signal w'} :
    Exec oracles (.run body) w trace₁ .done w₁ → Exec oracles again w₁ trace₂ signal w' →
    Exec oracles (.round body again rest) w (trace₁ ++ trace₂) signal w'
  | roundNext {body again rest w trace₁ w₁ trace₂ signal w'} :
    Exec oracles (.run body) w trace₁ .next w₁ → Exec oracles again w₁ trace₂ signal w' →
    Exec oracles (.round body again rest) w (trace₁ ++ trace₂) signal w'
  | roundLeave {body again rest w trace₁ w₁ trace₂ signal w'} :
    Exec oracles (.run body) w trace₁ .leave w₁ → Exec oracles (.run rest) w₁ trace₂ signal w' →
    Exec oracles (.round body again rest) w (trace₁ ++ trace₂) signal w'
  | roundStop {body again rest w trace status w'} :
    Exec oracles (.run body) w trace (.stop status) w' →
    Exec oracles (.round body again rest) w trace (.stop status) w'
  | roundsNone {body rest w trace signal w'} :
    Exec oracles (.run rest) w trace signal w' → Exec oracles (.rounds 0 body rest) w trace signal w'
  | rounds {n body rest w trace signal w'} :
    Exec oracles (.round body (.rounds n body rest) rest) w trace signal w' →
    Exec oracles (.rounds (n + 1) body rest) w trace signal w'

/-- A block has at most one meaning. -/
theorem Exec.deterministic {L W C : Type} {kind : L → Kind} {oracles : Oracles L W C}
    {config : Config kind} {w : W} {trace₁ trace₂ : List C} {signal₁ signal₂ : Signal} {w₁ w₂ : W}
    (h₁ : Exec oracles config w trace₁ signal₁ w₁) (h₂ : Exec oracles config w trace₂ signal₂ w₂) :
    trace₁ = trace₂ ∧ signal₁ = signal₂ ∧ w₁ = w₂ := by
  induction h₁ generalizing trace₂ signal₂ w₂ with
  | nil =>
    cases h₂
    exact ⟨rfl, rfl, rfl⟩
  | blank _ ih | roundsNone _ ih | rounds _ ih =>
    cases h₂
    exact ih ‹_›
  | command horacle _ ih =>
    cases h₂ with
    | command horacle' h =>
      cases horacle.symm.trans horacle'
      obtain ⟨rfl, rfl, rfl⟩ := ih h
      exact ⟨rfl, rfl, rfl⟩
    | commandStop horacle' => cases horacle.symm.trans horacle'
  | commandStop horacle | leave horacle | leaveStop horacle | next horacle | nextStop horacle | branchStop horacle
  | branchElseStop horacle | loopStop horacle | countStop horacle =>
    cases h₂ <;> cases horacle.symm.trans ‹_› <;> exact ⟨rfl, rfl, rfl⟩
  | branch horacle _ ih | branchElse horacle _ ih | loopEnd horacle _ ih | loop horacle _ ih | count horacle _ ih =>
    cases h₂ <;> cases horacle.symm.trans ‹_› <;> exact ih ‹_›
  | seqDone _ _ ih ih' =>
    cases h₂ with
    | seqDone h h' =>
      obtain ⟨rfl, -, rfl⟩ := ih h
      obtain ⟨rfl, rfl, rfl⟩ := ih' h'
      exact ⟨rfl, rfl, rfl⟩
    | seqEnd h hne => exact absurd (ih h).2.1.symm hne
  | seqEnd _ hne ih =>
    cases h₂ with
    | seqDone h _ => exact absurd (ih h).2.1 hne
    | seqEnd h _ => exact ih h
  | roundDone _ _ ih ih' | roundNext _ _ ih ih' | roundLeave _ _ ih ih' =>
    cases h₂ with
    | roundDone h h' | roundNext h h' | roundLeave h h' =>
      obtain ⟨rfl, hsignal, rfl⟩ := ih h
      cases hsignal
      all_goals
        obtain ⟨rfl, rfl, rfl⟩ := ih' h'
        exact ⟨rfl, rfl, rfl⟩
    | roundStop h => cases (ih h).2.1
  | roundStop _ ih =>
    cases h₂ with
    | roundDone h | roundNext h | roundLeave h => cases (ih h).2.1
    | roundStop h => exact ih h

end Windoge.Control
