import Windoge.Script.Interpreter

/-!
# The lines of a script

A script file is cut into lines. At the offset of a line the reader of the interpreter finds
that line and the offset of the next one. If the first token of every line names no variable,
what a line is for does not depend on the variables.
-/

namespace Windoge.Script

open Control List Option

/-- The lines of a file with their line ends. -/
def cutLines : List UInt8 → List (List UInt8)
  | [] => []
  | character :: bytes =>
    if character = 10 then [character] :: cutLines bytes
    else
      match cutLines bytes with
      | [] => [[character]]
      | line :: lines => (character :: line) :: lines

/-- The text of a line. -/
def lineText (raw : List UInt8) : Except LineError Text :=
  (lineLoop raw [] 0).map fun (line, _) => dropReturn line

/-- The tokens of a line before variables are expanded, none for a blank line or a comment. -/
def rawLineTokens (line : Text) : Option (List Text) :=
  let first := line.dropWhile isSpace
  if first = [] ∨ first.head? = some 35 then some [] else rawTokens first

/-- What a line of the file is for, read off its raw tokens. -/
def lineKind (raw : List UInt8) : Kind :=
  match lineText raw with
  | .error _ => .blank
  | .ok line => tokensKind ((rawLineTokens line).getD [])

/-- A line that tokenizes whatever the variables are, and whose first token names no variable. -/
structure PlainLine (arguments : Arguments) (raw : List UInt8) : Prop where
  tokenizes : ∀ vars, ∃ line tokens, lineText raw = .ok line ∧
    lineTokens (getVariable arguments vars) line = some tokens
  literal : ∀ line tokens, lineText raw = .ok line → rawLineTokens line = some tokens →
    ∀ token ∈ tokens.head?, hasVariable token = false

/-- The lines that stand at an offset of a file. -/
def LinesAt (file : List UInt8) (offset : ℕ) (lines : List (List UInt8)) : Prop :=
  ∃ before after, cutLines file = before ++ lines ++ after ∧ offset = before.flatten.length

theorem cutLines_flatten (bytes : List UInt8) : (cutLines bytes).flatten = bytes := by
  induction bytes with
  | nil => rfl
  | cons character bytes ih =>
    rw [cutLines]
    split_ifs
    · rw [flatten_cons, ih, singleton_append]
    split
    · next hnone =>
      rw [hnone] at ih
      rw [← ih]
      rfl
    · next line lines hcut =>
      rw [hcut] at ih
      rw [← ih]
      rfl

/-- A line of a file: a line end stands only at its end, and only the last line may have none. -/
def IsLine (line : List UInt8) (after : List (List UInt8)) : Prop :=
  (∃ front, line = front ++ [10] ∧ 10 ∉ front) ∨ (after = [] ∧ line ≠ [] ∧ 10 ∉ line)

section

variable {line : List UInt8} {after : List (List UInt8)} {position : ℕ}

/-- A character before a line that is not a line end. -/
theorem IsLine.cons {character : UInt8} (h : IsLine line after) (hend : character ≠ 10) :
    IsLine (character :: line) after := by
  rcases h with ⟨front, rfl, hfront⟩ | ⟨hafter, -, hline⟩
  · refine .inl ⟨character :: front, rfl, ?_⟩
    exact fun hmem => (mem_cons.mp hmem).elim (fun heq => hend heq.symm) hfront
  · refine .inr ⟨hafter, cons_ne_nil _ _, ?_⟩
    exact fun hmem => (mem_cons.mp hmem).elim (fun heq => hend heq.symm) hline

/-- Every line of a file is a line. -/
theorem isLine_of_cutLines {bytes : List UInt8} {before : List (List UInt8)}
    (h : cutLines bytes = before ++ line :: after) : IsLine line after := by
  induction bytes generalizing before line with
  | nil => exact absurd h.symm (append_ne_nil_of_right_ne_nil _ (cons_ne_nil _ _))
  | cons character bytes ih =>
    rw [cutLines] at h
    split_ifs at h with hend
    · cases before with
      | nil =>
        cases h
        exact .inl ⟨[], by rw [hend]; rfl, not_mem_nil⟩
      | cons first before => exact ih (cons.inj h).2
    · split at h
      · next hnone =>
        cases before with
        | nil =>
          cases h
          refine .inr ⟨rfl, cons_ne_nil _ _, ?_⟩
          exact fun hmem => hend (mem_singleton.mp hmem).symm
        | cons first before =>
          exact absurd (cons.inj h).2.symm (append_ne_nil_of_right_ne_nil _ (cons_ne_nil _ _))
      · next first lines hcut =>
        cases before with
        | nil =>
          cases h
          exact (@ih first [] hcut).cons hend
        | cons other before =>
          cases h
          exact @ih line (first :: before) hcut

theorem IsLine.length_pos (h : IsLine line after) : 0 < line.length := by
  rcases h with ⟨front, rfl, -⟩ | ⟨-, hne, -⟩
  · rw [length_append]
    exact Nat.succ_pos _
  · exact length_pos_iff.mpr hne

/-- The reader stops behind a line end. -/
theorem lineLoop_front {front rest : List UInt8} {shift : ℕ} (hfront : 10 ∉ front) :
    lineLoop (front ++ 10 :: rest) line (shift + position) =
      (lineLoop (front ++ [10]) line position).map fun found => (found.1, shift + found.2) := by
  induction front generalizing line position with
  | nil => rfl
  | cons character front ih =>
    obtain ⟨hcharacter, hfront⟩ := not_or.mp (mt mem_cons.mpr hfront)
    rw [cons_append, cons_append, lineLoop, lineLoop]
    split_ifs with hnull hend
    · rfl
    · exact absurd hend.symm hcharacter
    · rfl
    · rw [Nat.add_assoc]
      exact ih hfront

/-- The reader stops at the end of the file. -/
theorem lineLoop_last {last : List UInt8} {shift : ℕ} (hlast : 10 ∉ last) :
    lineLoop last line (shift + position) =
      (lineLoop last line position).map fun found => (found.1, shift + found.2) := by
  induction last generalizing line position with
  | nil => rfl
  | cons character last ih =>
    obtain ⟨hcharacter, hlast⟩ := not_or.mp (mt mem_cons.mpr hlast)
    rw [lineLoop, lineLoop]
    split_ifs with hnull hend
    · rfl
    · exact absurd hend.symm hcharacter
    · rfl
    · rw [Nat.add_assoc]
      exact ih hlast

/-- The reader moves behind the line it has read. -/
theorem lineLoop_length {bytes found : List UInt8} {next : ℕ}
    (hline : (∃ front, bytes = front ++ [10] ∧ 10 ∉ front) ∨ 10 ∉ bytes)
    (h : lineLoop bytes line position = .ok (found, next)) : next = position + bytes.length := by
  induction bytes generalizing line position with
  | nil => exact (Prod.mk.inj (Except.ok.inj h)).2.symm
  | cons character bytes ih =>
    rw [lineLoop] at h
    split_ifs at h with hnull hend
    · rcases hline with ⟨front, hsplit, hfront⟩ | hline
      · cases front with
        | nil =>
          cases hsplit
          exact (Prod.mk.inj (Except.ok.inj h)).2.symm
        | cons first front =>
          cases hsplit
          exact absurd (hend ▸ mem_cons_self) hfront
      · exact absurd (hend ▸ mem_cons_self) hline
    · have hrest : (∃ front, bytes = front ++ [10] ∧ 10 ∉ front) ∨ 10 ∉ bytes := by
        rcases hline with ⟨front, hsplit, hfront⟩ | hline
        · cases front with
          | nil => exact absurd (cons.inj hsplit).1 hend
          | cons first front =>
            obtain ⟨rfl, hbytes⟩ := cons.inj hsplit
            exact .inl ⟨front, hbytes, fun hmem => hfront (mem_cons_of_mem _ hmem)⟩
        · exact .inr fun hmem => hline (mem_cons_of_mem _ hmem)
      rw [ih hrest h, length_cons]
      omega

namespace LinesAt

variable {file : List UInt8} {offset : ℕ} {line : List UInt8} {lines first second : List (List UInt8)}

theorem left (h : LinesAt file offset (first ++ second)) : LinesAt file offset first := by
  obtain ⟨before, after, hcut, rfl⟩ := h
  exact ⟨before, second ++ after, by rw [hcut, append_assoc, append_assoc, ← append_assoc], rfl⟩

theorem right (h : LinesAt file offset (first ++ second)) :
    LinesAt file (offset + first.flatten.length) second := by
  obtain ⟨before, after, hcut, rfl⟩ := h
  refine ⟨before ++ first, after, by rw [hcut, ← append_assoc before], ?_⟩
  rw [flatten_append, length_append]

theorem le_length (h : LinesAt file offset lines) : offset + lines.flatten.length ≤ file.length := by
  obtain ⟨before, after, hcut, rfl⟩ := h
  have hfile := congrArg length (cutLines_flatten file)
  rw [hcut, flatten_append, flatten_append, length_append, length_append] at hfile
  omega

section

variable (h : LinesAt file offset (line :: lines))
include h

theorem tail : LinesAt file (offset + line.length) lines := by
  have hright := @right file offset [line] lines h
  rwa [flatten_singleton] at hright

theorem mem : line ∈ cutLines file := by
  obtain ⟨before, after, hcut, -⟩ := h
  rw [hcut]
  exact mem_append_left _ (mem_append_right _ mem_cons_self)

/-- A line that stands in a file is a line. -/
theorem isLine : ∃ after, IsLine line after ∧ file.drop offset = line ++ after.flatten := by
  obtain ⟨before, after, hcut, rfl⟩ := h
  have hsplit : cutLines file = before ++ line :: (lines ++ after) := by
    rw [hcut, append_assoc, cons_append]
  refine ⟨lines ++ after, isLine_of_cutLines hsplit, ?_⟩
  have hfile := cutLines_flatten file
  rw [hsplit, flatten_append, flatten_cons] at hfile
  rw [← hfile, drop_left]

theorem length_pos : 0 < line.length := by
  obtain ⟨after, hline, -⟩ := h.isLine
  exact hline.length_pos

theorem lt_length : offset < file.length := by
  obtain ⟨after, hline, hdrop⟩ := h.isLine
  have hlength := congrArg length hdrop
  rw [length_drop, length_append] at hlength
  have hpos := hline.length_pos
  omega

/-- `get_line` reads the line at its offset. -/
theorem getLine : getLine file offset = (lineText line).map fun text => (text, offset + line.length) := by
  obtain ⟨after, hline, hdrop⟩ := h.isLine
  have hloop : lineLoop (file.drop offset) [] offset =
      (lineLoop line [] 0).map fun found => (found.1, offset + found.2) := by
    rw [hdrop]
    rcases hline with ⟨front, rfl, hfront⟩ | ⟨rfl, -, hlast⟩
    · rw [append_assoc]
      exact @lineLoop_front [] 0 front after.flatten offset hfront
    · rw [flatten_nil, append_nil]
      exact @lineLoop_last [] 0 line offset hlast
  rw [Script.getLine, hloop, lineText]
  cases hfound : lineLoop line [] 0 with
  | error e => rfl
  | ok found =>
    obtain ⟨text, next⟩ := found
    have hends := hline.imp id fun hlast => hlast.2.2
    obtain rfl := lineLoop_length hends hfound
    rw [Nat.zero_add]
    rfl

end

end LinesAt

section Plain

variable {arguments : Arguments} {raw : List UInt8} {vars : Variables}

/-- The text of a line that can be read. -/
def textOf (raw : List UInt8) : Text := ((lineText raw).toOption).getD []

/-- The tokens of a line that can be read. -/
def tokensOf (arguments : Arguments) (vars : Variables) (raw : List UInt8) : List Text :=
  (lineTokens (getVariable arguments vars) (textOf raw)).getD []

section

variable (h : PlainLine arguments raw)
include h

theorem PlainLine.lineText_eq : lineText raw = .ok (textOf raw) := by
  obtain ⟨line, tokens, hline, -⟩ := h.tokenizes .empty
  rw [textOf, hline]
  rfl

theorem PlainLine.lineTokens_eq : lineTokens (getVariable arguments vars) (textOf raw) =
      some (tokensOf arguments vars raw) := by
  obtain ⟨line, tokens, hline, htokens⟩ := h.tokenizes vars
  obtain rfl : textOf raw = line := Except.ok.inj (h.lineText_eq.symm.trans hline)
  rw [tokensOf, htokens]
  rfl

/-- What a plain line is for. -/
theorem PlainLine.tokensKind_eq : tokensKind (tokensOf arguments vars raw) = lineKind raw := by
  have htokens := @PlainLine.lineTokens_eq arguments raw vars h
  have hliteral := fun tokens => h.literal _ tokens h.lineText_eq
  rw [lineKind, h.lineText_eq]
  unfold lineTokens at htokens
  unfold rawLineTokens at hliteral ⊢
  dsimp only at htokens hliteral ⊢
  by_cases hblank : (textOf raw).dropWhile isSpace = [] ∨ ((textOf raw).dropWhile isSpace).head? = some 35
  · rw [if_pos hblank] at htokens ⊢
    rw [← some.inj htokens]
    rfl
  rw [if_neg hblank] at htokens hliteral ⊢
  cases hraw : rawTokens ((textOf raw).dropWhile isSpace) with
  | none =>
    rw [tokenizeLine, hraw] at htokens
    cases htokens
  | some words =>
    cases words with
    | nil =>
      rw [tokenizeLine, hraw] at htokens
      rw [← some.inj htokens]
      rfl
    | cons word words =>
      obtain ⟨rest, hrest⟩ := tokenizeLine_head hraw (hliteral _ hraw word rfl) htokens
      rw [hrest]
      rfl

theorem PlainLine.getTokens {file : List UInt8} {offset : ℕ} {lines : List (List UInt8)}
    (hat : LinesAt file offset (raw :: lines)) : getTokens (getVariable arguments vars) file offset =
      .ok (textOf raw, tokensOf arguments vars raw, offset + raw.length) := by
  rw [Script.getTokens, hat.getLine, h.lineText_eq]
  dsimp only [Except.map]
  rw [h.lineTokens_eq]

end

end Plain

end

/-!
## Finding the end of a block

The scans of the interpreter look for the line that closes a block by counting the lines that
open and close blocks of the same sort. Over a nested block they come out at the depth they
went in with, so from a line that opens a block they find the line that closes it.
-/

/-- The sorts of blocks. -/
inductive Nest
  | branch
  | loop
  | count
  deriving DecidableEq

/-- The line that opens a block. -/
def Nest.opening : Nest → Kind
  | branch => .ifLine
  | loop => .whileLine
  | count => .repeatLine

/-- The line that closes a block. -/
def Nest.closing : Nest → Kind
  | branch => .endifLine
  | loop => .endwhileLine
  | count => .endrepeatLine

/-- Moves of a scan between depths and offsets: it counts the lines that open and close blocks of its
sort, and passes over others. An else at depth 0 may be something else to it. -/
structure Scanner (file : List UInt8) (nest : Nest) (moves : ℕ × ℕ → ℕ × ℕ → Prop) : Prop where
  refl : ∀ place, moves place place
  trans : ∀ {place middle target}, moves place middle → moves middle target → moves place target
  opens : ∀ {depth offset raw lines}, LinesAt file offset (raw :: lines) → lineKind raw = nest.opening →
    moves (depth, offset) (depth + 1, offset + raw.length)
  closes : ∀ {depth offset raw lines}, LinesAt file offset (raw :: lines) →
    lineKind raw = nest.closing → moves (depth + 1, offset) (depth, offset + raw.length)
  passes : ∀ {depth offset raw lines}, LinesAt file offset (raw :: lines) →
    lineKind raw ≠ nest.opening → lineKind raw ≠ nest.closing →
    (lineKind raw = .elseLine → nest ≠ .branch ∨ 0 < depth) →
    moves (depth, offset) (depth, offset + raw.length)

namespace Scanner

variable {file : List UInt8} {nest : Nest} {moves : ℕ × ℕ → ℕ × ℕ → Prop} {depth offset : ℕ}
  (h : Scanner file nest moves)

include h

/-- A plain line is passed over. -/
theorem line {raw : List UInt8} {lines : List (List UInt8)} {kind : Kind}
    (hat : LinesAt file offset (raw :: lines)) (hkind : lineKind raw = kind)
    (hplain : kind = .blank ∨ kind = .command ∨ kind = .breakLine ∨ kind = .continueLine) :
    moves (depth, offset) (depth, offset + raw.length) := by
  have helse : lineKind raw ≠ .elseLine := by
    rw [hkind]
    rcases hplain with rfl | rfl | rfl | rfl <;> decide
  refine h.passes hat ?_ ?_ fun heq => absurd heq helse
  all_goals
    rw [hkind]
    rcases hplain with rfl | rfl | rfl | rfl <;> cases nest <;> decide

/-- A line before a block. -/
theorem before {raw : List UInt8} {lines : List (List UInt8)}
    (hline : moves (depth, offset) (depth, offset + raw.length))
    (hrest : moves (depth, offset + raw.length) (depth, offset + raw.length + lines.flatten.length)) :
    moves (depth, offset) (depth, offset + (raw :: lines).flatten.length) := by
  rw [flatten_cons, length_append, ← Nat.add_assoc]
  exact h.trans hline hrest

section Bracket

variable {raw last : List UInt8} {inner rest : List (List UInt8)} (other : Nest)
  (hat : LinesAt file offset (raw :: (inner ++ last :: rest)))
  (hopening : lineKind raw = other.opening) (hclosing : lineKind last = other.closing)
  (hinner : ∀ depth, other ≠ nest ∨ 0 < depth → moves (depth, offset + raw.length)
    (depth, offset + raw.length + inner.flatten.length))

include hat hopening hclosing hinner

/-- What stands between two brackets is passed over with the brackets. -/
theorem bracket : moves (depth, offset) (depth, offset + raw.length + inner.flatten.length + last.length) := by
  have hlast := hat.tail.right
  by_cases hnest : other = nest
  · subst hnest
    exact h.trans (h.opens hat hopening)
      (h.trans (hinner (depth + 1) (.inr (Nat.succ_pos _))) (h.closes hlast hclosing))
  have hpass {raw : List UInt8} {lines : List (List UInt8)} {offset : ℕ}
      (hat : LinesAt file offset (raw :: lines))
      (hkind : lineKind raw = other.opening ∨ lineKind raw = other.closing) :
      moves (depth, offset) (depth, offset + raw.length) := by
    refine h.passes hat ?_ ?_ ?_
    all_goals rcases hkind with hkind | hkind <;> rw [hkind]
    all_goals cases other <;> cases nest <;> simp_all [Nest.opening, Nest.closing]
  exact h.trans (hpass hat (.inl hopening)) (h.trans (hinner depth (.inl hnest)) (hpass hlast (.inr hclosing)))

/-- A bracketed part before a block. -/
theorem bracketBefore
    (hrest : ∀ offset, LinesAt file offset rest → moves (depth, offset) (depth, offset + rest.flatten.length)) :
    moves (depth, offset) (depth, offset + (raw :: (inner ++ last :: rest)).flatten.length) := by
  have hmove := h.trans (h.bracket other hat hopening hclosing hinner) (hrest _ hat.tail.right.tail)
  simpa [Nat.add_assoc] using hmove

end Bracket

/-- A scan comes out of a block at the depth it went in with. -/
theorem block (b : Block lineKind) (hat : LinesAt file offset b.lines) :
    moves (depth, offset) (depth, offset + b.lines.flatten.length) := by
  induction b generalizing depth offset with
  | nil => exact h.refl _
  | blank raw is rest ih => exact h.before (h.line hat is (.inl rfl)) (ih hat.tail)
  | command raw is rest ih => exact h.before (h.line hat is (.inr (.inl rfl))) (ih hat.tail)
  | leave raw is rest ih => exact h.before (h.line hat is (.inr (.inr (.inl rfl)))) (ih hat.tail)
  | next raw is rest ih => exact h.before (h.line hat is (.inr (.inr (.inr rfl)))) (ih hat.tail)
  | branch raw is body last closes rest ih ih' =>
    exact h.bracketBefore .branch hat is closes (fun _ _ => ih hat.tail.left) fun _ => ih'
  | branchElse raw is body middle turns other last closes rest ih ih' ih'' =>
    have hlines : (Block.branchElse raw is body middle turns other last closes rest).lines =
        raw :: ((body.lines ++ middle :: other.lines) ++ last :: rest.lines) := by
      rw [append_assoc, cons_append]
      rfl
    rw [hlines] at hat ⊢
    refine h.bracketBefore .branch hat is closes (fun depth hinside => ?_) fun _ => ih''
    have hmiddle := hat.tail.left.right
    have hturn : moves (depth, offset + raw.length + body.lines.flatten.length)
        (depth, offset + raw.length + body.lines.flatten.length + middle.length) := by
      refine h.passes hmiddle ?_ ?_ fun _ => hinside.imp_left Ne.symm
      · rw [turns]
        cases nest <;> decide
      · rw [turns]
        cases nest <;> decide
    have hboth := h.trans (ih hat.tail.left.left) (h.trans hturn (ih' hmiddle.tail))
    simpa [Nat.add_assoc] using hboth
  | loop raw is body last closes rest ih ih' =>
    exact h.bracketBefore .loop hat is closes (fun _ _ => ih hat.tail.left) fun _ => ih'
  | count raw is body last closes rest ih ih' =>
    exact h.bracketBefore .count hat is closes (fun _ _ => ih hat.tail.left) fun _ => ih'

end Scanner

/-- Fuel that lasts to the end of the file. -/
def Lasts (file : List UInt8) (fuel offset : ℕ) : Prop := file.length < fuel + offset

/-- The moves of a loop with fuel over depths and offsets. -/
def movesOf {α : Type} (file : List UInt8) (loop : ℕ → ℕ → ℕ → α) (place target : ℕ × ℕ) : Prop :=
  ∀ fuel, Lasts file fuel place.2 → ∃ fuel', Lasts file fuel' target.2 ∧
    loop fuel place.1 place.2 = loop fuel' target.1 target.2

/-- A loop that counts lines round by round. -/
theorem scanner_of_rounds {α : Type} {file : List UInt8} {nest : Nest} {loop : ℕ → ℕ → ℕ → α}
    (hopens : ∀ {fuel depth offset raw lines}, LinesAt file offset (raw :: lines) →
      lineKind raw = nest.opening → loop (fuel + 1) depth offset = loop fuel (depth + 1) (offset + raw.length))
    (hcloses : ∀ {fuel depth offset raw lines}, LinesAt file offset (raw :: lines) →
      lineKind raw = nest.closing → loop (fuel + 1) (depth + 1) offset = loop fuel depth (offset + raw.length))
    (hpasses : ∀ {fuel depth offset raw lines}, LinesAt file offset (raw :: lines) →
      lineKind raw ≠ nest.opening → lineKind raw ≠ nest.closing →
      (lineKind raw = .elseLine → nest ≠ .branch ∨ 0 < depth) →
      loop (fuel + 1) depth offset = loop fuel depth (offset + raw.length)) :
    Scanner file nest (movesOf file loop) := by
  have hround {depth depth' offset : ℕ} {raw : List UInt8} {lines : List (List UInt8)}
      (hat : LinesAt file offset (raw :: lines))
      (hnext : ∀ fuel, loop (fuel + 1) depth offset = loop fuel depth' (offset + raw.length)) :
      movesOf file loop (depth, offset) (depth', offset + raw.length) := by
    intro fuel hfuel
    have hpos := hat.length_pos
    have hinside := hat.lt_length
    unfold Lasts at hfuel ⊢
    obtain _ | fuel := fuel
    · omega
    exact ⟨fuel, by omega, hnext fuel⟩
  refine ⟨fun place fuel hfuel => ⟨fuel, hfuel, rfl⟩, ?_, fun hat hkind => hround hat fun _ => hopens hat hkind,
    fun hat hkind => hround hat fun _ => hcloses hat hkind,
    fun hat hopening hclosing helse => hround hat fun _ => hpasses hat hopening hclosing helse⟩
  intro place middle target hfirst hsecond fuel hfuel
  obtain ⟨fuel', hfuel', heq⟩ := hfirst fuel hfuel
  obtain ⟨fuel'', hfuel'', heq'⟩ := hsecond fuel' hfuel'
  exact ⟨fuel'', hfuel'', heq.trans heq'⟩

/-- A loop that counts lines goes from a line that opens a block to the line that closes it. -/
theorem Scanner.closing {α : Type} {file : List UInt8} {nest : Nest} {loop : ℕ → ℕ → ℕ → α} {fuel offset : ℕ}
    {last : List UInt8} {rest : List (List UInt8)} (h : Scanner file nest (movesOf file loop))
    (body : Block lineKind) (hat : LinesAt file offset (body.lines ++ last :: rest))
    (hfuel : Lasts file fuel offset) :
    ∃ fuel', Lasts file (fuel' + 1) (offset + body.lines.flatten.length) ∧
      loop fuel 0 offset = loop (fuel' + 1) 0 (offset + body.lines.flatten.length) := by
  have hinside := hat.right.lt_length
  obtain ⟨fuel', hfuel', hscan⟩ := h.block body hat.left fuel hfuel
  obtain ⟨fuel', rfl⟩ : ∃ n, fuel' = n + 1 := ⟨fuel' - 1, by unfold Lasts at hfuel'; dsimp only at hfuel'; omega⟩
  exact ⟨fuel', hfuel', hscan⟩

section Find

variable {arguments : Arguments} {vars : Variables} {file : List UInt8} {offset : ℕ}
  {raw last : List UInt8} {rest : List (List UInt8)}
  (hplain : ∀ raw ∈ cutLines file, PlainLine arguments raw)

include hplain

/-- One round of `find_control_end`. -/
theorem controlEndLoop_line {lines : List (List UInt8)} {opening closing : Kind} {fuel depth : ℕ}
    (hat : LinesAt file offset (raw :: lines)) :
    controlEndLoop (getVariable arguments vars) file opening closing (fuel + 1) depth offset =
      if lineKind raw = opening then
        controlEndLoop (getVariable arguments vars) file opening closing fuel (depth + 1) (offset + raw.length)
      else if lineKind raw = closing then
        if depth = 0 then .ok (offset, offset + raw.length)
        else controlEndLoop (getVariable arguments vars) file opening closing fuel (depth - 1)
          (offset + raw.length)
      else controlEndLoop (getVariable arguments vars) file opening closing fuel depth (offset + raw.length) := by
  have hraw := hplain raw hat.mem
  rw [controlEndLoop, if_neg (Nat.not_le.mpr hat.lt_length), hraw.getTokens hat]
  dsimp only
  rw [hraw.tokensKind_eq]

/-- `find_control_end` counts lines. -/
theorem controlEndLoop_scanner {nest : Nest} :
    Scanner file nest (movesOf file
      (controlEndLoop (getVariable arguments vars) file nest.opening nest.closing)) := by
  have hne : nest.closing ≠ nest.opening := by cases nest <;> decide
  refine scanner_of_rounds (fun hat hkind => ?_) (fun hat hkind => ?_) fun hat hopening hclosing _ => ?_
  · rw [controlEndLoop_line hplain hat, if_pos hkind]
  · rw [controlEndLoop_line hplain hat, hkind, if_neg hne, if_pos rfl, if_neg (Nat.succ_ne_zero _)]
    rfl
  · rw [controlEndLoop_line hplain hat, if_neg hopening, if_neg hclosing]

/-- `find_control_end` finds the end of a block. -/
theorem findControlEnd_block {nest : Nest} (body : Block lineKind)
    (hat : LinesAt file offset (raw :: (body.lines ++ last :: rest)))
    (hclosing : lineKind last = nest.closing) :
    findControlEnd (getVariable arguments vars) file offset nest.opening nest.closing =
      .ok (offset + raw.length + body.lines.flatten.length,
        offset + raw.length + body.lines.flatten.length + last.length) := by
  have hne : nest.closing ≠ nest.opening := by cases nest <;> decide
  obtain ⟨fuel, -, hscan⟩ := (@controlEndLoop_scanner arguments vars file hplain nest).closing body
    hat.tail (by unfold Lasts; omega : Lasts file (file.length + 1) _)
  rw [findControlEnd, hat.getLine, (hplain raw hat.mem).lineText_eq]
  refine hscan.trans ?_
  rw [controlEndLoop_line hplain hat.tail.right, hclosing, if_neg hne, if_pos rfl, if_pos rfl]

/-- One round of `find_if_end`. -/
theorem ifEndLoop_line {lines : List (List UInt8)} {fuel depth : ℕ} {afterElse : Option ℕ}
    (hat : LinesAt file offset (raw :: lines)) :
    ifEndLoop (getVariable arguments vars) file (fuel + 1) depth offset afterElse =
      if lineKind raw = .ifLine then
        ifEndLoop (getVariable arguments vars) file fuel (depth + 1) (offset + raw.length) afterElse
      else if lineKind raw = .endifLine then
        if depth = 0 then .ok ⟨offset, offset + raw.length, afterElse⟩
        else ifEndLoop (getVariable arguments vars) file fuel (depth - 1) (offset + raw.length) afterElse
      else if lineKind raw = .elseLine ∧ depth = 0 then
        if afterElse.isSome then .error .missing
        else ifEndLoop (getVariable arguments vars) file fuel depth (offset + raw.length)
          (some (offset + raw.length))
      else ifEndLoop (getVariable arguments vars) file fuel depth (offset + raw.length) afterElse := by
  have hraw := hplain raw hat.mem
  rw [ifEndLoop, if_neg (Nat.not_le.mpr hat.lt_length), hraw.getTokens hat]
  dsimp only
  rw [hraw.tokensKind_eq]

/-- `find_if_end` counts lines. -/
theorem ifEndLoop_scanner (afterElse : Option ℕ) :
    Scanner file .branch (movesOf file fun fuel depth offset =>
      ifEndLoop (getVariable arguments vars) file fuel depth offset afterElse) := by
  refine scanner_of_rounds ?_ ?_ ?_
  · intro fuel depth offset raw lines hat hkind
    rw [ifEndLoop_line hplain hat, hkind]
    rfl
  · intro fuel depth offset raw lines hat hkind
    rw [ifEndLoop_line hplain hat, hkind]
    rfl
  · intro fuel depth offset raw lines hat hopening hclosing helse
    have hinside : ¬ (lineKind raw = .elseLine ∧ depth = 0) := by
      rintro ⟨hkind, hdepth⟩
      rcases helse hkind with hbranch | hpos
      · exact hbranch rfl
      · exact absurd hdepth (Nat.ne_of_gt hpos)
    rw [ifEndLoop_line hplain hat]
    exact (if_neg hopening).trans ((if_neg hclosing).trans (if_neg hinside))

/-- `find_if_end` finds the end of a branch. -/
theorem findIfEnd_branch (body : Block lineKind)
    (hat : LinesAt file offset (raw :: (body.lines ++ last :: rest))) (hclosing : lineKind last = .endifLine) :
    findIfEnd (getVariable arguments vars) file offset = .ok ⟨offset + raw.length + body.lines.flatten.length,
        offset + raw.length + body.lines.flatten.length + last.length, none⟩ := by
  obtain ⟨fuel, -, hscan⟩ := (@ifEndLoop_scanner arguments vars file hplain none).closing body
    hat.tail (by unfold Lasts; omega : Lasts file (file.length + 1) _)
  rw [findIfEnd, hat.getLine, (hplain raw hat.mem).lineText_eq]
  refine hscan.trans ?_
  rw [ifEndLoop_line hplain hat.tail.right, hclosing]
  rfl

/-- `find_if_end` finds the else of a branch and its end. -/
theorem findIfEnd_branchElse {middle : List UInt8} (body other : Block lineKind)
    (hat : LinesAt file offset (raw :: (body.lines ++ middle :: (other.lines ++ last :: rest))))
    (hturns : lineKind middle = .elseLine) (hclosing : lineKind last = .endifLine) :
    let afterElse := offset + raw.length + body.lines.flatten.length + middle.length
    let found := afterElse + other.lines.flatten.length
    findIfEnd (getVariable arguments vars) file offset = .ok ⟨found, found + last.length, some afterElse⟩ := by
  intro afterElse found
  obtain ⟨fuel, hfuel, hscan⟩ := (@ifEndLoop_scanner arguments vars file hplain none).closing body
    hat.tail (by unfold Lasts; omega : Lasts file (file.length + 1) _)
  have hmiddle := hat.tail.right
  have hpos := hmiddle.length_pos
  obtain ⟨fuel', -, hscan'⟩ := (@ifEndLoop_scanner arguments vars file hplain
    (some afterElse)).closing other hmiddle.tail (by unfold Lasts at hfuel ⊢; omega : Lasts file fuel _)
  rw [findIfEnd, hat.getLine, (hplain raw hat.mem).lineText_eq]
  refine hscan.trans ?_
  rw [ifEndLoop_line hplain hmiddle, hturns]
  refine hscan'.trans ?_
  rw [ifEndLoop_line hplain hmiddle.tail.right, hclosing]
  rfl

end Find

end Windoge.Script
