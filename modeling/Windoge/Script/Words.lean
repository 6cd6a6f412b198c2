import Mathlib

/-!
# Words of a script

The part of `dogescript.c` that turns a line into words: the table of variables, the
expansion of `$name` and `${name}`, the splitting of a line at blanks outside quotes, and
decimal numbers. Texts are the characters before the terminating zero.
-/

namespace Windoge.Script

section

open List Option

/-- A text without its terminating zero. -/
abbrev Text := List UInt8

/-- The characters of a literal. -/
def text (literal : String) : Text := literal.toList.map fun c => UInt8.ofNat c.toNat

/-- `DOGESCRIPT_MAX_LINE_SIZE`. -/
def maxLineSize : ℕ := 256

/-- `DOGESCRIPT_MAX_TOKENS`. -/
def maxTokens : ℕ := 16

/-- `DOGESCRIPT_MAX_VARIABLES`. -/
def maxVariables : ℕ := 32

/-- `DOGESCRIPT_VARIABLE_NAME_SIZE`. -/
def variableNameSize : ℕ := 32

/-- `DOGESCRIPT_VARIABLE_VALUE_SIZE`. -/
def variableValueSize : ℕ := 256

/-- `'$'`. -/
def dollar : UInt8 := 36

/-- `is_space`. -/
def isSpace (character : UInt8) : Bool := character = 32 || character = 9 || character = 13

/-- A decimal digit. -/
def isDigit (character : UInt8) : Bool := 48 ≤ character && character ≤ 57

/-- A character a variable name can start with. -/
def isNameStart (character : UInt8) : Bool :=
  (97 ≤ character && character ≤ 122) || (65 ≤ character && character ≤ 90) || character = 95

/-- A character a variable name can go on with. -/
def isNameCharacter (character : UInt8) : Bool := isDigit character || isNameStart character

/-- A record of the table `variables`. -/
structure Variable where
  name : Text
  value : Text
  deriving DecidableEq

/-- `variable_name_valid`. -/
def variableNameValid : Text → Bool
  | [] => false
  | character :: name => isNameStart character && name.all isNameCharacter

/-- The table `variables`: at most 32 different names, with values that fit their buffers. -/
structure Variables where
  list : List Variable
  count : list.length ≤ maxVariables
  names : (list.map Variable.name).Nodup
  fits : ∀ v ∈ list, variableNameValid v.name = true ∧ v.name.length < variableNameSize ∧
    v.value.length < variableValueSize

/-- The empty table. -/
def Variables.empty : Variables := ⟨[], Nat.zero_le _, List.nodup_nil, fun _ hv => absurd hv List.not_mem_nil⟩

/-- What the script was started with: its path, and the arguments behind it. -/
structure Arguments where
  scriptPath : Text
  argc : ℕ
  argv : ℕ → Option Text

/-- `str_u64toa`. -/
def decimal (n : ℕ) : Text := (Nat.toDigits 10 n).map fun c => UInt8.ofNat c.toNat

/-- The loop of `get_variable` that reads the number of an argument. -/
def argumentIndex (argc : ℕ) : Text → ℕ → ℕ
  | [], index => index
  | character :: name, index =>
    if ¬ isDigit character then 0
    else
      let index := index * 10 + (character - 48).toNat
      if argc < index then index else argumentIndex argc name index

/-- `get_variable`. -/
def getVariable (arguments : Arguments) (vars : Variables) (name : Text) : Text :=
  if name = text "0" then arguments.scriptPath
  else if name = text "argc" then decimal (arguments.argc - 1)
  else if (name.head?.map fun c => 49 ≤ c && c ≤ 57) = some true then
    let index := argumentIndex arguments.argc name 0
    if 0 < index ∧ index < arguments.argc then (arguments.argv index).getD [] else []
  else ((vars.list.find? fun v => v.name = name).map Variable.value).getD []

/-- The loop of `expand_text`; every round consumes a character. -/
def expandLoop (lookup : Text → Text) (capacity : ℕ) : ℕ → Text → Text → Option Text
  | 0, _, _ => none
  | _ + 1, [], destination => some destination
  | fuel + 1, character :: source, destination =>
    if character ≠ dollar then
      if capacity ≤ destination.length + 1 then none
      else expandLoop lookup capacity fuel source (destination ++ [character])
    else
      let substitute (name source : Text) :=
        if variableNameSize ≤ name.length then none
        else if capacity - destination.length ≤ (lookup name).length then none
        else expandLoop lookup capacity fuel source (destination ++ lookup name)
      if source.head? = some 123 then
        match (source.drop 1).dropWhile (· ≠ 125) with
        | [] => none
        | _ :: rest => substitute ((source.drop 1).takeWhile (· ≠ 125)) rest
      else if source.head?.any isNameCharacter then
        substitute (source.takeWhile isNameCharacter) (source.dropWhile isNameCharacter)
      else if capacity ≤ destination.length + 1 then none
      else expandLoop lookup capacity fuel source (destination ++ [dollar])

/-- `expand_text`. -/
def expandText (lookup : Text → Text) (source : Text) (capacity : ℕ) : Option Text :=
  expandLoop lookup capacity (source.length + 1) source []

/-- The inner loop of `tokenize_line`: the token, the write index behind its terminator and the rest
of the line. A quote of 0 means outside quotes. -/
def tokenLoop (storageSize : ℕ) : Text → UInt8 → ℕ → Text → Option (Text × ℕ × Text)
  | [], quote, writeIndex, token =>
    if quote ≠ 0 ∨ storageSize ≤ writeIndex then none else some (token, writeIndex + 1, [])
  | character :: line, quote, writeIndex, token =>
    if quote = 0 ∧ isSpace character then
      if storageSize ≤ writeIndex then none else some (token, writeIndex + 1, character :: line)
    else if character = 92 ∧ quote ≠ 39 then
      match line with
      | [] => none
      | escaped :: line =>
        if storageSize ≤ writeIndex + 1 then none
        else tokenLoop storageSize line quote (writeIndex + 1) (token ++ [escaped])
    else if quote ≠ 0 ∧ character = quote then tokenLoop storageSize line 0 writeIndex token
    else if quote = 0 ∧ (character = 39 ∨ character = 34) then
      tokenLoop storageSize line character writeIndex token
    else if storageSize ≤ writeIndex + 1 then none
    else tokenLoop storageSize line quote (writeIndex + 1) (token ++ [character])

/-- The first loop of `tokenize_line`; every round consumes a character. -/
def tokensLoop : ℕ → Text → ℕ → List Text → Option (List Text)
  | 0, _, _, _ => none
  | fuel + 1, line, writeIndex, tokens =>
    match line.dropWhile isSpace with
    | [] => some tokens
    | character :: line =>
      if tokens.length = maxTokens ∨ maxLineSize ≤ writeIndex then none
      else
        match tokenLoop maxLineSize (character :: line) 0 writeIndex [] with
        | none => none
        | some (token, writeIndex, line) => tokensLoop fuel line writeIndex (tokens ++ [token])

/-- The tokens of a line before variables are expanded. -/
def rawTokens (line : Text) : Option (List Text) := tokensLoop (line.length + 1) line 0 []

/-- `tokenize_line`. -/
def tokenizeLine (lookup : Text → Text) (line : Text) : Option (List Text) :=
  (rawTokens line).bind fun tokens => tokens.mapM fun token => expandText lookup token variableValueSize

/-- The digits of `parse_integer`. -/
def parseDigits (limit : ℕ) : Text → ℕ → Option ℕ
  | [], number => some number
  | character :: digits, number =>
    if ¬ isDigit character then none
    else
      let digit := (character - 48).toNat
      if (limit - digit) / 10 < number then none else parseDigits limit digits (number * 10 + digit)

/-- `parse_integer`. -/
def parseInteger (source : Text) : Option ℤ :=
  let negative := source.head? = some 45
  let digits := if source.head? = some 45 ∨ source.head? = some 43 then source.drop 1 else source
  if digits = [] then none
  else
    (parseDigits (if negative then 2 ^ 63 else 2 ^ 63 - 1) digits 0).map fun number =>
      if negative then -(number : ℤ) else number

/-- A text names a variable: a dollar sign stands before a brace or a name. -/
def hasVariable : Text → Bool
  | [] => false
  | character :: source =>
    (character = dollar && (source.head? = some 123 || source.head?.any isNameCharacter)) ||
      hasVariable source

variable {lookup : Text → Text} {source : Text}

/-- A character of a text that names no variable is copied. -/
theorem expandLoop_copies {capacity fuel : ℕ} {character : UInt8} {destination : Text}
    (hliteral : hasVariable (character :: source) = false) :
    expandLoop lookup capacity (fuel + 1) (character :: source) destination =
      if capacity ≤ destination.length + 1 then none
      else expandLoop lookup capacity fuel source (destination ++ [character]) := by
  obtain ⟨hcharacter, -⟩ := Bool.or_eq_false_iff.mp hliteral
  by_cases hdollar : character = dollar
  · rw [decide_eq_true hdollar, Bool.true_and] at hcharacter
    obtain ⟨hbrace, hname⟩ := Bool.or_eq_false_iff.mp hcharacter
    rw [expandLoop, if_neg fun hne => hne hdollar]
    rw [if_neg (of_decide_eq_false hbrace), if_neg (Bool.not_eq_true _ ▸ hname), hdollar]
  · rw [expandLoop, if_pos hdollar]

/-- A text that names no variable expands to itself, or is too long. -/
theorem expandLoop_literal {capacity fuel : ℕ} {destination : Text} (hliteral : hasVariable source = false)
    (hfuel : source.length < fuel) (hroom : destination.length < capacity) :
    expandLoop lookup capacity fuel source destination =
      if destination.length + source.length < capacity then some (destination ++ source) else none := by
  induction source generalizing fuel destination with
  | nil =>
    obtain _ | fuel := fuel
    · omega
    rw [expandLoop, append_nil, length_nil, Nat.add_zero, if_pos hroom]
  | cons character source ih =>
    obtain _ | fuel := fuel
    · omega
    rw [expandLoop_copies hliteral, length_cons]
    rw [length_cons] at hfuel
    by_cases hfull : capacity ≤ destination.length + 1
    · rw [if_pos hfull, if_neg (by omega)]
    · rw [if_neg hfull, ih (Bool.or_eq_false_iff.mp hliteral).2 (by omega)
        (by rw [length_append, length_singleton]; omega), append_assoc,
        singleton_append, length_append, length_singleton, Nat.add_assoc, Nat.add_comm 1]

theorem expandText_literal (hliteral : hasVariable source = false) :
    expandText lookup source variableValueSize =
      if source.length < variableValueSize then some source else none := by
  rw [expandText, expandLoop_literal hliteral (Nat.lt_succ_self _) (by decide)]
  rw [length_nil, Nat.zero_add, nil_append]

/-- The first token of a line is its first raw token, if that names no variable. -/
theorem tokenizeLine_head {line token : Text} {raw tokens : List Text}
    (hraw : rawTokens line = some (token :: raw)) (hliteral : hasVariable token = false)
    (h : tokenizeLine lookup line = some tokens) : ∃ rest, tokens = token :: rest := by
  rw [tokenizeLine, hraw, bind_some, mapM_cons] at h
  obtain ⟨first, hfirst, h⟩ := bind_eq_some_iff.mp h
  obtain ⟨rest, -, hrest⟩ := bind_eq_some_iff.mp h
  rw [expandText_literal hliteral] at hfirst
  obtain ⟨-, hsame⟩ := ite_none_right_eq_some.mp hfirst
  cases hsame
  exact ⟨rest, (some.inj hrest).symm⟩

end

/-!
## Assignments to the variables of a script

In the table of variables a value is overwritten, a new name is put behind the others, and a name is
removed by moving those behind it down. A lookup finds the path of the script, the number of its
arguments and the arguments themselves before it comes to the table, so a name with such a meaning does
not read as what was assigned to it.
-/

open List Variables

/-- A name that the table can hold with a value. -/
def Assignable (name value : Text) : Prop :=
  variableNameValid name = true ∧ value.length < variableValueSize

instance (name value : Text) : Decidable (Assignable name value) := inferInstanceAs (Decidable (_ ∧ _))

/-- The records with the value of a name overwritten; no two of them have the same name. -/
def Variables.overwrite (vars : Variables) {name value : Text} (h : Assignable name value) : Variables where
  list := vars.list.map fun v => if v.name = name then ⟨name, value⟩ else v
  count := by rw [length_map]; exact vars.count
  names := by
    have hsame : (vars.list.map fun v => if v.name = name then ⟨name, value⟩ else v).map Variable.name =
        vars.list.map Variable.name := by
      rw [map_map]
      refine map_congr_left fun v _ => ?_
      rw [Function.comp_apply]
      split_ifs with hv
      · exact hv.symm
      · rfl
    exact hsame ▸ vars.names
  fits := by
    intro v hv
    obtain ⟨old, hold, rfl⟩ := mem_map.mp hv
    have hfits := vars.fits old hold
    split_ifs with hname
    · exact ⟨h.1, hname ▸ hfits.2.1, h.2⟩
    · exact hfits

/-- The records with another one behind them. -/
def Variables.push (vars : Variables) {name value : Text} (h : Assignable name value)
    (hnew : name ∉ vars.list.map Variable.name)
    (hroom : vars.list.length < maxVariables ∧ name.length < variableNameSize) : Variables where
  list := vars.list ++ [⟨name, value⟩]
  count := by rw [length_append]; exact hroom.1
  names := by
    rw [map_append, map_singleton, ← concat_eq_append]
    exact vars.names.concat hnew
  fits := by
    intro v hv
    rcases mem_append.mp hv with hold | hlast
    · exact vars.fits v hold
    · rw [mem_singleton.mp hlast]
      exact ⟨h.1, hroom.2, h.2⟩

/-- `set_variable`, with whether it returns zero. -/
def setVariable (name value : Text) (vars : Variables) : Bool × Variables :=
  if h : Assignable name value then
    if hold : name ∈ vars.list.map Variable.name then (true, vars.overwrite h)
    else if hroom : vars.list.length < maxVariables ∧ name.length < variableNameSize then
      (true, vars.push h hold hroom)
    else (false, vars)
  else (false, vars)

/-- `unset_variable`, which always returns zero. -/
def unsetVariable (name : Text) (vars : Variables) : Variables where
  list := vars.list.filter fun v => v.name ≠ name
  count := Nat.le_trans (length_filter_le _ _) vars.count
  names := vars.names.sublist (filter_sublist.map _)
  fits v hv := vars.fits v (mem_filter.mp hv).1

/-- What a name stands for before the table is searched. -/
def specialValue (arguments : Arguments) (name : Text) : Option Text :=
  if name = text "0" then some arguments.scriptPath
  else if name = text "argc" then some (decimal (arguments.argc - 1))
  else if (name.head?.map fun c => 49 ≤ c && c ≤ 57) = some true then
    some (let index := argumentIndex arguments.argc name 0
      if 0 < index ∧ index < arguments.argc then (arguments.argv index).getD [] else [])
  else none

/-- The value that records have for a name, or an empty one. -/
def lookupIn (list : List Variable) (name : Text) : Text :=
  ((list.find? fun v => v.name = name).map Variable.value).getD []

/-- A change of the table. -/
inductive VariableOp
  | set (name value : Text)
  | unset (name : Text)

namespace VariableOp

/-- The name that is assigned to. -/
def name : VariableOp → Text
  | .set name _ | .unset name => name

/-- The value that the name is to have. -/
def value : VariableOp → Text
  | .set _ value => value
  | .unset _ => []

/-- The change, with whether it returns zero. -/
def apply : VariableOp → Variables → Bool × Variables
  | .set name value, vars => setVariable name value vars
  | .unset name, vars => (true, unsetVariable name vars)

/-- The table behaves as a map: a change that succeeds gives its name the value, and every other
lookup stays as it was, as all do when it fails. -/
def Lawful (op : VariableOp) (arguments : Arguments) (vars : Variables) : Prop :=
  ∀ other, getVariable arguments (op.apply vars).2 other =
    if (op.apply vars).1 = true ∧ other = op.name then op.value else getVariable arguments vars other

end VariableOp

section Lookup

variable {list : List Variable} {name value other : Text}

theorem getVariable_eq (arguments : Arguments) (vars : Variables) (name : Text) :
    getVariable arguments vars name = (specialValue arguments name).getD (lookupIn vars.list name) := by
  unfold getVariable specialValue
  split_ifs <;> rfl

theorem lookupIn_overwrite :
    lookupIn (list.map fun v => if v.name = name then ⟨name, value⟩ else v) other =
      if other = name ∧ name ∈ list.map Variable.name then value else lookupIn list other := by
  induction list with
  | nil => simp [lookupIn]
  | cons v list ih =>
    simp only [lookupIn, map_cons, find?_cons] at *
    grind

theorem lookupIn_append (hnew : name ∉ list.map Variable.name) :
    lookupIn (list ++ [⟨name, value⟩]) other = if other = name then value else lookupIn list other := by
  induction list with
  | nil => grind [lookupIn]
  | cons v list ih =>
    simp only [lookupIn, cons_append, find?_cons] at *
    grind

theorem lookupIn_filter : lookupIn (list.filter fun v => v.name ≠ name) other =
    if other = name then [] else lookupIn list other := by
  induction list with
  | nil => simp [lookupIn]
  | cons v list ih =>
    simp only [lookupIn, filter_cons, find?_cons] at *
    grind

end Lookup

theorem lookupIn_apply (op : VariableOp) (vars : Variables) (other : Text) :
    lookupIn (op.apply vars).2.list other =
      if (op.apply vars).1 = true ∧ other = op.name then op.value else lookupIn vars.list other := by
  cases op with
  | unset name =>
    rw [VariableOp.apply, unsetVariable, lookupIn_filter]
    simp [VariableOp.name, VariableOp.value]
  | set name value =>
    rw [VariableOp.apply, setVariable, VariableOp.name, VariableOp.value]
    by_cases h : Assignable name value
    · rw [dif_pos h]
      by_cases hold : name ∈ vars.list.map Variable.name
      · rw [dif_pos hold, overwrite, lookupIn_overwrite]
        simp [hold]
      rw [dif_neg hold]
      by_cases hroom : vars.list.length < maxVariables ∧ name.length < variableNameSize
      · rw [dif_pos hroom, push, lookupIn_append hold]
        simp
      · simp [dif_neg hroom]
    · simp [dif_neg h]

/-- A change behaves as on a map iff it fails, or the lookup gives the name no other meaning than the
value. -/
theorem variables_lawful_iff (op : VariableOp) (arguments : Arguments) (vars : Variables) :
    op.Lawful arguments vars ↔
      ((op.apply vars).1 = true → ∀ special ∈ specialValue arguments op.name, special = op.value) := by
  unfold VariableOp.Lawful
  simp only [getVariable_eq, lookupIn_apply]
  constructor
  · intro h hdone special hspecial
    have hname := h op.name
    rwa [hspecial, if_pos ⟨hdone, rfl⟩, if_pos ⟨hdone, rfl⟩] at hname
  · intro h other
    by_cases hother : (op.apply vars).1 = true ∧ other = op.name
    · rw [if_pos hother, if_pos hother, hother.2]
      cases hspecial : specialValue arguments op.name with
      | none => rfl
      | some special => exact h hother.1 special hspecial
    · rw [if_neg hother, if_neg hother]

/-- The number of arguments reads as zero although `5` was assigned to its name. -/
theorem assigned_argc_reads_zero :
    (setVariable (text "argc") (text "5") Variables.empty).1 = true ∧
      getVariable ⟨[], 1, fun _ => none⟩ (setVariable (text "argc") (text "5") Variables.empty).2 (text "argc") =
        text "0" ∧
      ¬ (VariableOp.set (text "argc") (text "5")).Lawful ⟨[], 1, fun _ => none⟩ Variables.empty := by
  refine ⟨by decide, by decide, fun h => ?_⟩
  exact absurd (h (text "argc")) (by decide)

end Windoge.Script
