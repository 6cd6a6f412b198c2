import Windoge.Exfat.Volume
import Windoge.Script.Words
import Windoge.Exfat.Follow

/-!
# Reading path strings

The functions of the shells, of the access check and of the file system layer that take a path
string apart without looking at a volume: `canonicalize_path` of `bash.c`,
`dogeshell_resolve_path` of `dogeshell.c`, `system_can_access_path` of `hfs.c`, and
`fs_sanitize_path` and `fs_split_path` of `vfs.c`. The shells fold `.` and `..` in the string;
the file system layer only cuts off the last component and leaves the rest to the driver.
-/

namespace Windoge.Vfs

open Exfat (slash dot dotDot parentPath extendPath Stop)
open Script (Text text)

/-- `':'`. -/
def colon : UInt8 := 58

/-- `'~'`. -/
def tilde : UInt8 := 126

/-- `' '`. -/
def spaceCharacter : UInt8 := 32

/-- A letter from `a` to `z`. -/
def isLower (c : UInt8) : Bool := 97 ≤ c && c ≤ 122

/-- A letter from `A` to `Z`. -/
def isUpper (c : UInt8) : Bool := 65 ≤ c && c ≤ 90

/-- A letter in either case. -/
def isLetter (c : UInt8) : Bool := isUpper c || isLower c

/-- A letter in upper case. -/
def upperCase (c : UInt8) : UInt8 := if isLower c then c - 97 + 65 else c

/-- A letter the parser accepts and a colon in front of a path, and what follows them. -/
def splitDrive (accepts : UInt8 → Bool) : Text → Option (UInt8 × Text)
  | letter :: mark :: rest => if accepts letter ∧ mark = colon then some (letter, rest) else none
  | _ => none

/-- `append_text` and `dogeshell_append`: fails unless the text and its zero fit the buffer. -/
def appendText (capacity : ℕ) (first second : Text) : Option Text :=
  if first.length + second.length < capacity then some (first ++ second) else none

/-- The components of a path between slashes, without empty ones. -/
def segments (path : Text) : List Text := (path.splitOn slash).filter (· ≠ [])

/-- One component of the loop that folds a path into the output buffer. -/
def canonicalStep (capacity : ℕ) (output segment : Text) : Option Text :=
  if segment = dot then some output
  else if segment = dotDot then some (parentPath output)
  else if capacity ≤ (extendPath output segment).length then none
  else some (extendPath output segment)

/-- The loop that folds a path into the output buffer. -/
def canonicalLoop (capacity : ℕ) : Text → List Text → Option Text
  | output, [] => some output
  | output, segment :: rest => do
    let output ← canonicalStep capacity output segment
    canonicalLoop capacity output rest

/-- The end of both functions: fold the combined path and put the drive in front of it. -/
def canonicalForm (capacity : ℕ) (letter : UInt8) (combined : Text) : Option Text := do
  let output ← canonicalLoop capacity [slash] (segments combined)
  if capacity < output.length + 3 then none else some (letter :: colon :: output)

/-- The path behind a drive prefix, made absolute. -/
def combineDrive (rest : Text) : Option Text := do
  let start ← if rest.head? = some slash then some [] else appendText 512 [] [slash]
  appendText 512 start rest

/-- The working directory, with a slash behind it, in front of a relative path. -/
def combineRelative (directory : Option Text) (path : Text) : Option Text := do
  let start ← directory
  let start ← appendText 512 [] start
  let start ← if start ≠ [] ∧ start.getLast? ≠ some slash then appendText 512 start [slash]
    else some start
  appendText 512 start path

/-- The drive letter of the working directory and the directory without it. -/
def splitDirectory (accepts : UInt8 → Bool) (directory : Option Text) : UInt8 × Option Text :=
  match directory.bind (splitDrive accepts) with
  | some (letter, rest) => if rest.head? = some slash then (letter, some rest) else (67, directory)
  | none => (67, directory)

/-- The first half of `canonicalize_path`: the drive and the path to fold. -/
def combinePath (directory : Option Text) (path : Text) : Option (UInt8 × Text) :=
  match splitDrive isLetter path with
  | some (letter, rest) =>
    if upperCase letter ≠ 67 ∧ upperCase letter ≠ 68 then none
    else (combineDrive rest).map fun combined => (upperCase letter, combined)
  | none =>
    let (letter, directory) := splitDirectory isLetter directory
    let combined := if path.head? = some slash then appendText 512 [] path
      else combineRelative directory path
    combined.map fun combined => (upperCase letter, combined)

/-- `canonicalize_path` with the working directory that `fs_dirname` returns. -/
def canonicalizePath (directory : Option Text) (capacity : ℕ) (path : Text) : Option Text :=
  if path = [] ∨ capacity < 2 then none
  else (combinePath directory path).bind fun (letter, combined) => canonicalForm capacity letter combined

/-- `dogeshell_build_home`. -/
def dogeshellBuildHome (capacity : ℕ) (user : Text) : Option Text := do
  let path ← appendText capacity [] (text "/users/")
  appendText capacity path user

/-- Whether a path starts with the home directory's `~`. -/
def startsAtHome (path : Text) : Bool :=
  path.head? = some tilde && ((path.drop 1).head? = none || (path.drop 1).head? = some slash)

/-- The first half of `dogeshell_resolve_path`: the drive and the path to fold. -/
def dogeshellCombine (directory : Option Text) (user path : Text) : Option (UInt8 × Text) :=
  match splitDrive isLower path with
  | some (letter, rest) =>
    if letter ≠ 99 ∧ letter ≠ 100 then none
    else (combineDrive rest).map fun combined => (letter, combined)
  | none =>
    let (letter, directory) := splitDirectory isLower directory
    let combined :=
      if startsAtHome path then
        (dogeshellBuildHome 512 user).bind fun home => appendText 512 home (path.drop 1)
      else if path.head? = some slash then appendText 512 [] path
      else combineRelative directory path
    combined.map fun combined => (letter, combined)

/-- `dogeshell_resolve_path` with the working directory that `fs_dirname` returns. -/
def dogeshellResolvePath (directory : Option Text) (user : Text) (capacity : ℕ) (path : Text) :
    Option Text :=
  if path = [] ∨ capacity < 2 then none
  else (dogeshellCombine directory user path).bind fun (letter, combined) =>
    canonicalForm capacity letter combined

/-- The path as `system_can_access_path` reads it: without drive and leading slashes. -/
def accessPath (path : Text) : Text :=
  (match splitDrive isLetter path with
    | some (_, rest) => rest
    | none => path).dropWhile (· = slash)

/-- The folder below `/users` that a path leads to, cut at 63 characters. -/
def userFolder (path : Text) : Text := ((path.drop 6).takeWhile (· ≠ slash)).take 63

/-- `system_can_access_path`. -/
def systemCanAccessPath (username targetPath : Text) : Bool :=
  let path := accessPath targetPath
  if username = text "admin" then true
  else if (text "system").isPrefixOf path ∧
      ((path.drop 6).head? = some slash ∨ (path.drop 6).head? = none) then false
  else if (text "users/").isPrefixOf path then
    userFolder path = [] || userFolder path = username
  else true

/-- A blank or a line end. -/
def isTrailing (c : UInt8) : Bool := c = 10 || c = 13 || c = spaceCharacter

/-- The slashes at the end of a path, all but a leading one. -/
def stripSlashes : Text → Text
  | [] => []
  | first :: rest => first :: rest.rdropWhile (· = slash)

/-- `fs_sanitize_path` on a path that fits its buffer. -/
def fsSanitizePath (path : Text) : Text :=
  stripSlashes ((path.dropWhile (· = spaceCharacter)).rdropWhile isTrailing)

/-- The parent and the last component of a cleaned path. -/
def cutLast (clean : Text) : Text × Text :=
  if clean = [slash] then ([slash], dot)
  else if slash ∈ clean then
    let kept := clean.rdropWhile (· ≠ slash)
    (if kept.length = 1 then [slash] else kept.dropLast, clean.drop kept.length)
  else ([], clean)

/-- `fs_split_path`; a path of 255 characters does not fit the buffer of `fs_sanitize_path`,
which then stays uninitialised. -/
def fsSplitPath (path : Text) : Except Stop (Text × Text) :=
  if path = [] then .error (.code (-1))
  else if 255 ≤ (path.dropWhile (· = spaceCharacter)).length then .error .undefined
  else if fsSanitizePath path = [] then .error (.code (-1))
  else .ok (cutLast (fsSanitizePath path))

/-!
## Splitting a path into parent and leaf

`fs_split_path` cleans its path in a local buffer of 256 characters. The copy into that buffer takes
at most 254 characters and otherwise leaves the buffer as it is; the result of the copy is ignored.
Here the old contents of the two buffers are parameters. For shorter paths they do not matter, and
parent and leaf give the cleaned path back.
-/

open List
open Exfat (slash dot Stop)

/-- What the stack held where the local buffer and the caller's buffer for the leaf are. -/
structure StaleBuffers where
  clean : Text
  leaf : Text

/-- The string in a buffer after `str_strncpy(out, in, 255)` and `out[255] = 0`: a source that does
not fit is not copied. -/
def boundedCopy (stale source : Text) : Text :=
  if source.length < 255 then source else (stale.take 255).takeWhile (· ≠ 0)

/-- `fs_sanitize_path` with a buffer of 256 characters. -/
def sanitizeInto (stale path : Text) : Text :=
  stripSlashes ((boundedCopy stale (path.dropWhile (· = spaceCharacter))).rdropWhile isTrailing)

/-- `fs_split_path` with what the buffers held before: parent and leaf, or nothing if it returns -1. -/
def splitInto (stale : StaleBuffers) (path : Text) : Option (Text × Text) :=
  if path = [] then none
  else
    let clean := sanitizeInto stale.clean path
    if clean = [] then none
    else if clean = [slash] then some (cutLast clean)
    else some ((cutLast clean).1, boundedCopy stale.leaf (cutLast clean).2)

/-- Parent, one slash and leaf give a path with a slash back; the leaf alone gives another one back. -/
def GivesBack (clean parent leaf : Text) : Prop :=
  if slash ∈ clean then parent ++ slash :: leaf = clean else leaf = clean

/-- The last slash of a path is its first character. -/
def AtRoot (clean : Text) : Prop := clean.head? = some slash ∧ slash ∉ clean.drop 1

/-- What is expected of splitting a path: the outputs depend on the path only and give the cleaned path
back. -/
def SplitsWell (path : Text) : Prop :=
  (∀ stale stale', splitInto stale path = splitInto stale' path) ∧
    ∀ stale parent leaf, splitInto stale path = some (parent, leaf) →
      GivesBack (fsSanitizePath path) parent leaf

variable {path clean : Text} {stale : StaleBuffers}

/-- A path is the part up to its last slash and the part behind it. -/
theorem cut_at_last_slash (hslash : slash ∈ clean) :
    ∃ start leaf, clean = start ++ slash :: leaf ∧ slash ∉ leaf := by
  induction clean using reverseRecOn with
  | nil => cases hslash
  | append_singleton front c ih =>
    by_cases hc : c = slash
    · exact ⟨front, [], by rw [hc], not_mem_nil⟩
    have hfront : slash ∈ front := by
      rcases mem_append.mp hslash with h | h
      · exact h
      · exact absurd (mem_singleton.mp h).symm hc
    obtain ⟨start, leaf, rfl, hleaf⟩ := ih hfront
    refine ⟨start, leaf ++ [c], by simp, ?_⟩
    rw [mem_append, mem_singleton, not_or]
    exact ⟨hleaf, fun h => hc h.symm⟩

/-- The parent and the leaf of a path that is cut at its last slash. -/
theorem cutLast_eq {start leaf : Text} (hleaf : slash ∉ leaf) (hroot : start ++ slash :: leaf ≠ [slash]) :
    cutLast (start ++ slash :: leaf) = (if start = [] then [slash] else start, leaf) := by
  have hkept := Exfat.rdropWhile_slash start hleaf
  unfold cutLast
  rw [if_neg hroot, if_pos (by simp), hkept]
  have hdrop : (start ++ slash :: leaf).drop (start ++ [slash]).length = leaf := by
    rw [append_cons start slash leaf, drop_left]
  have hone : (start ++ [slash]).length = 1 ↔ start = [] := by
    rw [length_append, length_singleton, Nat.add_eq_right, length_eq_zero_iff]
  dsimp only
  rw [hdrop, dropLast_concat]
  simp only [hone]

/-- Parent and leaf give the path back unless its last slash is its first character. -/
theorem cutLast_givesBack_iff : GivesBack clean (cutLast clean).1 (cutLast clean).2 ↔ ¬ AtRoot clean := by
  by_cases hslash : slash ∈ clean
  · by_cases hroot : clean = [slash]
    · rw [hroot]
      refine iff_of_false ?_ (not_not_intro ⟨rfl, not_mem_nil⟩)
      rw [GivesBack, if_pos mem_cons_self]
      decide
    obtain ⟨start, leaf, rfl, hleaf⟩ := cut_at_last_slash hslash
    rw [GivesBack, if_pos hslash, cutLast_eq hleaf hroot]
    cases start with
    | nil =>
      refine iff_of_false ?_ (not_not_intro ⟨rfl, hleaf⟩)
      rw [if_pos rfl]
      exact fun h => absurd (congrArg length h) (by simp)
    | cons c start =>
      refine iff_of_true (by rw [if_neg (cons_ne_nil _ _)]) fun hat => hat.2 ?_
      simp
  · rw [GivesBack, if_neg hslash]
    have hne : clean ≠ [slash] := fun h => hslash (h ▸ mem_cons_self)
    refine iff_of_true ?_ fun hat => hslash (mem_of_mem_head? hat.1)
    rw [cutLast, if_neg hne, if_neg hslash]

theorem length_cutLast_le (hne : clean ≠ []) : (cutLast clean).2.length ≤ clean.length := by
  unfold cutLast
  split_ifs
  · exact length_pos_of_ne_nil hne
  · dsimp only
    rw [length_drop]
    exact tsub_le_self
  · exact le_rfl

theorem length_fsSanitizePath_le (path : Text) :
    (fsSanitizePath path).length ≤ (path.dropWhile (· = spaceCharacter)).length := by
  have hstrip (path : Text) : (stripSlashes path).length ≤ path.length := by
    cases path with
    | nil => exact le_rfl
    | cons c rest => exact Nat.succ_le_succ <| IsPrefix.length_le <| rdropWhile_prefix _ _
  exact (hstrip _).trans <| IsPrefix.length_le <| rdropWhile_prefix _ _

section Short

variable (hshort : (path.dropWhile (· = spaceCharacter)).length < 255)
include hshort

theorem sanitizeInto_eq (stale : Text) : sanitizeInto stale path = fsSanitizePath path := by
  rw [sanitizeInto, boundedCopy, if_pos hshort, fsSanitizePath]

/-- A path that fits is split as if the buffers were as large as needed. -/
theorem splitInto_eq (stale : StaleBuffers) : splitInto stale path =
    if path = [] ∨ fsSanitizePath path = [] then none else some (cutLast (fsSanitizePath path)) := by
  unfold splitInto
  rw [sanitizeInto_eq hshort]
  by_cases hpath : path = []
  · rw [if_pos hpath, if_pos (Or.inl hpath)]
  by_cases hclean : fsSanitizePath path = []
  · rw [if_neg hpath, if_pos hclean, if_pos (Or.inr hclean)]
  have hleaf : (cutLast (fsSanitizePath path)).2.length < 255 :=
    ((length_cutLast_le hclean).trans (length_fsSanitizePath_le path)).trans_lt hshort
  rw [if_neg hpath, if_neg hclean, boundedCopy, if_pos hleaf, Prod.mk.eta, ite_self,
    if_neg fun h => h.elim hpath hclean]

end Short

/-- A path that does not fit is split as the stack happens to be. -/
theorem splitInto_stale (hlong : 255 ≤ (path.dropWhile (· = spaceCharacter)).length) (c : UInt8)
    (hc : c ≠ 0 ∧ c ≠ slash ∧ isTrailing c = false) : splitInto ⟨[c], []⟩ path = some ([], [c]) := by
  have hne : path ≠ [] := fun h => by
    rw [h] at hlong
    contradiction
  have hclean : sanitizeInto [c] path = [c] := by
    rw [sanitizeInto, boundedCopy, if_neg (not_lt_of_ge hlong)]
    simp [hc.1, hc.2.2, stripSlashes, rdropWhile_singleton]
  rw [splitInto, if_neg hne, hclean]
  simp [hc.2.1, cutLast, boundedCopy, Ne.symm hc.2.1]

/-- Splitting a path is determined by the path and can be undone exactly if the path without leading
blanks is shorter than 255 characters and its last slash, once cleaned, is not its first character. -/
theorem splitsWell_iff (path : Text) : SplitsWell path ↔
    (path.dropWhile (· = spaceCharacter)).length < 255 ∧ ¬ AtRoot (fsSanitizePath path) := by
  constructor
  · rintro ⟨hsame, hback⟩
    have hshort : (path.dropWhile (· = spaceCharacter)).length < 255 := by
      by_contra hlong
      have houtputs := hsame ⟨[97], []⟩ ⟨[98], []⟩
      rw [splitInto_stale (le_of_not_gt hlong) 97 (by decide),
        splitInto_stale (le_of_not_gt hlong) 98 (by decide)] at houtputs
      cases houtputs
    refine ⟨hshort, fun hroot => ?_⟩
    have hclean : fsSanitizePath path ≠ [] := fun h => by
      rw [h] at hroot
      cases hroot.1
    have hpath : path ≠ [] := fun h => hclean (by rw [h]; rfl)
    refine cutLast_givesBack_iff.mp (hback ⟨[], []⟩ _ _ ?_) hroot
    rw [splitInto_eq hshort, if_neg fun h => h.elim hpath hclean]
  · rintro ⟨hshort, hroot⟩
    refine ⟨fun stale stale' => by rw [splitInto_eq hshort, splitInto_eq hshort], fun stale parent leaf h => ?_⟩
    rw [splitInto_eq hshort] at h
    split_ifs at h
    obtain ⟨rfl, rfl⟩ := Prod.mk.inj (Option.some.inj h)
    exact cutLast_givesBack_iff.mpr hroot

/-- A path of 255 characters is split into whatever the stack held. -/
theorem long_path_split_by_stack : ∃ path : Text, path.length = 255 ∧
    splitInto ⟨[97], []⟩ path = some ([], [97]) ∧ splitInto ⟨[98], []⟩ path = some ([], [98]) ∧
      ¬ SplitsWell path := by
  have hlong : 255 ≤ ((replicate 255 (120 : UInt8)).dropWhile (· = spaceCharacter)).length := by
    decide +kernel
  have hfirst := splitInto_stale hlong 97 (by decide)
  have hsecond := splitInto_stale hlong 98 (by decide)
  refine ⟨replicate 255 120, length_replicate, hfirst, hsecond, fun hwell => ?_⟩
  have hsame := hwell.1 ⟨[97], []⟩ ⟨[98], []⟩
  rw [hfirst, hsecond] at hsame
  cases hsame

/-- `/x` and `//x` have the same parent and leaf. -/
example : cutLast (text "/x") = (text "/", text "x") ∧ cutLast (text "//x") = (text "/", text "x") := by
  decide

end Windoge.Vfs
