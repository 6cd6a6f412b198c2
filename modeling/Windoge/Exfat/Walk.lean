import Windoge.Lib.Components
import Windoge.Exfat.Tree

/-!
# Walking through a sound volume

A walk only reads: it leaves the volume as it was and, on a sound volume, ends in a directory
that can be reached from the root. Its one way to go wrong is a path string that outgrows the
driver's buffers.
-/

namespace Windoge.Exfat

open Windoge.Flow Forest Components EStateM.Result List

/-- Nothing differs but the failures to come, and none appear. -/
def Unchanged (v v' : Volume) : Prop :=
  ∃ outcomes, v' = { v with outcomes := outcomes } ∧ (v.outcomes = [] → outcomes = [])

variable {v v' v'' : Volume} {lba c d : ℕ} {name path : List UInt8} {tokens : List (List UInt8)}

theorem Unchanged.refl (v : Volume) : Unchanged v v := ⟨v.outcomes, rfl, id⟩

theorem Unchanged.trans (h : Unchanged v v') (h' : Unchanged v' v'') : Unchanged v v'' := by
  obtain ⟨outcomes, rfl, hquiet⟩ := h
  obtain ⟨outcomes', rfl, hquiet'⟩ := h'
  exact ⟨outcomes', rfl, fun hv => hquiet' (hquiet hv)⟩

instance : IsPreorder Volume Unchanged where
  refl := Unchanged.refl
  trans _ _ _ := Unchanged.trans

theorem Unchanged.eq (h : Unchanged v v') (hquiet : v.outcomes = []) : v' = v := by
  obtain ⟨outcomes, rfl, hnone⟩ := h
  rw [hnone hquiet, ← hquiet]

theorem Unchanged.reach (h : Unchanged v v') : v'.Reach d ↔ v.Reach d := by
  obtain ⟨outcomes, rfl, -⟩ := h
  exact Iff.rfl

theorem Unchanged.sound (h : Unchanged v v') (hv : v.Sound) : v'.Sound := by
  obtain ⟨outcomes, rfl, -⟩ := h
  exact ⟨⟨hv.heapOffset, hv.perCluster, hv.root, hv.atLeast, hv.atMost⟩, hv.separated, hv.dirOk,
    hv.sizeOk, hv.current⟩

theorem unchanged_exfatSectorRead : Respects Unchanged (exfatSectorRead lba) := by
  intro v
  have htail : Unchanged v (v.put v.bytes v.outcomes.tail) :=
    ⟨_, v.put_bytes_eq _, fun hquiet => by rw [hquiet, tail_nil]⟩
  unfold exfatSectorRead
  split_ifs
  · cases v.outcomes.headD .done <;> exact htail
  · exact Unchanged.refl v

/-- A lookup in another directory is a lookup there; only its report comes back. -/
theorem resolveIn_eq : resolveIn c name v =
    match exfatResolveEntry name { v with currentCluster := c } with
    | .ok target w => .ok target { w with currentCluster := v.currentCluster }
    | .error _ w => .error (.code (-1)) { w with currentCluster := v.currentCluster } := by
  unfold resolveIn
  rw [get_bind, modify_bind]
  cases hfind : exfatResolveEntry name { v with currentCluster := c } with
  | ok target w =>
    rw [bind_ok (tryCatch_some_ok hfind)]
    rfl
  | error e w =>
    rw [bind_ok (tryCatch_some_error hfind)]
    rfl

/-- A lookup in another directory changes nothing. -/
theorem unchanged_resolveIn (c : ℕ) (name : List UInt8) : Respects Unchanged (resolveIn c name) := by
  intro v
  rw [resolveIn_eq]
  have hlookup := respects_exfatResolveEntry unchanged_exfatSectorRead name { v with currentCluster := c }
  cases hfind : exfatResolveEntry name { v with currentCluster := c } with
  | ok _ w | error _ w =>
    rw [hfind] at hlookup
    obtain ⟨outcomes, rfl, hquiet⟩ := hlookup
    exact ⟨outcomes, rfl, hquiet⟩

theorem unchanged_guarded {α : Type} {x : Driver α} (hx : Respects Unchanged x) :
    Respects Unchanged (tryCatch (some <$> x) fun _ => pure none) := by
  intro v
  have hfirst := hx v
  cases hrun : x v with
  | ok a w =>
    rw [hrun] at hfirst
    rwa [tryCatch_some_ok hrun]
  | error e w =>
    rw [hrun] at hfirst
    rwa [tryCatch_some_error hrun]

theorem unchanged_rewalk (c : ℕ) (tokens : List (List UInt8)) : Respects Unchanged (rewalk c tokens) := by
  induction tokens generalizing c with
  | nil => exact .pure _
  | cons token tokens ih =>
    refine .bind (unchanged_guarded (unchanged_resolveIn c token)) fun found => ?_
    cases found with
    | none => exact ih _
    | some target => exact ih _

/-- A step of a walk changes nothing. -/
theorem unchanged_walkStep (c : ℕ) (path token : List UInt8) : Respects Unchanged (walkStep c path token) := by
  unfold walkStep
  split_ifs
  · exact .pure _
  · exact .bind .get fun _ => .bind (unchanged_rewalk _ _) fun _ => .pure _
  · exact .pure _
  refine .bind (unchanged_resolveIn c token) fun target => ?_
  split_ifs
  · exact .throw _
  · exact .throw _
  · exact .pure _

theorem unchanged_walk (c : ℕ) (path : List UInt8) (tokens : List (List UInt8)) :
    Respects Unchanged (walk c path tokens) := by
  induction tokens generalizing c path with
  | nil => exact .pure _
  | cons token tokens ih => exact .bind (unchanged_walkStep c path token) fun _ => ih _ _

namespace Volume.Sound

variable (hv : v.Sound)
include hv

theorem move (hc : v.Reach c) (path : List UInt8) : { v with currentCluster := c, currentPath := path }.Sound :=
  ⟨⟨hv.heapOffset, hv.perCluster, hv.root, hv.atLeast, hv.atMost⟩, hv.separated, hv.dirOk, hv.sizeOk, hc⟩

/-- A directory found in a reachable directory is reachable. -/
theorem resolveIn_reach (hc : v.Reach c) {target : Target}
    (h : resolveIn c name v = .ok target v') (hdir : target.isDir = true) : v.Reach target.cluster := by
  rw [resolveIn_eq] at h
  cases hfind : exfatResolveEntry name { v with currentCluster := c } with
  | error e w =>
    rw [hfind] at h
    cases h
  | ok found w =>
    rw [hfind] at h
    cases h
    obtain ⟨k, outcomes, hslot, rfl, -⟩ := (hv.move hc v.currentPath).resolve_ok hfind
    exact Forest.Reach.child hc (findSlot_some hslot).1.slotNode hdir

/-- The second walk ends in a reachable directory. -/
theorem rewalk_reach (hc : v.Reach c) (h : rewalk c tokens v = .ok d v') : v.Reach d := by
  induction tokens generalizing c v with
  | nil =>
    cases h
    exact hc
  | cons token tokens ih =>
    obtain ⟨found, w, hfound, h⟩ := bind_eq_ok h
    have hsame := (unchanged_guarded (unchanged_resolveIn c token)).ok hfound
    cases found with
    | none => exact hsame.reach.mp (ih (hsame.sound hv) (hsame.reach.mpr hc) h)
    | some target =>
      refine hsame.reach.mp (ih (hsame.sound hv) (hsame.reach.mpr ?_) h)
      split_ifs with hdir
      · cases hrun : resolveIn c token v with
        | error e w' =>
          rw [tryCatch_some_error hrun] at hfound
          cases hfound
        | ok target' w' =>
          rw [tryCatch_some_ok hrun] at hfound
          obtain ⟨htarget, -⟩ := ok.inj hfound
          cases htarget
          exact hv.resolveIn_reach hc hrun hdir
      · exact hc

/-- A step of a walk ends in a reachable directory. -/
theorem walkStep_reach (hc : v.Reach c) {token : List UInt8} {next : ℕ × List UInt8}
    (h : walkStep c path token v = .ok next v') : v.Reach next.1 := by
  unfold walkStep at h
  split_ifs at h
  · cases h
    exact hc
  · unfold climb at h
    rw [get_bind] at h
    obtain ⟨cluster, w, hrewalk, h⟩ := bind_eq_ok h
    cases h
    rw [hv.root] at hrewalk
    exact hv.rewalk_reach Forest.Reach.refl hrewalk
  · cases h
    exact hc
  · obtain ⟨target, w, hfound, h⟩ := bind_eq_ok h
    split_ifs at h with hfile
    · cases h
    · cases h
    · cases h
      exact hv.resolveIn_reach hc hfound (Bool.eq_true_of_not_eq_false hfile)

/-- A walk ends in a reachable directory. -/
theorem walk_reach (hc : v.Reach c) {place : ℕ × List UInt8}
    (h : walk c path tokens v = .ok place v') : v.Reach place.1 := by
  induction tokens generalizing c path v with
  | nil =>
    cases h
    exact hc
  | cons token tokens ih =>
    obtain ⟨next, w, hstep, h⟩ := bind_eq_ok h
    have hsame := (unchanged_walkStep c path token).ok hstep
    exact hsame.reach.mp (ih (hsame.sound hv) (hsame.reach.mpr (hv.walkStep_reach hc hstep)) h)

theorem walkStart_reach (path : List UInt8) : v.Reach (v.walkStart path).1 := by
  unfold walkStart
  split_ifs
  · change v.Reach v.rootCluster
    rw [hv.root]
    exact Forest.Reach.refl
  · exact hv.current

/-- A change of directory that succeeds leads to a reachable directory and changes nothing else. -/
theorem cd_ok (h : exfatChangeDirectory path v = .ok () v') :
    ∃ c path', v.Reach c ∧ Unchanged { v with currentCluster := c, currentPath := path' } v' := by
  have hstay : ∃ c path', v.Reach c ∧ Unchanged { v with currentCluster := c, currentPath := path' } v :=
    ⟨v.currentCluster, v.currentPath, hv.current, Unchanged.refl v⟩
  unfold exfatChangeDirectory at h
  split_ifs at h
  · cases h
    exact hstay
  · cases h
  · cases h
    exact hstay
  rw [get_bind] at h
  obtain ⟨place, w, hwalk, h⟩ := bind_eq_ok h
  cases h
  obtain ⟨outcomes, rfl, hquiet⟩ := (unchanged_walk _ _ _).ok hwalk
  exact ⟨place.1, place.2, hv.walk_reach (hv.walkStart_reach _) hwalk, outcomes, rfl, hquiet⟩

end Volume.Sound

/-- A change of directory that fails changes nothing. -/
theorem cd_error {e : Stop} (h : exfatChangeDirectory path v = .error e v') : Unchanged v v' := by
  unfold exfatChangeDirectory at h
  split_ifs at h
  · cases h
  · cases h
    exact Unchanged.refl v
  · cases h
  rw [get_bind] at h
  rcases bind_eq_error h with hwalk | ⟨place, w, -, h⟩
  · exact (unchanged_walk _ _ _).error hwalk
  · cases h

section Room

theorem resolveIn_defined : resolveIn c name v ≠ .error .undefined v' := by
  rw [resolveIn_eq]
  cases exfatResolveEntry name { v with currentCluster := c } <;> simp

/-- The second walk always returns. -/
theorem rewalk_returns (c : ℕ) (tokens : List (List UInt8)) (v : Volume) :
    ∃ d v', rewalk c tokens v = .ok d v' := by
  induction tokens generalizing c v with
  | nil => exact ⟨c, v, rfl⟩
  | cons token tokens ih =>
    rw [rewalk]
    cases hrun : resolveIn c token v with
    | ok target w =>
      rw [bind_ok (tryCatch_some_ok hrun)]
      exact ih _ w
    | error e w =>
      rw [bind_ok (tryCatch_some_error hrun)]
      exact ih c w

theorem space_pathTokens (path : List UInt8) : space (pathTokens path) ≤ path.length + 1 :=
  calc space (pathTokens path)
    _ ≤ space ((path.splitOn slash).map (take 63)) := space_filter_le _ _
    _ ≤ space (path.splitOn slash) := space_take_le 63 _
    _ = path.length + 1 := space_splitOn slash path

theorem length_rdropWhile (p : UInt8 → Bool) (string : List UInt8) :
    (string.rdropWhile p).length ≤ string.length :=
  calc (string.rdropWhile p).length
    _ = (string.reverse.dropWhile p).length := length_reverse
    _ ≤ string.reverse.length := (dropWhile_sublist p).length_le
    _ = string.length := length_reverse

theorem length_trimPath (path : List UInt8) : (trimPath path).length ≤ path.length :=
  (dropWhile_sublist _).length_le.trans (length_rdropWhile _ path)

theorem length_parentPath (path : List UInt8) : (parentPath path).length ≤ max 1 path.length := by
  have hkept := length_rdropWhile (· ≠ slash) path
  unfold parentPath
  dsimp only
  split_ifs
  · exact le_max_left _ _
  · rw [length_dropLast]
    omega

end Room

/-!
## Path strings

The path string of the working directory starts with a slash and fits the driver's buffer, and
walks keep it so. Walking such a string from the root never overruns a buffer: the string that
is built is never longer than the one that is read.
-/

/-- A string the driver can keep as its working directory. -/
structure PathString (path : List UInt8) : Prop where
  absolute : path.head? = some slash
  fits : path.length < 256

variable {token : List UInt8} {tokens : List (List UInt8)} {next : ℕ × List UInt8}

theorem pathString_root : PathString rootPath := ⟨rfl, by decide⟩

theorem head?_of_start {start : List UInt8} (h : start <+: path) (hpath : path.head? = some slash)
    (hne : start ≠ []) : start.head? = some slash := by
  obtain ⟨rest, rfl⟩ := h
  rwa [head?_append_of_ne_nil _ hne] at hpath

/-- Climbing keeps a path string. -/
theorem PathString.parent (h : PathString path) : PathString (parentPath path) := by
  have hlength := length_parentPath path
  have hfits := h.fits
  refine ⟨?_, by omega⟩
  unfold parentPath
  dsimp only
  split_ifs
  · rfl
  have hkept : path.rdropWhile (· ≠ slash) <+: path := rdropWhile_prefix _ _
  have hstart : (path.rdropWhile (· ≠ slash)).dropLast <+: _ := dropLast_prefix _
  refine head?_of_start (hstart.trans hkept) h.absolute fun hnil => ?_
  have hzero := congrArg length hnil
  rw [length_dropLast, length_nil] at hzero
  omega

theorem PathString.extend (h : PathString path) : (extendPath path token).head? = some slash := by
  have hne : path ≠ [] := fun hnil => by
    have habsolute := h.absolute
    rw [hnil] at habsolute
    cases habsolute
  unfold extendPath
  split_ifs
  · rw [head?_append_of_ne_nil _ hne, h.absolute]
  · rw [append_assoc, head?_append_of_ne_nil _ hne, h.absolute]

/-- A step of a walk keeps the path string, climbs or descends. -/
theorem walkStep_path (hstep : walkStep c path token v = .ok next v') :
    next.2 = path ∨ next.2 = parentPath path ∨
      next.2 = extendPath path token ∧ (extendPath path token).length < 256 := by
  unfold walkStep at hstep
  split_ifs at hstep
  · cases hstep
    exact .inl rfl
  · unfold climb at hstep
    rw [get_bind] at hstep
    obtain ⟨cluster, w, -, hstep⟩ := bind_eq_ok hstep
    cases hstep
    exact .inr (.inl rfl)
  · cases hstep
    exact .inl rfl
  · obtain ⟨target, w, -, hstep⟩ := bind_eq_ok hstep
    split_ifs at hstep with hfile hlong
    · cases hstep
    · cases hstep
    · cases hstep
      exact .inr (.inr ⟨rfl, lt_of_not_ge hlong⟩)

/-- A step of a walk keeps the path string. -/
theorem PathString.walkStep (h : PathString path) (hstep : walkStep c path token v = .ok next v') :
    PathString next.2 := by
  rcases walkStep_path hstep with hnext | hnext | ⟨hnext, hshort⟩ <;> rw [hnext]
  · exact h
  · exact h.parent
  · exact ⟨h.extend, hshort⟩

theorem PathString.walk (h : PathString path) (hwalk : walk c path tokens v = .ok next v') :
    PathString next.2 := by
  induction tokens generalizing c path v with
  | nil =>
    cases hwalk
    exact h
  | cons token tokens ih =>
    obtain ⟨place, w, hstep, hwalk⟩ := bind_eq_ok hwalk
    exact ih (h.walkStep hstep) hwalk

/-- A change of directory keeps the path string. -/
theorem PathString.cd (h : PathString v.currentPath)
    (hcd : exfatChangeDirectory path v = .ok () v') : PathString v'.currentPath := by
  unfold exfatChangeDirectory at hcd
  split_ifs at hcd
  · cases hcd
    exact h
  · cases hcd
  · cases hcd
    exact h
  rw [get_bind] at hcd
  obtain ⟨place, w, hwalk, hcd⟩ := bind_eq_ok hcd
  cases hcd
  refine PathString.walk ?_ hwalk
  unfold Volume.walkStart
  split_ifs
  · exact pathString_root
  · exact h

section Absolute

/-- The room a path string takes before the next component is appended. -/
def pathRoom (path : List UInt8) : ℕ := if path = [slash] then 0 else path.length

/-- A path has room in the driver's buffers when it is walked from a directory with a path string. -/
def FitsFrom (current path : List UInt8) : Prop :=
  path.length < 256 ∧
    (if (trimPath path).head? = some slash then 0 else pathRoom current) +
      space (pathTokens (trimPath path)) < 256

theorem length_extendPath_room : (extendPath path token).length = pathRoom path + (token.length + 1) := by
  unfold extendPath pathRoom
  split_ifs with hroot
  · rw [hroot, length_append, length_singleton]
    omega
  · rw [length_append, length_append, length_singleton]
    omega

/-- Climbing frees room. -/
theorem pathRoom_parentPath : pathRoom (parentPath path) ≤ pathRoom path := by
  unfold pathRoom
  by_cases hroot : path = [slash]
  · rw [if_pos hroot, hroot]
    decide
  rw [if_neg hroot]
  split_ifs with hparent
  · exact zero_le
  unfold parentPath at hparent ⊢
  dsimp only at hparent ⊢
  split_ifs at hparent ⊢
  · exact absurd rfl hparent
  · have hkept := length_rdropWhile (· ≠ slash) path
    rw [length_dropLast]
    omega

/-- A step of a walk takes room for its component and one slash. -/
theorem walkStep_pathRoom (hstep : walkStep c path token v = .ok next v') :
    pathRoom next.2 ≤ pathRoom path + (token.length + 1) := by
  rcases walkStep_path hstep with hnext | hnext | ⟨hnext, -⟩ <;> rw [hnext]
  · exact le_self_add
  · exact pathRoom_parentPath.trans le_self_add
  rw [← length_extendPath_room]
  unfold pathRoom
  split_ifs
  · exact zero_le
  · exact le_rfl

/-- A step of a walk with room for its component has defined behaviour. -/
theorem walkStep_defined_room (hroom : pathRoom path + (token.length + 1) < 256) :
    walkStep c path token v ≠ .error .undefined v' := by
  intro h
  unfold walkStep at h
  split_ifs at h
  · cases h
  · unfold climb at h
    rw [get_bind] at h
    obtain ⟨d, w, hrewalk⟩ := rewalk_returns v.rootCluster (pathTokens ((parentPath path).drop 1)) v
    rw [bind_ok hrewalk] at h
    cases h
  · cases h
  · unfold descend at h
    rcases bind_eq_error h with hfound | ⟨target, w, -, h⟩
    · exact resolveIn_defined hfound
    split_ifs at h with hfile hlong
    · cases h
    · rw [length_extendPath_room] at hlong
      omega
    · cases h

/-- A walk with room for its components has defined behaviour. -/
theorem walk_defined_room (hroom : pathRoom path + space tokens < 256) :
    walk c path tokens v ≠ .error .undefined v' := by
  induction tokens generalizing c path v with
  | nil =>
    intro h
    cases h
  | cons token tokens ih =>
    rw [space_cons] at hroom
    intro h
    rcases bind_eq_error h with hstep | ⟨next, w, hstep, h⟩
    · exact walkStep_defined_room (by omega) hstep
    · have hnext := walkStep_pathRoom hstep
      exact ih (by omega) h

/-- A directory change with room for its path has defined behaviour. -/
theorem cd_defined_of_fits (hfits : FitsFrom v.currentPath path) :
    exfatChangeDirectory path v ≠ .error .undefined v' := by
  obtain ⟨hshort, hroom⟩ := hfits
  intro hcd
  unfold exfatChangeDirectory at hcd
  split_ifs at hcd
  · cases hcd
  · omega
  · cases hcd
  rw [get_bind] at hcd
  rcases bind_eq_error hcd with hwalk | ⟨place, w, -, hcd⟩
  · refine walk_defined_room ?_ hwalk
    unfold Volume.walkStart
    split_ifs at hroom ⊢ <;> exact hroom
  · cases hcd

theorem pathTokens_cons_slash (rest : List UInt8) : pathTokens (slash :: rest) = pathTokens rest := by
  rfl

/-- Trimming keeps an absolute path absolute. -/
theorem trimPath_absolute (h : path.head? = some slash) : (trimPath path).head? = some slash := by
  have hkept : (path.rdropWhile fun c => c = 10 ∨ c = 13 ∨ c = 32).head? = some slash := by
    have hstart : path.rdropWhile (fun c => c = 10 ∨ c = 13 ∨ c = 32) <+: path := rdropWhile_prefix _ _
    refine head?_of_start hstart h fun hnil => ?_
    have hall := rdropWhile_eq_nil_iff.mp hnil slash (mem_of_mem_head? h)
    revert hall
    decide
  unfold trimPath
  obtain ⟨rest, hrest⟩ := head?_eq_some_iff.mp hkept
  rw [hrest, dropWhile_cons_of_neg (by decide)]
  rfl

/-- Walking a path string from the root has defined behaviour. -/
theorem PathString.cd_defined (h : PathString path) : exfatChangeDirectory path v ≠ .error .undefined v' := by
  have habsolute := trimPath_absolute h.absolute
  obtain ⟨rest, hrest⟩ := head?_eq_some_iff.mp habsolute
  have hlength := length_trimPath path
  have hfits := h.fits
  have hspace := space_pathTokens rest
  refine cd_defined_of_fits ⟨hfits, ?_⟩
  rw [if_pos habsolute, hrest, pathTokens_cons_slash]
  rw [hrest, length_cons] at hlength
  omega

end Absolute

end Windoge.Exfat
