import Windoge.Exfat.Quiet

/-!
# Where walks lead

A walk that starts in a directory whose path string leads to it keeps the two in step: the path
string is always the list of names from the root, `..` takes the last of them away and any other
name is looked up and added.
-/

namespace Windoge.Exfat

open Windoge.Flow Components List Volume

/-- A name that a path string can hold. -/
structure PlainName (name : List UInt8) : Prop where
  nonempty : name ≠ []
  whole : slash ∉ name
  short : name.length ≤ 63
  not_dot : name ≠ dot
  not_dotDot : name ≠ dotDot

/-- The path string of the names from the root. -/
def pathOf (names : List (List UInt8)) : List UInt8 :=
  if names = [] then rootPath else names.flatMap (slash :: ·)

/-- The directory that a name in a directory stands for, if the first slot with it holds one. -/
def Volume.child (v : Volume) (d : ℕ) (name : List UInt8) : Option ℕ :=
  (findSlot (clusterAt v.bytes d) name).bind fun k =>
    if isDirectory (clusterAt v.bytes d) (32 * k) then some (firstCluster (clusterAt v.bytes d) (32 * k))
    else none

/-- The directory that names lead to, one after the other. -/
def Volume.follow (v : Volume) : ℕ → List (List UInt8) → Option ℕ
  | d, [] => some d
  | d, name :: names => (v.child d name).bind fun c => v.follow c names

/-- A directory and the names that lead to it from the root. -/
structure Position where
  names : List (List UInt8)
  cluster : ℕ
  deriving DecidableEq

/-- The root of a volume. -/
def rootPosition : Position := ⟨[], 4⟩

/-- The names of the position are plain and lead to its directory. -/
structure Position.Leads (v : Volume) (p : Position) : Prop where
  plain : ∀ name ∈ p.names, PlainName name
  follow : v.follow 4 p.names = some p.cluster

/-- Where one component of a path leads from a position. -/
def Volume.goStep (v : Volume) (p : Position) (token : List UInt8) : Option Position :=
  if token = dotDot then
    if p.names = [] then some p else (v.follow 4 p.names.dropLast).map fun c => ⟨p.names.dropLast, c⟩
  else if token = dot then some p
  else (v.child p.cluster token).map fun c => ⟨p.names ++ [token], c⟩

/-- Where the components of a path lead from a position. -/
def Volume.go (v : Volume) : Position → List (List UInt8) → Option Position
  | p, [] => some p
  | p, token :: tokens => (v.goStep p token).bind fun q => v.go q tokens

/-- Where a path leads that is handed to `exfat_change_directory` at a position. -/
def Volume.goPath (v : Volume) (p : Position) (path : List UInt8) : Option Position :=
  if trimPath path = [] then some p
  else v.go (if (trimPath path).head? = some slash then rootPosition else p) (pathTokens (trimPath path))

/-- The volume with the driver at a position. -/
def Volume.at (v : Volume) (p : Position) : Volume :=
  { v with currentCluster := p.cluster, currentPath := pathOf p.names }

/-- The driver is at a position. -/
structure Volume.At (v : Volume) (p : Position) : Prop where
  cluster : v.currentCluster = p.cluster
  path : v.currentPath = pathOf p.names

variable {v v' : Volume} {d c : ℕ} {name path token : List UInt8} {names tokens : List (List UInt8)}
  {p q : Position}

section PathOf

theorem pathOf_of_ne (h : names ≠ []) : pathOf names = names.flatMap (slash :: ·) := if_neg h

theorem pathOf_eq_root (hplain : ∀ name ∈ names, PlainName name) : pathOf names = [slash] ↔ names = [] := by
  refine ⟨fun h => ?_, fun h => by rw [h]; rfl⟩
  cases names with
  | nil => rfl
  | cons name names =>
    rw [pathOf_of_ne (cons_ne_nil _ _), flatMap_cons, cons_append, cons.injEq, append_eq_nil_iff] at h
    exact absurd h.2.1 (hplain name mem_cons_self).nonempty

/-- Descending adds a name. -/
theorem extendPath_pathOf (hplain : ∀ name ∈ names, PlainName name) :
    extendPath (pathOf names) token = pathOf (names ++ [token]) := by
  rw [pathOf_of_ne (append_ne_nil_of_right_ne_nil _ (cons_ne_nil _ _)), flatMap_append, flatMap_singleton]
  unfold extendPath
  split_ifs with hroot
  · rw [(pathOf_eq_root hplain).mp hroot]
    rfl
  · have hne : names ≠ [] := fun hnil => hroot ((pathOf_eq_root hplain).mpr hnil)
    rw [pathOf_of_ne hne, append_assoc, singleton_append]

/-- The part of a string up to its last slash. -/
theorem rdropWhile_slash (start : List UInt8) (hname : slash ∉ name) :
    (start ++ slash :: name).rdropWhile (· ≠ slash) = start ++ [slash] := by
  induction name using reverseRecOn with
  | nil => exact rdropWhile_concat_neg _ _ _ (by simp)
  | append_singleton name c ih =>
    rw [mem_append, not_or] at hname
    have hc : c ≠ slash := fun h => hname.2 (mem_singleton.mpr h.symm)
    rw [← cons_append, ← append_assoc, rdropWhile_concat_pos _ _ _ (by simpa using hc)]
    exact ih hname.1

/-- Climbing takes the last name away. -/
theorem parentPath_pathOf (htoken : slash ∉ token) : parentPath (pathOf (names ++ [token])) = pathOf names := by
  have hkept : (pathOf (names ++ [token])).rdropWhile (· ≠ slash) = names.flatMap (slash :: ·) ++ [slash] := by
    rw [pathOf_of_ne (append_ne_nil_of_right_ne_nil _ (cons_ne_nil _ _)), flatMap_append,
      flatMap_singleton, rdropWhile_slash _ htoken]
  unfold parentPath
  rw [hkept]
  dsimp only
  cases names with
  | nil => rfl
  | cons name names =>
    rw [pathOf_of_ne (cons_ne_nil _ _), dropLast_concat, if_neg]
    rw [length_append, flatMap_cons, length_append, length_cons, length_singleton]
    omega

theorem PlainName.pathTokens_eq (h : PlainName name) : pathTokens name = [name] := by
  rw [pathTokens, splitOn_eq_singleton h.whole]
  simp [take_of_length_le h.short, h.nonempty]

theorem PlainName.pathTokens_append (h : PlainName name) (rest : List UInt8) :
    pathTokens (name ++ slash :: rest) = name :: pathTokens rest := by
  rw [pathTokens, splitOn_append_cons_self, splitOn_eq_singleton h.whole, singleton_append, map_cons,
    take_of_length_le h.short, filter_cons_of_pos (by simpa using h.nonempty)]
  rfl

/-- The components of a path string are its names. -/
theorem pathTokens_pathOf (hplain : ∀ name ∈ names, PlainName name) : pathTokens (pathOf names) = names := by
  cases names with
  | nil => rfl
  | cons name names =>
    rw [pathOf_of_ne (cons_ne_nil _ _), flatMap_cons, cons_append, pathTokens_cons_slash]
    induction names generalizing name with
    | nil =>
      rw [flatMap_nil, append_nil]
      exact (hplain name mem_cons_self).pathTokens_eq
    | cons next names ih =>
      rw [flatMap_cons, cons_append, (hplain name mem_cons_self).pathTokens_append, ih next fun name hname =>
          hplain name (mem_cons_of_mem _ hname)]

theorem pathTokens_bounds (h : token ∈ pathTokens path) : token ≠ [] ∧ slash ∉ token ∧ token.length ≤ 63 := by
  obtain ⟨hmem, hne⟩ := mem_filter.mp h
  obtain ⟨piece, hpiece, rfl⟩ := mem_map.mp hmem
  refine ⟨by simpa using hne, fun hslash => ?_, length_take_le _ _⟩
  exact not_mem_of_mem_splitOn hpiece (mem_of_mem_take hslash)

end PathOf

section Names

theorem follow_append (before after : List (List UInt8)) :
    v.follow d (before ++ after) = (v.follow d before).bind fun c => v.follow c after := by
  induction before generalizing d with
  | nil => rfl
  | cons name before ih =>
    rw [cons_append, follow, follow, Option.bind_assoc]
    exact Option.bind_congr fun c _ => ih

theorem follow_concat : v.follow d (names ++ [name]) = (v.follow d names).bind (v.child · name) := by
  rw [follow_append]
  refine Option.bind_congr fun c _ => ?_
  rw [follow]
  cases v.child c name <;> rfl

theorem rootPosition_leads (v : Volume) : rootPosition.Leads v := ⟨fun _ h => absurd h not_mem_nil, rfl⟩

theorem child_reach (hd : v.Reach d) (h : v.child d name = some c) : v.Reach c := by
  obtain ⟨k, hfind, h⟩ := Option.bind_eq_some_iff.mp h
  split_ifs at h with hdir
  cases h
  exact Forest.Reach.child hd (findSlot_some hfind).1.slotNode hdir

theorem follow_reach (hd : v.Reach d) (h : v.follow d names = some c) : v.Reach c := by
  induction names generalizing d with
  | nil =>
    cases h
    exact hd
  | cons name names ih =>
    obtain ⟨b, hchild, h⟩ := Option.bind_eq_some_iff.mp h
    exact ih (child_reach hd hchild) h

namespace Volume.Sound

variable (hv : v.Sound) (hready : v.Ready)
include hv hready

/-- Without failures to come a lookup in another directory finds the first slot with the name. -/
theorem resolveIn_quiet (hc : v.Reach c) (name : List UInt8) : resolveIn c name v =
    match findSlot (clusterAt v.bytes c) name with
    | none => .error (.code (-1)) v
    | some k => .ok (targetAt (8 * (c + 766)) (clusterAt v.bytes c) (32 * k)) v := by
  have hthere : { v with currentCluster := c }.Ready := ⟨hready.quiet, hready.present⟩
  have hrun : exfatResolveEntry name { v with currentCluster := c } =
      match findSlot (clusterAt v.bytes c) name with
      | none => .error (.code (-1)) { v with currentCluster := c }
      | some k => .ok (targetAt (8 * (c + 766)) (clusterAt v.bytes c) (32 * k))
          { v with currentCluster := c } := (hv.move hc v.currentPath).resolve_quiet hthere name
  rw [resolveIn_eq, hrun]
  cases findSlot (clusterAt v.bytes c) name <;> rfl

/-- A step into a directory. -/
theorem descend_quiet (hc : v.Reach c) (path token : List UInt8) :
    match v.child c token with
    | some b => descend c path token v = if 256 ≤ (extendPath path token).length then
        .error .undefined v else .ok (b, extendPath path token) v
    | none => ∃ rc, descend c path token v = .error (.code rc) v := by
  have hlookup := hv.resolveIn_quiet hready hc token
  rw [child]
  unfold descend
  cases hfind : findSlot (clusterAt v.bytes c) token with
  | none =>
    rw [hfind] at hlookup
    exact ⟨-1, bind_error hlookup⟩
  | some k =>
    rw [hfind] at hlookup
    rw [bind_ok hlookup, Option.bind_some]
    by_cases hdir : isDirectory (clusterAt v.bytes c) (32 * k) = true
    · have hkind : ¬ (targetAt (8 * (c + 766)) (clusterAt v.bytes c) (32 * k)).isDir = false := by
        change ¬ isDirectory (clusterAt v.bytes c) (32 * k) = false
        rw [hdir]
        decide
      split_ifs <;> rfl
    · have hkind : (targetAt (8 * (c + 766)) (clusterAt v.bytes c) (32 * k)).isDir = false :=
        Bool.eq_false_iff.mpr hdir
      rw [if_neg hdir, if_pos hkind]
      exact ⟨-2, rfl⟩

/-- The second walk along names that lead somewhere leads there. -/
theorem rewalk_follow (hd : v.Reach d) (h : v.follow d names = some c) : rewalk d names v = .ok c v := by
  induction names generalizing d with
  | nil =>
    cases h
    rfl
  | cons name names ih =>
    obtain ⟨b, hchild, h⟩ := Option.bind_eq_some_iff.mp h
    have hb := child_reach hd hchild
    have hlookup := hv.resolveIn_quiet hready hd name
    obtain ⟨k, hfind, hchild⟩ := Option.bind_eq_some_iff.mp hchild
    split_ifs at hchild with hdir
    cases hchild
    rw [hfind] at hlookup
    rw [rewalk, bind_ok (tryCatch_some_ok hlookup)]
    change rewalk (if isDirectory (clusterAt v.bytes d) (32 * k) then _ else _) names v = _
    rw [if_pos hdir]
    exact ih hb h

end Volume.Sound

end Names

section Walks

theorem plainName_of_token (htoken : token ∈ pathTokens path) (hdotDot : token ≠ dotDot)
    (hdot : token ≠ dot) : PlainName token :=
  have hbounds := pathTokens_bounds htoken
  ⟨hbounds.1, hbounds.2.1, hbounds.2.2, hdot, hdotDot⟩

theorem Position.Leads.parent (hp : p.Leads v) (hne : p.names ≠ []) :
    ∃ c, v.follow 4 p.names.dropLast = some c ∧ Position.Leads v ⟨p.names.dropLast, c⟩ := by
  have hfollow := hp.follow
  rw [← dropLast_concat_getLast hne, follow_concat] at hfollow
  obtain ⟨c, hparent, -⟩ := Option.bind_eq_some_iff.mp hfollow
  exact ⟨c, hparent, ⟨fun name hname => hp.plain name (dropLast_subset _ hname), hparent⟩⟩

/-- A step leads from a position to a position. -/
theorem Position.Leads.goStep (hp : p.Leads v) (htoken : token ∈ pathTokens path)
    (h : v.goStep p token = some q) : q.Leads v := by
  unfold Volume.goStep at h
  split_ifs at h with hdotDot hroot hdot
  · exact Option.some.inj h ▸ hp
  · obtain ⟨c, hparent, hleads⟩ := hp.parent hroot
    rw [hparent, Option.map_some] at h
    exact Option.some.inj h ▸ hleads
  · exact Option.some.inj h ▸ hp
  obtain ⟨c, hchild, rfl⟩ := Option.map_eq_some_iff.mp h
  refine ⟨fun name hname => ?_, ?_⟩
  · rcases mem_append.mp hname with hold | hnew
    · exact hp.plain name hold
    · rw [mem_singleton.mp hnew]
      exact plainName_of_token htoken hdotDot hdot
  · rwa [follow_concat, hp.follow]

variable (hv : v.Sound) (hready : v.Ready)
include hv hready

/-- A step of a walk from a position with room for its component goes where the component leads. -/
theorem Position.Leads.walkStep (hp : p.Leads v) (token : List UInt8)
    (hroom : pathRoom (pathOf p.names) + (token.length + 1) < 256) :
    match v.goStep p token with
    | some q => walkStep p.cluster (pathOf p.names) token v = .ok (q.cluster, pathOf q.names) v
    | none => ∃ rc, walkStep p.cluster (pathOf p.names) token v = .error (.code rc) v := by
  unfold Volume.goStep Exfat.walkStep
  by_cases hdotDot : token = dotDot
  · rw [if_pos hdotDot, if_pos hdotDot]
    by_cases hroot : p.names = []
    · rw [if_pos hroot, if_pos ((pathOf_eq_root hp.plain).mpr hroot)]
      rfl
    obtain ⟨c, hparent, hleads⟩ := hp.parent hroot
    have hlast := hp.plain _ (getLast_mem hroot)
    have hpath : parentPath (pathOf p.names) = pathOf p.names.dropLast := by
      nth_rewrite 1 [← dropLast_concat_getLast hroot]
      exact parentPath_pathOf hlast.whole
    have htokens : pathTokens ((pathOf p.names.dropLast).drop 1) = p.names.dropLast := by
      rw [← pathTokens_cons_slash]
      have hslash : slash :: (pathOf p.names.dropLast).drop 1 = pathOf p.names.dropLast := by
        cases p.names.dropLast with
        | nil => rfl
        | cons name names => rfl
      rw [hslash]
      exact pathTokens_pathOf hleads.plain
    have hrewalk := hv.rewalk_follow hready Forest.Reach.refl hparent
    rw [if_neg hroot, if_neg fun h => hroot ((pathOf_eq_root hp.plain).mp h), hparent, Option.map_some]
    unfold climb
    rw [get_bind, hpath, htokens, hv.root, bind_ok hrewalk]
    rfl
  · rw [if_neg hdotDot, if_neg hdotDot]
    by_cases hdot : token = dot
    · rw [if_pos hdot, if_pos hdot]
      rfl
    have hdescend := hv.descend_quiet hready (follow_reach Forest.Reach.refl hp.follow) (pathOf p.names) token
    rw [if_neg hdot, if_neg hdot]
    cases hchild : v.child p.cluster token with
    | none =>
      rwa [hchild] at hdescend
    | some c =>
      rw [hchild] at hdescend
      rw [Option.map_some]
      rw [hdescend, if_neg (by rw [length_extendPath_room]; omega), extendPath_pathOf hp.plain]

/-- A walk from a position with room for its components goes where they lead. -/
theorem Position.Leads.walk (hp : p.Leads v) (htokens : ∀ token ∈ tokens, token ∈ pathTokens path)
    (hroom : pathRoom (pathOf p.names) + space tokens < 256) :
    match v.go p tokens with
    | some q => walk p.cluster (pathOf p.names) tokens v = .ok (q.cluster, pathOf q.names) v ∧ q.Leads v
    | none => ∃ rc, walk p.cluster (pathOf p.names) tokens v = .error (.code rc) v := by
  induction tokens generalizing p with
  | nil => exact ⟨rfl, hp⟩
  | cons token tokens ih =>
    rw [space_cons] at hroom
    have hstep := hp.walkStep hv hready token (by omega)
    rw [Volume.go]
    cases hgo : v.goStep p token with
    | none =>
      rw [hgo] at hstep
      obtain ⟨rc, hstep⟩ := hstep
      exact ⟨rc, by rw [Exfat.walk, bind_error hstep]⟩
    | some q =>
      rw [hgo] at hstep
      have hq := hp.goStep (htokens token mem_cons_self) hgo
      have hroom' := walkStep_pathRoom hstep
      rw [Option.bind_some, Exfat.walk, bind_ok hstep]
      exact ih hq (fun token htoken => htokens token (mem_cons_of_mem _ htoken)) (by
        dsimp only at hroom'
        omega)

/-- A change of directory that fits goes where the path leads. -/
theorem Position.Leads.cd (hp : p.Leads v) (hat : v.At p) (hfits : FitsFrom v.currentPath path) :
    match v.goPath p path with
    | some q => exfatChangeDirectory path v = .ok () (v.at q) ∧ q.Leads v
    | none => ∃ rc, exfatChangeDirectory path v = .error (.code rc) v := by
  unfold Volume.goPath exfatChangeDirectory
  by_cases hblank : trimPath path = []
  · have hstay : v.at p = v := by rw [Volume.at, ← hat.cluster, ← hat.path]
    rw [if_pos hblank]
    refine ⟨?_, hp⟩
    rw [if_neg (not_le_of_gt hfits.1), if_pos hblank, ite_self, hstay]
    rfl
  · have hne : path ≠ [] := fun hnil => hblank (by rw [hnil]; rfl)
    rw [if_neg hblank, if_neg hne, if_neg (not_le_of_gt hfits.1), if_neg hblank, get_bind]
    obtain ⟨start, hchoice, hleads, hstart, hroom⟩ : ∃ start : Position,
        (if (trimPath path).head? = some slash then rootPosition else p) = start ∧ start.Leads v ∧
        v.walkStart (trimPath path) = (start.cluster, pathOf start.names) ∧
        pathRoom (pathOf start.names) + space (pathTokens (trimPath path)) < 256 := by
      have hroom := hfits.2
      rw [hat.path] at hroom
      unfold walkStart
      split_ifs at hroom ⊢
      · exact ⟨rootPosition, rfl, rootPosition_leads v, by rw [hv.root]; rfl, hroom⟩
      · exact ⟨p, rfl, hp, by rw [hat.cluster, hat.path], hroom⟩
    have hwalk := hleads.walk hv hready (fun _ h => h) hroom
    rw [hchoice, hstart]
    cases hgo : v.go start (pathTokens (trimPath path)) with
    | none =>
      rw [hgo] at hwalk
      obtain ⟨rc, hwalk⟩ := hwalk
      exact ⟨rc, bind_error hwalk⟩
    | some q =>
      rw [hgo] at hwalk
      exact ⟨bind_ok hwalk.1, hwalk.2⟩

end Walks

/-!
## The working path leads to the working cluster

Histories of `exfat_create_node`, `exfat_delete_node` and `exfat_change_directory` without sector
failures. Creates and deletes change the current directory only, and the names that lead to a
directory of a sound volume do not pass through it, so the stored path keeps leading to the
stored cluster. A directory change keeps this as long as the path string it builds fits in
`new_path`, which has room for 255 characters and is filled without a check.
-/

open Forest Option

/-- The operation creates in the current directory, deletes an entry set that lies within one sector,
or changes the directory by a path for which the driver has room. -/
def VolumeOp.Roomy (v : Volume) : VolumeOp → Prop
  | .create _ _ => True
  | .delete name => v.FitsName name
  | .changeDirectory path => FitsFrom v.currentPath path
  | .write _ _ | .append _ _ | .truncate _ => False

variable {start : Volume} {op : VolumeOp} {c d e : ℕ} {name : List UInt8} {names names' : List (List UInt8)}
  {p : Position}

theorem VolumeOp.Roomy.onFiles (h : op.Roomy v) : op.OnFiles v := by
  cases op <;> trivial

theorem VolumeOp.Roomy.inBounds (h : op.Roomy v) : op.InBounds v := by
  cases op with
  | create | delete | changeDirectory => exact h
  | write | append | truncate => exact h.elim

section Names

theorem child_owns (hv : v.Sound) (hd : v.Reach d) (h : v.child d name = some c) :
    ∃ k, Owns v.view 4 (d, k) c := by
  rw [child] at h
  obtain ⟨k, hfind, h⟩ := bind_eq_some_iff.mp h
  split_ifs at h with hdir
  cases h
  have hslot := (findSlot_some hfind).1.slotNode
  exact ⟨k, hd, _, hslot, hv.separated.first_mem hd hslot hdir⟩

theorem follow_concat_owns (hv : v.Sound) (h : v.follow 4 (names ++ [name]) = some c) :
    ∃ d k, v.follow 4 names = some d ∧ Owns v.view 4 (d, k) c := by
  rw [follow_concat] at h
  obtain ⟨d, hd, hchild⟩ := bind_eq_some_iff.mp h
  obtain ⟨k, howns⟩ := child_owns hv (follow_reach Reach.refl hd) hchild
  exact ⟨d, k, hd, howns⟩

theorem root_follow : v.follow 4 [] = some 4 := rfl

theorem follow_root (hv : v.Sound) (h : v.follow 4 names = some 4) : names = [] := by
  cases names using reverseRecOn with
  | nil => rfl
  | append_singleton names name =>
    obtain ⟨d, k, -, howns⟩ := follow_concat_owns hv h
    exact absurd hv.separated.root_system (hv.separated.owned_system howns)

/-- As each directory has one owner, all names that lead to it are equally many. -/
theorem follow_length (hv : v.Sound) (h : v.follow 4 names = some c)
    (h' : v.follow 4 names' = some c) : names.length = names'.length := by
  induction names using reverseRecOn generalizing names' c with
  | nil =>
    cases h
    rw [follow_root hv h']
  | append_singleton names name ih =>
    cases names' using reverseRecOn with
    | nil =>
      cases h'
      rw [follow_root hv h]
    | append_singleton names' name' =>
      obtain ⟨d, k, hd, howns⟩ := follow_concat_owns hv h
      obtain ⟨d', k', hd', howns'⟩ := follow_concat_owns hv h'
      cases hv.separated.owner_unique howns howns'
      rw [length_append, length_append, ih hd hd', length_singleton, length_singleton]

/-- If all directories but one stay as they are, the names that lead to this one still do. -/
theorem follow_elsewhere (hv : v.Sound)
    (hsame : ∀ d, v.Reach d → d ≠ c → clusterAt v'.bytes d = clusterAt v.bytes d)
    (hd : v.follow 4 names = some d) (h : v.follow d names' = some c) :
    v'.follow d names' = some c := by
  induction names' generalizing names d with
  | nil => exact h
  | cons name names' ih =>
    -- the directory on the way is not the one that changes: the whole path is longer than this far
    have hne : d ≠ c := by
      rintro rfl
      have hall : v.follow 4 (names ++ name :: names') = some d := by rw [follow_append, hd, bind_some, h]
      have hlength := follow_length hv hd hall
      rw [length_append, length_cons] at hlength
      omega
    obtain ⟨b, hchild, hrest⟩ := bind_eq_some_iff.mp h
    have hchild' : v'.child d name = some b := by
      rwa [child, hsame d (follow_reach Reach.refl hd) hne]
    have hnext : v.follow 4 (names ++ [name]) = some b := by rw [follow_concat, hd, bind_some, hchild]
    rw [follow, hchild', bind_some]
    exact ih hnext hrest

end Names

/-- A sound volume without sector failures to come, on which the stored path is the path string of
names that lead from the root to the stored cluster. -/
structure Volume.Oriented (v : Volume) : Prop extends v.Sound where
  ready : v.Ready
  position : ∃ p : Position, p.Leads v ∧ v.At p
  short : PathString v.currentPath

namespace Volume.Oriented

/-- A change of the current directory alone leaves the driver where the path leads. -/
theorem elsewhere {bytes : Bytes} {outcomes : List SectorOutcome} (hv : v.Oriented)
    (hsound : (v.put bytes outcomes).Sound) (hready : (v.put bytes outcomes).Ready)
    (hsame : ∀ d, v.Reach d → d ≠ v.currentCluster → clusterAt bytes d = clusterAt v.bytes d) :
    (v.put bytes outcomes).Oriented := by
  obtain ⟨p, hp, hat⟩ := hv.position
  rw [hat.cluster] at hsame
  have hfollow : (v.put bytes outcomes).follow 4 p.names = some p.cluster :=
    follow_elsewhere hv.toSound (fun d hd hne => by rw [v.put_bytes, hsame d hd hne]) root_follow hp.follow
  exact ⟨hsound, hready, ⟨p, ⟨hp.plain, hfollow⟩, ⟨hat.cluster, hat.path⟩⟩, hv.short⟩

/-- A directory change with room returns, and the driver is where its path leads. -/
theorem changeDirectory {path : List UInt8} (hv : v.Oriented) (hfits : FitsFrom v.currentPath path) :
    ∃ v', (VolumeOp.changeDirectory path).Returns v v' ∧ v'.Oriented := by
  obtain ⟨p, hp, hat⟩ := hv.position
  have hcd := hp.cd hv.toSound hv.ready hat hfits
  cases hgo : v.goPath p path with
  | none =>
    rw [hgo] at hcd
    obtain ⟨rc, hcd⟩ := hcd
    exact ⟨v, .inr ⟨rc, hcd⟩, hv⟩
  | some q =>
    rw [hgo] at hcd
    have hrun := hcd.1
    obtain ⟨hsound, hready⟩ := hv.toSound.done hv.ready
      (show VolumeOp.OnFiles v (.changeDirectory path) from trivial) hrun
    have hfollow : (v.at q).follow 4 q.names = some q.cluster :=
      follow_elsewhere hv.toSound (fun _ _ _ => rfl) root_follow hcd.2.follow
    exact ⟨_, .inl hcd.1, hsound, hready, ⟨q, ⟨hcd.2.plain, hfollow⟩, rfl, rfl⟩, hv.short.cd hcd.1⟩

theorem done (hv : v.Oriented) (hroomy : op.Roomy v) (hreturns : op.Returns v v') : v'.Oriented := by
  have hfiles := hroomy.onFiles
  rcases hreturns with hrun | ⟨rc, hrun⟩
  · obtain ⟨hsound, hready⟩ := hv.toSound.done hv.ready hfiles hrun
    cases op with
    | create name isDir =>
      obtain ⟨-, k, first, bytes, outcomes, rfl, hplaced⟩ := hv.toSound.create_ok hrun
      exact hv.elsewhere hsound hready fun d => hv.toSound.placed_elsewhere hplaced
    | delete name =>
      obtain ⟨k, bytes, outcomes, -, -, rfl, hcleared⟩ := hv.toSound.delete_ok hrun
      exact hv.elsewhere hsound hready fun d => hv.toSound.cleared_elsewhere hcleared
    | changeDirectory path =>
      obtain ⟨w, hw | ⟨rc, hw⟩, horiented⟩ := hv.changeDirectory hroomy
      · exact (EStateM.Result.ok.inj (hrun.symm.trans hw)).2 ▸ horiented
      · cases hrun.symm.trans hw
    | write name data => exact hroomy.elim
    | append name data => exact hroomy.elim
    | truncate name => exact hroomy.elim
  · exact hv.toSound.refused hv.ready hfiles hrun ▸ hv

end Volume.Oriented

/-- In every state that creates, deletes and directory changes with room reach from the root of a
sound volume, the stored path has at most 255 characters and its names lead to the stored cluster;
every such operation returns. -/
theorem working_path_leads (start v : Volume) (hstart : start.Sound) (hready : start.Ready)
    (hroot : start.At rootPosition) (hv : Reached (fun v op => op.Roomy v) start v) :
    v.currentPath.length ≤ 255 ∧
    (∃ names, (∀ name ∈ names, PlainName name) ∧ v.currentPath = pathOf names ∧
      v.follow v.rootCluster names = some v.currentCluster) ∧
    ∀ op : VolumeOp, op.Roomy v → ∃ v', op.Returns v v' := by
  have horiented : v.Oriented := by
    induction hv with
    | start => exact ⟨hstart, hready, ⟨_, rootPosition_leads start, hroot⟩, hroot.path ▸ pathString_root⟩
    | step op _ hroomy hreturns ih => exact ih.done hroomy hreturns
  obtain ⟨p, hp, hat⟩ := horiented.position
  refine ⟨Nat.le_of_lt_succ horiented.short.fits, ⟨p.names, hp.plain, hat.path, ?_⟩, fun op hroomy => ?_⟩
  · rw [horiented.root, hp.follow, hat.cluster]
  · exact horiented.toSound.returns horiented.ready hroomy.onFiles hroomy.inBounds

section Examples

theorem blank_atRoot : blank.At rootPosition := by
  obtain ⟨-, totalSectors, hfresh⟩ := blank_fresh
  exact ⟨hfresh.cluster, hfresh.path⟩

/-- A directory of the blank volume is created and entered. -/
theorem working_path_leads_entered : ∃ v : Volume, Reached (fun v op => op.Roomy v) blank v ∧
    v.currentPath = [47, 100] ∧ v.currentPath.length ≤ 255 ∧
    (∃ names, (∀ name ∈ names, PlainName name) ∧ v.currentPath = pathOf names ∧
      v.follow v.rootCluster names = some v.currentCluster) ∧
    ∀ op : VolumeOp, op.Roomy v → ∃ v', op.Returns v v' := by
  obtain ⟨_, hcreate⟩ := ok_of_stopReason (exfatCreateNode [100] true blank) (by decide +kernel)
  obtain ⟨_, henter⟩ := ok_of_stopReason
    (exfatChangeDirectory [100] (finalState (exfatCreateNode [100] true blank))) (by decide +kernel)
  have hfits : FitsFrom (finalState (exfatCreateNode [100] true blank)).currentPath [100] := by
    have hpath : (finalState (exfatCreateNode [100] true blank)).currentPath = rootPath := by decide +kernel
    rw [hpath]
    exact ⟨by decide, by decide⟩
  have hreached : Reached (fun v op => op.Roomy v) blank _ := .step (.changeDirectory [100])
    (.step (.create [100] true) .start trivial (.inl hcreate)) hfits (.inl henter)
  exact ⟨_, hreached, by decide +kernel, working_path_leads blank _ blank_sound blank_ready blank_atRoot hreached⟩

/-- A name as long as a component of a path may be. -/
def longName : List UInt8 := List.replicate 63 97

/-- Three directories with long names in one another and a fourth one in the innermost. -/
def deepOps : List VolumeOp :=
  [.create longName true, .changeDirectory longName, .create longName true, .changeDirectory longName,
    .create longName true, .changeDirectory longName, .create longName true]

/-- The path string of the fourth directory would have 256 characters: entering it by a path of 63
overruns `new_path`. -/
theorem nested_change_overruns : ∃ start v : Volume, start.Sound ∧ start.Ready ∧
    start.At rootPosition ∧
    Reached (fun _ op => (∃ name, op = .create name true) ∨
      ∃ path : List UInt8, path.length ≤ 255 ∧ op = .changeDirectory path) start v ∧
    ∃ path : List UInt8, path.length ≤ 255 ∧ ∃ v', exfatChangeDirectory path v = .error .undefined v' := by
  obtain ⟨_, hrun⟩ := ok_of_stopReason (runOps deepOps blank) (by decide +kernel)
  refine ⟨blank, _, blank_sound, blank_ready, blank_atRoot,
    reached_of_run deepOps .start (fun _ op hop => ?_) hrun, longName, by decide, ?_⟩
  · simp only [deepOps, mem_cons, not_mem_nil, or_false] at hop
    rcases hop with rfl | rfl | rfl | rfl | rfl | rfl | rfl <;>
      first | exact .inl ⟨longName, rfl⟩ | exact .inr ⟨longName, by decide, rfl⟩
  · have hstop : stopReason (exfatChangeDirectory longName (finalState (runOps deepOps blank))) =
        some .undefined := by decide +kernel
    exact ⟨_, error_of_stopReason hstop⟩

end Examples

end Windoge.Exfat
