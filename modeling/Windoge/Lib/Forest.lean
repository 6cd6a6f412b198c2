import Mathlib

/-!
# Directory forests over allocated blocks

A store of directories is a view: which entry, if any, each slot of each directory holds. An
entry owns a run of blocks; an entry that is a directory names the block of its slots. What is
reachable from the root owns blocks that are allocated, belong to one owner each and are not
the system's. The rules say how this and the absence of leaks survive a change of one slot, which
adds an entry, replaces one or removes one, whatever happens to slots that cannot be reached.
-/

namespace Windoge.Forest

open Prod Set

variable {B K N : Type}

/-- An entry of a directory: its name, the block it starts at, the blocks it owns. -/
structure Node (B N : Type) where
  name : N
  first : B
  run : Set B
  isDir : Prop

/-- The entry in each slot of each directory. -/
abbrev View (B K N : Type) := B → K → Option (Node B N)

/-- One directory holds the other. -/
def Child (view : View B K N) (parent child : B) : Prop :=
  ∃ k n, view parent k = some n ∧ n.isDir ∧ n.first = child

/-- The directories that can be reached from the root. -/
def Reach (view : View B K N) (root : B) : B → Prop := Relation.ReflTransGen (Child view) root

/-- The entry in a slot of a reachable directory owns a block. -/
def Owns (view : View B K N) (root : B) (e : B × K) (b : B) : Prop :=
  Reach view root e.1 ∧ ∃ n, view e.1 e.2 = some n ∧ b ∈ n.run

/-- Owned blocks are allocated, not the system's, and have one owner. -/
structure Separated (view : View B K N) (root : B) (system used : Set B) : Prop where
  root_system : root ∈ system
  system_used : system ⊆ used
  owned_used : ∀ {e b}, Owns view root e b → b ∈ used
  owned_system : ∀ {e b}, Owns view root e b → b ∉ system
  owner_unique : ∀ {e e' b}, Owns view root e b → Owns view root e' b → e = e'
  first_mem : ∀ {d k n}, Reach view root d → view d k = some n → n.isDir → n.first ∈ n.run

/-- Every allocated block is the system's or has an owner. -/
def NoLeak (view : View B K N) (root : B) (system used : Set B) : Prop :=
  ∀ b ∈ used, b ∈ system ∨ ∃ e, Owns view root e b

variable {view view' : View B K N} {root d : B} {k : K} {system used : Set B} {n old : Node B N}

/-- The root is reachable. -/
theorem Reach.refl : Reach view root root := Relation.ReflTransGen.refl

/-- Views that agree on the reachable directories reach the same ones. -/
theorem reach_congr (h : ∀ d, Reach view root d → view' d = view d) : Reach view' root d ↔ Reach view root d := by
  constructor
  · intro hreach
    induction hreach with
    | refl => exact Relation.ReflTransGen.refl
    | tail _ hchild ih =>
      obtain ⟨k, n, hslot, hdir, hfirst⟩ := hchild
      rw [h _ ih] at hslot
      exact ih.tail ⟨k, n, hslot, hdir, hfirst⟩
  · intro hreach
    induction hreach with
    | refl => exact Relation.ReflTransGen.refl
    | tail hbefore hchild ih =>
      obtain ⟨k, n, hslot, hdir, hfirst⟩ := hchild
      rw [← h _ hbefore] at hslot
      exact ih.tail ⟨k, n, hslot, hdir, hfirst⟩

/-- A directory in a reachable directory is reachable. -/
theorem Reach.child (hreach : Reach view root d) (hslot : view d k = some n) (hdir : n.isDir) :
    Reach view root n.first := hreach.tail ⟨k, n, hslot, hdir, rfl⟩

/-- A reachable directory is the root or owned by the entry that names it. -/
theorem Reach.cases_owner (hsep : Separated view root system used) (hreach : Reach view root d) :
    d = root ∨ ∃ p k n, Reach view root p ∧ view p k = some n ∧ n.isDir ∧ n.first = d ∧
      Owns view root (p, k) d := by
  rcases Relation.ReflTransGen.cases_tail hreach with rfl | ⟨p, hp, k, n, hslot, hdir, rfl⟩
  · exact .inl rfl
  · exact .inr ⟨p, k, n, hp, hslot, hdir, rfl, hp, n, hslot, hsep.first_mem hp hslot hdir⟩

/-- Reachable directories are allocated. -/
theorem Separated.reach_used (hsep : Separated view root system used) (hreach : Reach view root d) :
    d ∈ used := by
  rcases hreach.cases_owner hsep with rfl | ⟨p, k, n, -, -, -, -, howns⟩
  · exact hsep.system_used hsep.root_system
  · exact hsep.owned_used howns

/-- Marking more blocks as allocated keeps owners apart. -/
theorem Separated.mono {used' : Set B} (hsep : Separated view root system used)
    (hsub : used ⊆ used') : Separated view root system used' :=
  { hsep with
    system_used := hsep.system_used.trans hsub
    owned_used := fun howns => hsub (hsep.owned_used howns) }

/-- On everything reachable the new view differs in one slot only. -/
structure ChangesSlot (view view' : View B K N) (root d : B) (k : K) (entry : Option (Node B N)) :
    Prop where
  reach : Reach view root d
  self : view' d k = entry
  other : ∀ {p j}, Reach view root p → (p, j) ≠ (d, k) → view' p j = view p j

variable {x : B}

/-- The blocks of the entry in a slot, if it holds one. -/
def blocks (entry : Option (Node B N)) : Set B := { b | ∃ n, entry = some n ∧ b ∈ n.run }

theorem blocks_none : blocks (none : Option (Node B N)) = ∅ :=
  eq_empty_of_forall_notMem fun _ ⟨_, hnone, _⟩ => nomatch hnone

theorem blocks_some : blocks (some n) = n.run := by
  ext b
  constructor
  · rintro ⟨m, hm, hb⟩
    cases hm
    exact hb
  · exact fun hb => ⟨n, rfl, hb⟩

section Change

variable {entry : Option (Node B N)} (hchange : ChangesSlot view view' root d k entry)
  (hnew : ∀ n, entry = some n → n.isDir → ∀ j, view' n.first j = none)
  (hold : ∀ m, view d k = some m → m.isDir → ∀ j, view m.first j = none)

include hchange

/-- The directory with the slot stays reachable: a walk to it need not leave it. -/
theorem reach_change_self : Reach view' root d := by
  have hway {x : B} (hx : Reach view root x) : Reach view' root x ∨ Reach view' root d := by
    induction hx with
    | refl => exact .inl Reach.refl
    | @tail p x hp hchild ih =>
      obtain ⟨j, m, hm, hdir, rfl⟩ := hchild
      rcases ih with hp' | hd
      · by_cases heq : (p, j) = (d, k)
        · cases heq
          exact .inr hp'
        · rw [← hchange.other hp heq] at hm
          exact .inl (hp'.child hm hdir)
      · exact .inr hd
  exact (hway hchange.reach).elim id id

include hnew in
/-- A change makes at most the directory reachable that the slot then names. -/
theorem reach_of_change (hx : Reach view' root x) :
    Reach view root x ∨ ∃ n, entry = some n ∧ n.isDir ∧ x = n.first := by
  induction hx with
  | refl => exact .inl Reach.refl
  | @tail p x _ hchild ih =>
    obtain ⟨j, m, hm, hdir, rfl⟩ := hchild
    rcases ih with hp | ⟨n, hn, hndir, rfl⟩
    · by_cases heq : (p, j) = (d, k)
      · cases heq
        exact .inr ⟨m, hchange.self.symm.trans hm, hdir, rfl⟩
      · rw [hchange.other hp heq] at hm
        exact .inl (hp.child hm hdir)
    · rw [hnew n hn hndir j] at hm
      cases hm

include hnew in
/-- An entry that can be found after a change was there before, or is the new one. -/
theorem entry_of_change {p : B} {j : K} {m : Node B N} (hp : Reach view' root p) (hm : view' p j = some m) :
    (p, j) ≠ (d, k) ∧ Reach view root p ∧ view p j = some m ∨ (p, j) = (d, k) ∧ entry = some m := by
  rcases reach_of_change hchange hnew hp with hp | ⟨n, hn, hndir, rfl⟩
  · by_cases heq : (p, j) = (d, k)
    · cases heq
      exact .inr ⟨rfl, hchange.self.symm.trans hm⟩
    · rw [hchange.other hp heq] at hm
      exact .inl ⟨heq, hp, hm⟩
  · rw [hnew n hn hndir] at hm
    cases hm

include hnew in
/-- Giving a slot other blocks keeps owners apart if these are free of other owners. -/
theorem Separated.change (hsep : Separated view root system used)
    (hfresh : Disjoint (blocks entry) (used \ blocks (view d k)))
    (hfirst : ∀ n, entry = some n → n.isDir → n.first ∈ n.run) :
    Separated view' root system (used \ blocks (view d k) ∪ blocks entry) := by
  have howns {e : B × K} {b : B} (h : Owns view' root e b) :
      e ≠ (d, k) ∧ Owns view root e b ∨ e = (d, k) ∧ b ∈ blocks entry := by
    obtain ⟨hx, m, hm, hb⟩ := h
    rcases entry_of_change hchange hnew hx hm with ⟨hne, hp, hm⟩ | ⟨heq, hentry⟩
    · exact .inl ⟨hne, hp, m, hm, hb⟩
    · exact .inr ⟨heq, m, hentry, hb⟩
  have hothers {e : B × K} {b : B} (hne : e ≠ (d, k)) (he : Owns view root e b) : b ∈ used \ blocks (view d k) :=
    ⟨hsep.owned_used he, fun hb => hne (hsep.owner_unique he ⟨hchange.reach, hb⟩)⟩
  have hsystem {b : B} (hb : b ∈ system) : b ∈ used \ blocks (view d k) :=
    ⟨hsep.system_used hb, fun hrun => hsep.owned_system (e := (d, k)) ⟨hchange.reach, hrun⟩ hb⟩
  refine ⟨hsep.root_system, fun b hb => .inl (hsystem hb), fun h => ?_, fun h => ?_,
    fun h h' => ?_, fun hreach hm hdir => ?_⟩
  · rcases howns h with ⟨hne, he⟩ | ⟨-, hb⟩
    · exact .inl (hothers hne he)
    · exact .inr hb
  · rcases howns h with ⟨hne, he⟩ | ⟨-, hb⟩
    · exact hsep.owned_system he
    · exact fun hsys => disjoint_left.mp hfresh hb (hsystem hsys)
  · rcases howns h with ⟨hne, he⟩ | ⟨rfl, hb⟩ <;> rcases howns h' with ⟨hne', he'⟩ | ⟨rfl, hb'⟩
    · exact hsep.owner_unique he he'
    · exact absurd (hothers hne he) (disjoint_left.mp hfresh hb')
    · exact absurd (hothers hne' he') (disjoint_left.mp hfresh hb)
    · rfl
  · rcases entry_of_change hchange hnew hreach hm with ⟨-, hp, hm⟩ | ⟨-, hentry⟩
    · exact hsep.first_mem hp hm hdir
    · exact hfirst _ hentry hdir

include hold

/-- If the slot named no directory with entries, no other directory is lost. -/
theorem reach_change (hx : Reach view root x)
    (hne : ∀ m, view d k = some m → m.isDir → x ≠ m.first) : Reach view' root x := by
  induction hx with
  | refl => exact Reach.refl
  | @tail p x hp hchild ih =>
    obtain ⟨j, m, hm, hdir, rfl⟩ := hchild
    have hp' : Reach view' root p := by
      refine ih fun m' hm' hdir' heq => ?_
      rw [heq, hold m' hm' hdir'] at hm
      cases hm
    have hslotne : (p, j) ≠ (d, k) := by
      intro heq
      cases heq
      exact hne m hm hdir rfl
    rw [← hchange.other hp hslotne] at hm
    exact hp'.child hm hdir

/-- If the slot named no directory with entries and its old blocks are released, nothing leaks. -/
theorem NoLeak.change (hleak : NoLeak view root system used) :
    NoLeak view' root system (used \ blocks (view d k) ∪ blocks entry) := by
  rintro b (⟨hb, hnot⟩ | hb)
  · rcases hleak b hb with hsystem | ⟨e, hx, m, hm, hrun⟩
    · exact .inl hsystem
    have hne : e ≠ (d, k) := by
      rintro rfl
      exact hnot ⟨m, hm, hrun⟩
    have hx' : Reach view' root e.1 := reach_change hchange hold hx fun m' hm' hdir heq => by
      rw [heq, hold m' hm' hdir] at hm
      cases hm
    rw [← hchange.other hx hne] at hm
    exact .inr ⟨e, hx', m, hm, hrun⟩
  · rw [← hchange.self] at hb
    exact .inr ⟨(d, k), reach_change_self hchange, hb⟩

end Change

/-- No reachable directory is owned by one of its own entries. -/
theorem Separated.not_owned_by_self [DecidableEq B] [DecidableEq K]
    (hsep : Separated view root system used) (hd : Reach view root d) (hslot : view d k = some n) :
    d ∉ n.run := by
  intro hrun
  have howns : Owns view root (d, k) d := ⟨hd, n, hslot, hrun⟩
  let removed : View B K N := fun p j => if (p, j) = (d, k) then none else view p j
  have hchange : ChangesSlot view removed root d k none := ⟨hd, if_pos rfl, fun _ hne => if_neg hne⟩
  rcases Relation.ReflTransGen.cases_tail (reach_change_self hchange) with rfl | ⟨p, hp, j, m, hm, hdir, rfl⟩
  · exact hsep.owned_system howns hsep.root_system
  have hp' : Reach view root p := by
    rcases reach_of_change hchange (fun n hn => nomatch hn) hp with hp' | ⟨n, hn, -⟩
    · exact hp'
    · cases hn
  have hne : (p, j) ≠ (m.first, k) := by
    intro heq
    rw [show removed p j = none from if_pos heq] at hm
    cases hm
  have hm' : view p j = some m := (if_neg hne).symm.trans hm
  exact hne (hsep.owner_unique ⟨hp', m, hm', hsep.first_mem hp' hm' hdir⟩ howns)

end Windoge.Forest
