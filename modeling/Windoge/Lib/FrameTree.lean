import Mathlib

/-!
# Radix trees stored in a memory of frames

A memory maps the address of a frame to the words it holds. A word is an entry at
some height: it is empty, it names a data frame (height zero) or it names a table
whose words are entries one height below. This module counts, as a multiset, the
frames that an entry or a forest of entries reaches, and says how that multiset
changes when one word of one table is overwritten. Sharing and cycles are not
excluded by the definitions; they show as repeated elements.
-/

namespace Windoge.FrameTree

open Multiset Function

variable {A W I : Type*}

/-- How the words of a memory are read as tree entries. -/
structure Format (A W I : Type*) where
  /-- The frame named by an entry of the given height, if the entry is not empty. -/
  child : ℕ → W → Option A
  /-- The slots that belong to the tree in a table whose entries have the given height. -/
  slots : ℕ → Finset I

variable (F : Format A W I)

/-- Every frame reached from one entry of the given height. -/
def frames (mem : A → I → W) : ℕ → W → Multiset A
  | 0, entry => (F.child 0 entry).elim 0 fun p => {p}
  | height + 1, entry =>
    (F.child (height + 1) entry).elim 0 fun p =>
      p ::ₘ ∑ i ∈ F.slots height, frames mem height (mem p i)

/-- Every frame reached from a collection of entries with their heights. -/
def forestFrames (mem : A → I → W) (forest : Multiset (ℕ × W)) : Multiset A :=
  (forest.map fun top => frames F mem top.1 top.2).sum

/-- `Table mem height entry below p`: the frame `p` is a table in the tree of the entry, and
its words are entries of height `below`. -/
inductive Table (mem : A → I → W) : ℕ → W → ℕ → A → Prop
  | root {height entry p} (hchild : F.child (height + 1) entry = some p) :
      Table mem (height + 1) entry height p
  | inner {height entry q i k p} (hchild : F.child (height + 1) entry = some q)
      (hslot : i ∈ F.slots height) (hrest : Table mem height (mem q i) k p) :
      Table mem (height + 1) entry k p

variable {F} {mem mem' : A → I → W} {height : ℕ} {entry : W} {p : A}

/-- An empty entry reaches nothing. -/
theorem frames_of_empty (h : F.child height entry = none) : frames F mem height entry = 0 := by
  cases height <;> simp [frames, h]

/-- A data entry reaches the one frame it names. -/
theorem frames_data (h : F.child 0 entry = some p) : frames F mem 0 entry = {p} := by
  simp [frames, h]

/-- A table entry reaches its table and whatever the slots of the table reach. -/
theorem frames_table (h : F.child (height + 1) entry = some p) :
    frames F mem (height + 1) entry = p ::ₘ ∑ i ∈ F.slots height, frames F mem height (mem p i) := by
  simp [frames, h]

/-- Two entries that name the same frame reach the same frames. -/
theorem frames_eq_of_child {other : W} (h : F.child height entry = F.child height other) :
    frames F mem height entry = frames F mem height other := by
  cases height <;> simp [frames, h]

/-- The frames reached by one entry of a forest are among those of the forest. -/
theorem forestFrames_cons (top : ℕ × W) (forest : Multiset (ℕ × W)) :
    forestFrames F mem (top ::ₘ forest) = frames F mem top.1 top.2 + forestFrames F mem forest := by
  simp [forestFrames]

/-- A forest of one tree reaches what the tree does. -/
theorem forestFrames_singleton (top : ℕ × W) : forestFrames F mem {top} = frames F mem top.1 top.2 := by
  rw [forestFrames, map_singleton, sum_singleton]

/-- The frames of two forests together. -/
theorem forestFrames_add (first second : Multiset (ℕ × W)) :
    forestFrames F mem (first + second) = forestFrames F mem first + forestFrames F mem second := by
  simp [forestFrames]

variable {forest : Multiset (ℕ × W)} {below : ℕ} {words : I → W} {s : Finset I} {i : I}

/-- What an entry of a forest reaches, the forest reaches. -/
theorem mem_forestFrames {top : ℕ × W} (htop : top ∈ forest) (h : p ∈ frames F mem top.1 top.2) :
    p ∈ forestFrames F mem forest := by
  obtain ⟨others, rfl⟩ := exists_cons_of_mem htop
  rw [forestFrames_cons]
  exact mem_add.mpr (.inl h)

/-- A table of a tree is one of the frames the tree reaches. -/
theorem Table.mem_frames (h : Table F mem height entry below p) : p ∈ frames F mem height entry := by
  induction h with
  | root hchild =>
    rw [frames_table hchild]
    exact mem_cons_self _ _
  | inner hchild hslot _ ih =>
    rw [frames_table hchild]
    exact mem_cons_of_mem (mem_sum.mpr ⟨_, hslot, ih⟩)

/-- Memories that agree on the tables of a tree give it the same frames. -/
theorem frames_congr_tables (h : ∀ below q, Table F mem height entry below q → mem' q = mem q) :
    frames F mem' height entry = frames F mem height entry := by
  induction height generalizing entry with
  | zero => rfl
  | succ height ih =>
    cases hchild : F.child (height + 1) entry with
    | none => rw [frames_of_empty hchild, frames_of_empty hchild]
    | some p =>
      rw [frames_table hchild, frames_table hchild, h height p (.root hchild)]
      congr 1
      apply Finset.sum_congr rfl
      intro i hi
      apply ih
      intro below q hq
      exact h below q (.inner hchild hi hq)

/-- Memories that agree on the frames an entry reaches give it the same frames. -/
theorem frames_congr (h : ∀ q ∈ frames F mem height entry, mem' q = mem q) :
    frames F mem' height entry = frames F mem height entry :=
  frames_congr_tables fun _ q hq => h q hq.mem_frames

/-- Memories that agree on the tables of a forest give it the same frames. -/
theorem forestFrames_congr_tables
    (h : ∀ top ∈ forest, ∀ below q, Table F mem top.1 top.2 below q → mem' q = mem q) :
    forestFrames F mem' forest = forestFrames F mem forest := by
  rw [forestFrames, forestFrames]
  congr 1
  apply map_congr rfl
  intro top htop
  exact frames_congr_tables (h top htop)

/-- Memories that agree on the frames of a forest give it the same frames. -/
theorem forestFrames_congr (h : ∀ q ∈ forestFrames F mem forest, mem' q = mem q) :
    forestFrames F mem' forest = forestFrames F mem forest :=
  forestFrames_congr_tables fun _ htop _ q hq => h q (mem_forestFrames htop hq.mem_frames)

/-- A slot of a table that names a table leads one level further down. -/
theorem Table.descend {q : A} (h : Table F mem height entry (below + 1) p)
    (hslot : i ∈ F.slots (below + 1)) (hchild : F.child (below + 1) (mem p i) = some q) :
    Table F mem height entry below q := by
  generalize hk : below + 1 = k at h
  induction h with
  | root htop =>
    subst hk
    exact .inner htop hslot (.root hchild)
  | inner htop hmid _ ih => exact .inner htop hmid (ih hchild hk)

/-- Being a table of a tree only depends on the memory of the frames of that tree. -/
theorem Table.congr (h : Table F mem height entry below p)
    (hmem : ∀ q ∈ frames F mem height entry, mem' q = mem q) : Table F mem' height entry below p := by
  induction h with
  | root hchild => exact .root hchild
  | @inner height entry q i k p hchild hslot hrest ih =>
    rw [frames_table hchild] at hmem
    refine .inner hchild hslot ?_
    rw [hmem q (mem_cons_self _ _)]
    apply ih
    intro r hr
    exact hmem r (mem_cons_of_mem (mem_sum.mpr ⟨i, hslot, hr⟩))

section Sums

variable [DecidableEq I]

/-- Replacing one term of a sum exchanges that term for the new one. -/
theorem sum_exchange {M : Type*} [AddCommMonoid M] (hi : i ∈ s) {g g' : I → M}
    (h : ∀ j ∈ s, j ≠ i → g' j = g j) : ∑ j ∈ s, g' j + g i = ∑ j ∈ s, g j + g' i := by
  have hrest : ∑ j ∈ s.erase i, g' j = ∑ j ∈ s.erase i, g j := by
    apply Finset.sum_congr rfl
    intro j hj
    exact h j (Finset.mem_of_mem_erase hj) (Finset.ne_of_mem_erase hj)
  rw [← Finset.add_sum_erase s g' hi, ← Finset.add_sum_erase s g hi, hrest]
  abel

/-- Distinct terms of a duplicate-free sum have no element in common. -/
theorem not_mem_of_sum_nodup {g : I → Multiset A} (hnodup : (∑ j ∈ s, g j).Nodup) {j : I} (hi : i ∈ s)
    (hj : j ∈ s) (hne : j ≠ i) (hp : p ∈ g i) : p ∉ g j := by
  rw [← Finset.add_sum_erase s g hi, nodup_add] at hnodup
  intro hpj
  exact disjoint_left.mp hnodup.2.2 hp (mem_sum.mpr ⟨j, Finset.mem_erase.mpr ⟨hne, hj⟩, hpj⟩)

end Sums

/-- Each slot of a duplicate-free table reaches a frame at most once. -/
theorem slot_nodup {g : I → Multiset A} (hnodup : (∑ j ∈ s, g j).Nodup) {i : I} (hi : i ∈ s) : (g i).Nodup :=
  nodup_of_le (Finset.single_le_sum (fun _ _ => zero_le _) hi) hnodup

/-- In a duplicate-free tree a table is not reached again from its own slots. -/
theorem Table.not_mem_slots (h : Table F mem height entry below p) (hnodup : (frames F mem height entry).Nodup) :
    p ∉ ∑ i ∈ F.slots below, frames F mem below (mem p i) := by
  induction h with
  | root hchild =>
    rw [frames_table hchild, nodup_cons] at hnodup
    exact hnodup.1
  | inner hchild hslot _ ih =>
    rw [frames_table hchild, nodup_cons] at hnodup
    exact ih (slot_nodup hnodup.2 hslot)

section Update

variable [DecidableEq A]

/-- Replacing the words of a frame outside the frames an entry reaches does not change them. -/
theorem frames_update_of_not_mem (h : p ∉ frames F mem height entry) :
    frames F (Function.update mem p words) height entry = frames F mem height entry := by
  apply frames_congr
  intro q hq
  apply update_of_ne
  rintro rfl
  exact h hq

/-- Replacing the words of a frame outside a forest does not change what the forest reaches. -/
theorem forestFrames_update_of_not_mem (h : p ∉ forestFrames F mem forest) :
    forestFrames F (Function.update mem p words) forest = forestFrames F mem forest := by
  apply forestFrames_congr
  intro q hq
  apply update_of_ne
  rintro rfl
  exact h hq

/-- Replacing the words of a table of a duplicate-free tree keeps it a table of that tree. -/
theorem Table.update (h : Table F mem height entry below p) (hnodup : (frames F mem height entry).Nodup)
    (words : I → W) : Table F (Function.update mem p words) height entry below p := by
  induction h with
  | root hchild => exact .root hchild
  | @inner height entry q j k p hchild hslot hrest ih =>
    rw [frames_table hchild, nodup_cons] at hnodup
    have hqp : q ≠ p := by
      rintro rfl
      exact hnodup.1 (mem_sum.mpr ⟨j, hslot, hrest.mem_frames⟩)
    refine .inner hchild hslot ?_
    rw [update_of_ne hqp]
    exact ih (slot_nodup hnodup.2 hslot)

variable [DecidableEq I]

/-- Replacing the words of a table in a duplicate-free tree exchanges what the old words
reached for what the new words reach. -/
theorem Table.frames_update (h : Table F mem height entry below p) (hnodup : (frames F mem height entry).Nodup)
    (hnew : p ∉ ∑ i ∈ F.slots below, frames F mem below (words i)) :
    frames F (Function.update mem p words) height entry + ∑ i ∈ F.slots below, frames F mem below (mem p i) =
      frames F mem height entry + ∑ i ∈ F.slots below, frames F mem below (words i) := by
  induction h with
  | @root height entry p hchild =>
    have hslots : ∑ i ∈ F.slots height, frames F (Function.update mem p words) height (words i) =
        ∑ i ∈ F.slots height, frames F mem height (words i) := by
      apply Finset.sum_congr rfl
      intro i hi
      exact frames_update_of_not_mem fun hp => hnew (mem_sum.mpr ⟨i, hi, hp⟩)
    rw [frames_table hchild, frames_table hchild, update_self, hslots, cons_add, cons_add, add_comm]
  | @inner height entry q j k p hchild hslot hrest ih =>
    rw [frames_table hchild, nodup_cons] at hnodup
    have hpj := hrest.mem_frames
    have hqp : q ≠ p := by
      rintro rfl
      exact hnodup.1 (mem_sum.mpr ⟨j, hslot, hpj⟩)
    have hothers : ∀ l ∈ F.slots height, l ≠ j → frames F (Function.update mem p words) height (mem q l) =
          frames F mem height (mem q l) := by
      intro l hl hne
      exact frames_update_of_not_mem (not_mem_of_sum_nodup hnodup.2 hslot hl hne hpj)
    have hsum := sum_exchange hslot hothers
    have hinner := ih (slot_nodup hnodup.2 hslot) hnew
    rw [frames_table hchild, frames_table hchild, update_of_ne hqp, cons_add, cons_add]
    congr 1
    apply add_right_cancel (b := frames F mem height (mem q j))
    calc _ = (∑ l ∈ F.slots height, frames F (Function.update mem p words) height (mem q l) +
          frames F mem height (mem q j)) + ∑ i ∈ F.slots k, frames F mem k (mem p i) := by abel
      _ = ∑ l ∈ F.slots height, frames F mem height (mem q l) +
          (frames F (Function.update mem p words) height (mem q j) +
            ∑ i ∈ F.slots k, frames F mem k (mem p i)) := by
        rw [hsum]; abel
      _ = _ := by rw [hinner]; abel

end Update

/-!
## Paths through a radix tree

A path is the list of slots taken from an entry downwards. Following it reaches at most
one frame, and in a tree that reaches no frame twice two paths to one frame are the same.
The words of a table therefore matter only to the paths through that table, which is what
the update rules say. The module also carries properties of every entry of a tree through
such updates.
-/

open Option

variable [DecidableEq I] (F : Format A W I)

/-- The frame reached from an entry of the given height by taking the slots of a path. -/
def follow (mem : A → I → W) : ℕ → W → List I → Option A
  | height, entry, [] => F.child height entry
  | 0, _, _ :: _ => none
  | height + 1, entry, i :: path =>
    (F.child (height + 1) entry).bind fun p =>
      if i ∈ F.slots height then follow mem height (mem p i) path else none

/-- Every entry of the tree below an entry, itself included, has the property. -/
def Every (P : ℕ → W → Prop) (mem : A → I → W) : ℕ → W → Prop
  | 0, entry => P 0 entry
  | height + 1, entry => P (height + 1) entry ∧
      ∀ p, F.child (height + 1) entry = some p → ∀ i ∈ F.slots height, Every P mem height (mem p i)

variable {F} {mem mem' : A → I → W} {height below : ℕ} {entry : W} {p q : A} {i : I}
  {path : List I} {P : ℕ → W → Prop}

/-- Below an empty entry no path reaches a frame. -/
theorem follow_of_empty (h : F.child height entry = none) : follow F mem height entry path = none := by
  cases path with
  | nil => cases height <;> exact h
  | cons i path =>
    cases height with
    | zero => rfl
    | succ height => simp [follow, h]

/-- The empty path reaches the frame that the entry names. -/
@[simp] theorem follow_nil : follow F mem height entry [] = F.child height entry := by
  cases height <;> rfl

/-- A path into a table goes on from the word in its first slot. -/
theorem follow_cons (h : F.child (height + 1) entry = some p) :
    follow F mem (height + 1) entry (i :: path) =
      if i ∈ F.slots height then follow F mem height (mem p i) path else none := by
  simp [follow, h]

/-- A path that reaches a frame through a slot goes through a table. -/
theorem follow_cons_some (h : follow F mem height entry (i :: path) = some q) :
    ∃ below p, height = below + 1 ∧ F.child (below + 1) entry = some p ∧ i ∈ F.slots below ∧
      follow F mem below (mem p i) path = some q := by
  cases height with
  | zero => simp [follow] at h
  | succ below =>
    cases hchild : F.child (below + 1) entry with
    | none => rw [follow_of_empty hchild] at h; cases h
    | some p =>
      rw [follow_cons hchild] at h
      split_ifs at h with hslot
      exact ⟨below, p, rfl, hchild, hslot, h⟩

/-- A frame at the end of a path is one of the frames of the tree. -/
theorem follow_mem_frames (h : follow F mem height entry path = some q) : q ∈ frames F mem height entry := by
  induction path generalizing height entry with
  | nil =>
    rw [follow_nil] at h
    cases height with
    | zero => rw [frames_data h]; exact mem_singleton_self q
    | succ height => rw [frames_table h]; exact mem_cons_self _ _
  | cons i path ih =>
    obtain ⟨below, p, rfl, hchild, hslot, hrest⟩ := follow_cons_some h
    rw [frames_table hchild]
    exact mem_cons_of_mem (mem_sum.mpr ⟨i, hslot, ih hrest⟩)

/-- Where memories agree on the tables of a tree, paths reach the same frames. -/
theorem follow_congr_tables (h : ∀ below q, Table F mem height entry below q → mem' q = mem q) :
    follow F mem' height entry path = follow F mem height entry path := by
  induction path generalizing height entry with
  | nil => rw [follow_nil, follow_nil]
  | cons i path ih =>
    cases height with
    | zero => rfl
    | succ height =>
      cases hchild : F.child (height + 1) entry with
      | none => rw [follow_of_empty hchild, follow_of_empty hchild]
      | some p =>
        rw [follow_cons hchild, follow_cons hchild, h height p (.root hchild)]
        split_ifs with hslot
        · apply ih
          intro below q hq
          exact h below q (.inner hchild hslot hq)
        · rfl

/-- Where memories agree on the frames of a tree, paths reach the same frames. -/
theorem follow_congr (h : ∀ q ∈ frames F mem height entry, mem' q = mem q) :
    follow F mem' height entry path = follow F mem height entry path :=
  follow_congr_tables fun _ q hq => h q hq.mem_frames

/-- In a duplicate-free tree two paths to one frame are the same path. -/
theorem follow_injective {other : List I} (hnodup : (frames F mem height entry).Nodup)
    (h : follow F mem height entry path = some q)
    (hother : follow F mem height entry other = some q) : path = other := by
  -- a frame below a table is not the table itself
  have hbelow : ∀ {height : ℕ} {entry : W} {i : I} {path : List I},
      (frames F mem height entry).Nodup → F.child height entry = some q →
      follow F mem height entry (i :: path) ≠ some q := by
    intro height entry i path hnodup hself hthrough
    obtain ⟨below, p, rfl, hchild, hslot, hrest⟩ := follow_cons_some hthrough
    cases hchild.symm.trans hself
    rw [frames_table hchild, nodup_cons] at hnodup
    exact hnodup.1 (mem_sum.mpr ⟨i, hslot, follow_mem_frames hrest⟩)
  induction path generalizing height entry other with
  | nil =>
    cases other with
    | nil => rfl
    | cons j other => exact absurd hother (hbelow hnodup (follow_nil.symm.trans h))
  | cons i path ih =>
    cases other with
    | nil => exact absurd h (hbelow hnodup (follow_nil.symm.trans hother))
    | cons j other =>
      obtain ⟨below, p, rfl, hchild, hslot, hrest⟩ := follow_cons_some h
      rw [follow_cons hchild] at hother
      split_ifs at hother with hslot'
      rw [frames_table hchild, nodup_cons] at hnodup
      by_cases hij : i = j
      · subst hij
        rw [ih (slot_nodup hnodup.2 hslot) hrest hother]
      · exact absurd (follow_mem_frames hother)
          (not_mem_of_sum_nodup hnodup.2 hslot hslot' (Ne.symm hij) (follow_mem_frames hrest))

/-- A path through a table continues from the word in the next slot. -/
theorem follow_append {rest : List I} (h : follow F mem (path.length + below + 1) entry path = some p) :
    follow F mem (path.length + below + 1) entry (path ++ i :: rest) =
      if i ∈ F.slots below then follow F mem below (mem p i) rest else none := by
  induction path generalizing entry with
  | nil =>
    rw [follow_nil] at h
    rw [List.length_nil, Nat.zero_add] at h ⊢
    rw [List.nil_append, follow_cons h]
  | cons j path ih =>
    rw [List.length_cons, Nat.add_right_comm _ 1] at h ⊢
    obtain ⟨height, q, hsucc, hchild, hslot, hrest⟩ := follow_cons_some h
    cases hsucc
    rw [List.cons_append, follow_cons hchild, if_pos hslot, ih hrest]

/-- The end of a path is a table whose words have the remaining height. -/
theorem Table.of_follow (h : follow F mem (path.length + below + 1) entry path = some p) :
    Table F mem (path.length + below + 1) entry below p := by
  induction path generalizing entry with
  | nil =>
    rw [follow_nil] at h
    rw [List.length_nil, Nat.zero_add] at h ⊢
    exact .root h
  | cons j path ih =>
    rw [List.length_cons, Nat.add_right_comm _ 1] at h ⊢
    obtain ⟨height, q, hsucc, hchild, hslot, hrest⟩ := follow_cons_some h
    cases hsucc
    exact .inner hchild hslot (ih hrest)

/-- Every table of a tree is at the end of a path. -/
theorem Table.exists_follow (h : Table F mem height entry below p) :
    ∃ path : List I, path.length + below + 1 = height ∧ follow F mem height entry path = some p := by
  induction h with
  | root hchild => exact ⟨[], by simp, follow_nil.trans hchild⟩
  | @inner height entry q i k p hchild hslot _ ih =>
    obtain ⟨path, hlength, hpath⟩ := ih
    refine ⟨i :: path, by rw [List.length_cons]; omega, ?_⟩
    rw [follow_cons hchild, if_pos hslot, hpath]

/-- In a duplicate-free tree the frame at the end of a path of full length is no table. -/
theorem not_table_of_follow (hnodup : (frames F mem height entry).Nodup)
    (hlength : path.length = height) (h : follow F mem height entry path = some p) :
    ¬ Table F mem height entry below p := by
  intro htable
  obtain ⟨other, hother, hfollow⟩ := htable.exists_follow
  obtain rfl := follow_injective hnodup h hfollow
  omega

omit [DecidableEq I] in
/-- In a duplicate-free tree a table is not reached again from one of its slots. -/
theorem Table.not_mem_slot (h : Table F mem height entry below p)
    (hnodup : (frames F mem height entry).Nodup) (hslot : i ∈ F.slots below) :
    p ∉ frames F mem below (mem p i) :=
  fun hmem => h.not_mem_slots hnodup (mem_sum.mpr ⟨i, hslot, hmem⟩)

omit [DecidableEq I] in
/-- A property of every entry holds of the words of every table. -/
theorem Every.word (h : Every F P mem height entry) (htable : Table F mem height entry below p)
    (hslot : i ∈ F.slots below) : Every F P mem below (mem p i) := by
  induction htable with
  | root hchild => exact h.2 _ hchild i hslot
  | inner hchild hmid _ ih => exact ih (h.2 _ hchild _ hmid) hslot

omit [DecidableEq I] in
/-- A property of every entry holds of the entry itself. -/
theorem Every.self (h : Every F P mem height entry) : P height entry := by
  cases height with
  | zero => exact h
  | succ height => exact h.1

omit [DecidableEq I] in
/-- An empty entry has only itself to speak for. -/
theorem Every.of_empty (hempty : F.child height entry = none) (h : P height entry) :
    Every F P mem height entry := by
  cases height with
  | zero => exact h
  | succ height =>
    refine ⟨h, fun p hp => ?_⟩
    rw [hempty] at hp
    cases hp

omit [DecidableEq I] in
/-- Where memories agree on the tables of a tree, its entries have the same properties. -/
theorem Every.congr_tables (h : Every F P mem height entry)
    (hmem : ∀ below q, Table F mem height entry below q → mem' q = mem q) :
    Every F P mem' height entry := by
  induction height generalizing entry with
  | zero => exact h
  | succ height ih =>
    refine ⟨h.1, fun p hchild i hslot => ?_⟩
    rw [hmem height p (.root hchild)]
    apply ih (h.2 p hchild i hslot)
    intro below q hq
    exact hmem below q (.inner hchild hslot hq)

omit [DecidableEq I] in
/-- Where memories agree on the frames of a tree, its entries have the same properties. -/
theorem Every.congr (h : Every F P mem height entry)
    (hmem : ∀ q ∈ frames F mem height entry, mem' q = mem q) : Every F P mem' height entry :=
  h.congr_tables fun _ q hq => hmem q hq.mem_frames

section Update

variable [DecidableEq A] {words : I → W} {way : List I}

/-- Replacing the words of a table changes only the paths that leave it through a slot whose
word is another one. -/
theorem follow_update_of_same (hnodup : (frames F mem height entry).Nodup)
    (hway : follow F mem height entry way = some q)
    (hsame : ∀ i rest, path = way ++ i :: rest → words i = mem q i) :
    follow F (Function.update mem q words) height entry path = follow F mem height entry path := by
  induction path generalizing height entry way with
  | nil => rw [follow_nil, follow_nil]
  | cons j path ih =>
    cases height with
    | zero => rfl
    | succ height =>
      cases hchild : F.child (height + 1) entry with
      | none => rw [follow_of_empty hchild, follow_of_empty hchild]
      | some p =>
        rw [frames_table hchild, nodup_cons] at hnodup
        rw [follow_cons hchild, follow_cons hchild]
        split_ifs with hslot
        · cases way with
          | nil =>
            cases hchild.symm.trans (follow_nil.symm.trans hway)
            rw [update_self, hsame j path rfl]
            apply follow_congr
            intro r hr
            apply update_of_ne
            rintro rfl
            exact hnodup.1 (mem_sum.mpr ⟨j, hslot, hr⟩)
          | cons k way =>
            obtain ⟨below, p', hsucc, hchild', hslot', hrest⟩ := follow_cons_some hway
            cases hsucc
            cases hchild.symm.trans hchild'
            have hq := follow_mem_frames hrest
            have hne : p ≠ q := by
              rintro rfl
              exact hnodup.1 (mem_sum.mpr ⟨k, hslot', hq⟩)
            rw [update_of_ne hne]
            by_cases hjk : j = k
            · subst hjk
              apply ih (slot_nodup hnodup.2 hslot) hrest
              intro i rest hpath
              exact hsame i rest (by rw [hpath, List.cons_append])
            · apply follow_congr
              intro r hr
              apply update_of_ne
              rintro rfl
              exact not_mem_of_sum_nodup hnodup.2 hslot' hslot hjk hq hr
        · rfl

/-- Replacing the words of a table: a path through the table goes on from the new word. -/
theorem follow_update_append {rest : List I} (hnodup : (frames F mem (way.length + below + 1) entry).Nodup)
    (hway : follow F mem (way.length + below + 1) entry way = some q) :
    follow F (Function.update mem q words) (way.length + below + 1) entry (way ++ i :: rest) =
      if i ∈ F.slots below then follow F (Function.update mem q words) below (words i) rest
      else none := by
  have hstill : follow F (update mem q words) (way.length + below + 1) entry way = some q := by
    rw [follow_update_of_same hnodup hway, hway]
    intro i rest hself
    have hlength := congrArg List.length hself
    rw [List.length_append, List.length_cons] at hlength
    omega
  rw [follow_append hstill, update_self]

/-- Replacing the words of a table keeps a property of every entry if the new words have it. -/
theorem Every.update (h : Every F P mem height entry) (htable : Table F mem height entry below q)
    (hnodup : (frames F mem height entry).Nodup)
    (hnew : ∀ i ∈ F.slots below, Every F P mem below (words i) ∧ q ∉ frames F mem below (words i)) :
    Every F P (Function.update mem q words) height entry := by
  have hoff : ∀ {height : ℕ} {entry : W}, q ∉ frames F mem height entry →
      Every F P mem height entry → Every F P (Function.update mem q words) height entry := by
    intro height entry hq hevery
    apply hevery.congr
    intro r hr
    apply update_of_ne
    rintro rfl
    exact hq hr
  induction htable with
  | root hchild =>
    refine ⟨h.1, fun p hp i hslot => ?_⟩
    cases hchild.symm.trans hp
    rw [update_self]
    exact hoff (hnew i hslot).2 (hnew i hslot).1
  | @inner height entry r j k q hchild hslot hrest ih =>
    refine ⟨h.1, fun p hp i hi => ?_⟩
    cases hchild.symm.trans hp
    rw [frames_table hchild, nodup_cons] at hnodup
    have hq := hrest.mem_frames
    have hne : r ≠ q := by
      rintro rfl
      exact hnodup.1 (mem_sum.mpr ⟨j, hslot, hq⟩)
    rw [update_of_ne hne]
    by_cases hij : i = j
    · subst hij
      exact ih (h.2 r hchild i hi) (slot_nodup hnodup.2 hi) hnew hoff
    · exact hoff (not_mem_of_sum_nodup hnodup.2 hslot hi hij hq) (h.2 r hchild i hi)

end Update

end Windoge.FrameTree
