import Windoge.Paging.Reclaim

/-!
# What an address space maps

An address space is seen from outside as the leaf entries under which it maps user pages
and as the contents of these pages. This module says which address spaces are left
untouched, page by page, when one table is given other words. It rests on marked trees:
every table entry carries the user flags and every page entry the user bit, as all entries
made by `map_user_page` do, so that the walk of the source and the path through the tree
are the same.
-/

namespace Windoge.Paging

open FrameTree FreeList List Option Multiset

/-- The slots that lead from a PML4 to the page table of a virtual address. -/
def tablePath (virtAddr : Word) : List (Fin 512) :=
  [tableIndex 39 virtAddr, tableIndex 30 virtAddr, tableIndex 21 virtAddr]

/-- The slots that lead from a PML4 to the page of a virtual address. -/
def pagePath (virtAddr : Word) : List (Fin 512) := tablePath virtAddr ++ [tableIndex 12 virtAddr]

/-- The leaf entry under which the address space of a PML4 maps the page of an address. -/
def userMapping (s : Mmu) (root virtAddr : Word) : Option Word :=
  (walkUserTables s root (tablePath virtAddr)).bind fun table =>
    if isUserPage (s.mem table (tableIndex 12 virtAddr)) then
      some (s.mem table (tableIndex 12 virtAddr))
    else none

/-- A page is mapped as before and its contents are as before. -/
def Untouched (s s' : Mmu) (root virtAddr : Word) : Prop :=
  userMapping s' root virtAddr = userMapping s root virtAddr ∧
    ∀ entry, userMapping s root virtAddr = some entry →
      s'.mem (entry &&& pageAddressMask) = s.mem (entry &&& pageAddressMask)

/-- Every entry below the PML4 is marked. -/
def Marked (s : Mmu) (root : Word) : Prop := Every pageFormat EntryMarked s.mem 4 root

variable {memmap : List MemmapEntry} {all : FrameSet} {s s' s'' : Mmu} {forest : Forest}
  {held : Multiset Word} {root virtAddr entry table : Word}

theorem userPageTable_eq : userPageTable virtAddr s = walkUserTables s s.loaded (tablePath virtAddr) := rfl

theorem userPageMapped_iff : userPageMapped virtAddr s = true ↔ (userMapping s s.loaded virtAddr).isSome := by
  rw [userPageMapped, userMapping, userPageTable_eq]
  cases walkUserTables s s.loaded (tablePath virtAddr) with
  | none => simp
  | some table => by_cases huser : isUserPage (s.mem table (tableIndex 12 virtAddr)) <;> simp [huser]

theorem Untouched.refl : Untouched s s root virtAddr := ⟨rfl, fun _ _ => rfl⟩

theorem Untouched.trans (h : Untouched s s' root virtAddr) (h' : Untouched s' s'' root virtAddr) :
    Untouched s s'' root virtAddr := by
  refine ⟨h'.1.trans h.1, fun entry hentry => ?_⟩
  rw [h'.2 entry (h.1.trans hentry), h.2 entry hentry]

theorem isUserTable_of_flags (h : entry ||| pageUserFlags = entry) : isUserTable entry = true := by
  have hmask : pageUserFlags &&& (pagePresent ||| pageUser) = pagePresent ||| pageUser := by decide
  have habsorb : entry &&& (pagePresent ||| pageUser) ||| (pagePresent ||| pageUser) =
      pagePresent ||| pageUser := by
    ext i
    simp
  rw [isUserTable, decide_eq_true_eq, ← h, or_and_mask, hmask, habsorb]

/-- In a marked tree the walk of the source takes the path of the tree. -/
theorem walkUserTables_eq_follow {below : ℕ} {indices : List (Fin 512)} (hlength : indices.length = below)
    (hlevels : below ≤ 3) (hchild : pageFormat.child (below + 1) entry = some table)
    (hslots : ∀ i rest, indices = i :: rest → i ∈ pageFormat.slots below)
    (hmarked : Every pageFormat EntryMarked s.mem (below + 1) entry) :
    walkUserTables s table indices = follow pageFormat s.mem (below + 1) entry indices := by
  induction indices generalizing below entry table with
  | nil => rw [walkUserTables, follow_nil, hchild]
  | cons i rest ih =>
    subst hlength
    have hslot := hslots i rest rfl
    have hword := hmarked.2 table hchild i hslot
    have hself := (entryMarked_table (Nat.succ_pos rest.length) (Nat.lt_succ_of_le hlevels)).mp hword.self
    rw [walkUserTables, follow_cons hchild, if_pos hslot]
    by_cases hpresent : s.mem table i &&& pagePresent = 0
    · have habsent : isUserTable (s.mem table i) ≠ true := fun huser => isUserTable_present huser hpresent
      rw [if_neg habsent, length_cons,
        follow_of_empty (child_absent (Nat.succ_pos _) (Nat.lt_succ_of_le hlevels) hpresent)]
    · rw [if_pos (isUserTable_of_flags (hself hpresent))]
      apply ih rfl (Nat.le_of_succ_le hlevels)
        (child_present (Nat.succ_pos _) (Nat.lt_succ_of_le hlevels) hpresent) _ hword
      intro j _ _
      exact mem_slots (ne_of_lt hlevels)

theorem tablePath_slots (hvirt : virtAddr < 0x800000000000) (i : Fin 512)
    (rest : List (Fin 512)) (h : tablePath virtAddr = i :: rest) : i ∈ pageFormat.slots 3 := by
  cases h
  exact tableIndex_lower hvirt

/-- What a marked address space maps, by the path through its tree. -/
theorem userMapping_eq (hmarked : Marked s root) (hvirt : virtAddr < 0x800000000000) :
    userMapping s root virtAddr = (follow pageFormat s.mem 4 root (tablePath virtAddr)).bind fun table =>
        if isUserPage (s.mem table (tableIndex 12 virtAddr)) then
          some (s.mem table (tableIndex 12 virtAddr))
        else none := by
  have hlength : (tablePath virtAddr).length = 3 := rfl
  rw [userMapping, walkUserTables_eq_follow hlength le_rfl (child_cr3 root) (tablePath_slots hvirt) hmarked]

/-- A mapping is a leaf word that holds a user page. -/
theorem userMapping_eq_some :
    userMapping s root virtAddr = some entry ↔ ∃ table, walkUserTables s root (tablePath virtAddr) = some table ∧
        s.mem table (tableIndex 12 virtAddr) = entry ∧ isUserPage entry = true := by
  rw [userMapping, bind_eq_some_iff]
  constructor
  · rintro ⟨table, hwalk, hentry⟩
    split_ifs at hentry with huser
    cases hentry
    exact ⟨table, hwalk, rfl, huser⟩
  · rintro ⟨table, hwalk, rfl, huser⟩
    exact ⟨table, hwalk, if_pos huser⟩

/-- The page of a mapping is at the end of the path of its address. -/
theorem follow_page (hmarked : Marked s root) (hvirt : virtAddr < 0x800000000000)
    (h : userMapping s root virtAddr = some entry) :
    follow pageFormat s.mem 4 root (pagePath virtAddr) = some (entry &&& pageAddressMask) := by
  rw [userMapping_eq hmarked hvirt] at h
  obtain ⟨table, htable, hentry⟩ := bind_eq_some_iff.mp h
  split_ifs at hentry with huser
  cases hentry
  have haddr : s.mem table (tableIndex 12 virtAddr) &&& pageAddressMask ≠ 0 := by
    simp only [isUserPage, decide_eq_true_eq] at huser
    exact huser.2
  have hpath := @follow_append _ _ _ _ pageFormat s.mem 0 root table (tableIndex 12 virtAddr)
    (tablePath virtAddr) [] htable
  rwa [if_pos (mem_slots (by decide)), follow_nil, child_leaf haddr] at hpath

theorem table_of_follow {below : ℕ} {way : List (Fin 512)} (hheight : way.length + below + 1 = 4)
    (hway : follow pageFormat s.mem 4 root way = some table) :
    Table pageFormat s.mem 4 root below table := by
  rw [← hheight] at hway ⊢
  exact Table.of_follow hway

theorem Balanced.space_nodup (h : Balanced memmap all s forest held) (hroot : (4, root) ∈ forest) :
    (frames pageFormat s.mem 4 root).Nodup := by
  obtain ⟨others, rfl⟩ := exists_cons_of_mem hroot
  have hnodup := (nodup_add.mp h.fits.nodup).1
  rw [forestFrames_cons, nodup_add] at hnodup
  exact hnodup.1

/-- An address space whose frames are left alone maps what it did, with the same contents. -/
theorem Marked.keep (hmarked : Marked s root)
    (hmem : ∀ frame ∈ frames pageFormat s.mem 4 root, s'.mem frame = s.mem frame) :
    Marked s' root ∧ ∀ virtAddr < 0x800000000000, Untouched s s' root virtAddr := by
  have hmarked' : Marked s' root := Every.congr hmarked hmem
  refine ⟨hmarked', fun virtAddr hvirt => ⟨?_, fun entry hentry => ?_⟩⟩
  · rw [userMapping_eq hmarked' hvirt, userMapping_eq hmarked hvirt, follow_congr hmem]
    cases htable : follow pageFormat s.mem 4 root (tablePath virtAddr) with
    | none => rfl
    | some table => simp only [bind_some, hmem table (follow_mem_frames htable)]
  · exact hmem _ (follow_mem_frames (follow_page hmarked hvirt hentry))

section Fill

variable {below : ℕ} {way : List (Fin 512)} {words : Fin 512 → Word}
  (hmarked : Marked s root) (hnodup : (frames pageFormat s.mem 4 root).Nodup)
  (hheight : way.length + below + 1 = 4)
  (hway : follow pageFormat s.mem 4 root way = some table)
  (hwords : ∀ i ∈ pageFormat.slots below, Every pageFormat EntryMarked s.mem below (words i) ∧
    table ∉ frames pageFormat s.mem below (words i))

include hmarked hnodup hheight hway hwords

theorem Marked.fill : Marked (s.fill table words) root :=
  Every.update hmarked (table_of_follow hheight hway) hnodup hwords

/-- Giving a table other words leaves the pages alone that are not reached through a slot
whose word is another one. -/
theorem Marked.fill_untouched (hvirt : virtAddr < 0x800000000000)
    (hsame : ∀ i rest, pagePath virtAddr = way ++ i :: rest → words i = s.mem table i) :
    Untouched s (s.fill table words) root virtAddr := by
  have hmarked' := hmarked.fill hnodup hheight hway hwords
  have hfollow : follow pageFormat (s.fill table words).mem 4 root (tablePath virtAddr) =
      follow pageFormat s.mem 4 root (tablePath virtAddr) := by
    apply follow_update_of_same hnodup hway
    intro i rest hpath
    apply hsame i (rest ++ [tableIndex 12 virtAddr])
    rw [pagePath, hpath, append_assoc, cons_append]
  refine ⟨?_, fun entry hentry => ?_⟩
  · rw [userMapping_eq hmarked' hvirt, userMapping_eq hmarked hvirt, hfollow]
    cases hfound : follow pageFormat s.mem 4 root (tablePath virtAddr) with
    | none => rfl
    | some found =>
      have hword : (s.fill table words).mem found (tableIndex 12 virtAddr) =
          s.mem found (tableIndex 12 virtAddr) := by
        by_cases hfoundTable : found = table
        · -- the page table itself was filled
          subst hfoundTable
          have hpath := follow_injective hnodup hfound hway
          have hslot := hsame (tableIndex 12 virtAddr) [] (by rw [pagePath, hpath])
          simp [Mmu.fill, hslot]
        · simp [Mmu.fill, hfoundTable]
      simp only [bind_some, hword]
  · apply Function.update_of_ne
    intro hpage
    -- a page is at a path of length four, the table at a shorter one
    have hpath := follow_injective hnodup (follow_page hmarked hvirt hentry) (hpage ▸ hway)
    have hlength := congrArg length hpath
    simp only [pagePath, tablePath, length_append, length_cons, length_nil] at hlength
    omega

end Fill

/-!
## Address spaces side by side

`Spaces` is the state of a machine whose frames are accounted for exactly and whose page
tables are marked. `Touches` bounds what a step did: which pages of which address spaces
may be mapped otherwise or hold other contents. Allocating a table, the first half of
`map_user_page`, touches no page at all.
-/

open Function

/-- All frames are accounted for, all page tables are marked, and kernel halves hold no user
tables. -/
structure Spaces (memmap : List MemmapEntry) (all : FrameSet) (s : Mmu) (forest : Forest)
    (held : Multiset Word) : Prop where
  balanced : Balanced memmap all s forest held
  marked : ∀ top ∈ forest, Every pageFormat EntryMarked s.mem top.1 top.2
  kernel : ∀ root, (4, root) ∈ forest → KernelHalf s root

/-- A step changed at most the given pages of the given address spaces. -/
structure Touches (s s' : Mmu) (forest : Forest) (held : Multiset Word)
    (page : Word → Word → Prop) : Prop where
  untouched : ∀ root, (4, root) ∈ forest → ∀ virtAddr < 0x800000000000,
    ¬ page root virtAddr → Untouched s s' root virtAddr
  held : ∀ frame ∈ held, s'.mem frame = s.mem frame
  cr3 : s'.cr3 = s.cr3
  nxe : s'.nxe = s.nxe

variable {held' : Multiset Word} {root virtAddr table : Word} {page page' : Word → Word → Prop}

theorem loaded_mem_singleton (h : s.loaded = root) : (4, s.loaded) ∈ ({(4, root)} : Forest) := by
  rw [h, Multiset.mem_singleton]

theorem Touches.refl : Touches s s forest held page := ⟨fun _ _ _ _ _ => .refl, fun _ _ => rfl, rfl, rfl⟩

theorem Touches.trans (h : Touches s s' forest held page) (h' : Touches s' s'' forest held page) :
    Touches s s'' forest held page where
  untouched root hroot virtAddr hvirt hpage := (h.untouched root hroot virtAddr hvirt hpage).trans
      (h'.untouched root hroot virtAddr hvirt hpage)
  held frame hframe := (h'.held frame hframe).trans (h.held frame hframe)
  cr3 := h'.cr3.trans h.cr3
  nxe := h'.nxe.trans h.nxe

theorem Touches.mono (h : Touches s s' forest held page)
    (hpage : ∀ root virtAddr, page root virtAddr → page' root virtAddr)
    (hheld : ∀ frame ∈ held', frame ∈ held) : Touches s s' forest held' page' where
  untouched root hroot virtAddr hvirt hnot :=
    h.untouched root hroot virtAddr hvirt fun hp => hnot (hpage root virtAddr hp)
  held frame hframe := h.held frame (hheld frame hframe)
  cr3 := h.cr3
  nxe := h.nxe

namespace Spaces

theorem space_marked (h : Spaces memmap all s forest held) (hroot : (4, root) ∈ forest) :
    Marked s root := h.marked (4, root) hroot

/-- A step that leaves all page tables alone touches no page. -/
theorem keep {kept : Multiset Word} (h : Spaces memmap all s forest held)
    (hkeeps : Keeps s s' forest kept) (hbalanced : Balanced memmap all s' forest held') :
    Spaces memmap all s' forest held' ∧ Touches s s' forest kept fun _ _ => False := by
  have hframes : ∀ top ∈ forest, ∀ frame ∈ frames pageFormat s.mem top.1 top.2, s'.mem frame = s.mem frame := by
    intro top htop frame hframe
    exact hkeeps.mem frame (mem_add.mpr (.inl (mem_forestFrames htop hframe)))
  refine ⟨⟨hbalanced, fun top htop => (h.marked top htop).congr (hframes top htop), ?_⟩,
    ⟨?_, ?_, hkeeps.cr3, hkeeps.nxe⟩⟩
  · intro root hroot i hi
    rw [hkeeps.upper root hroot i hi]
    exact h.kernel root hroot i hi
  · intro root hroot virtAddr hvirt _
    exact ((h.space_marked hroot).keep (hframes (4, root) hroot)).2 virtAddr hvirt
  · intro frame hframe
    exact hkeeps.mem frame (mem_add.mpr (.inr hframe))

/-- A frame of one address space is no frame of another tree and is not held. -/
theorem apart {others : Forest} {frame : Word} (h : Balanced memmap all s ((4, root) ::ₘ others) held)
    (hframe : frame ∈ frames pageFormat s.mem 4 root) :
    frame ∉ forestFrames pageFormat s.mem others ∧ frame ∉ held := by
  have hnodup := h.fits.nodup
  rw [forestFrames_cons, nodup_add, nodup_add] at hnodup
  obtain ⟨⟨-, -, hothers⟩, -, hheld⟩ := hnodup
  exact ⟨disjoint_left.mp hothers hframe, disjoint_left.mp hheld (mem_add.mpr (.inl hframe))⟩

/-- Giving one table of an address space other words touches the pages behind the slots whose
word is another one. -/
theorem fillTable {below : ℕ} {way : List (Fin 512)} {words : Fin 512 → Word}
    (h : Spaces memmap all s forest held) (hroot : (4, root) ∈ forest)
    (hheight : way.length + below + 1 = 4)
    (hway : follow pageFormat s.mem 4 root way = some table)
    (hwords : ∀ i ∈ pageFormat.slots below, Every pageFormat EntryMarked s.mem below (words i) ∧
      table ∉ frames pageFormat s.mem below (words i))
    (hkernel : ∀ i ∉ pageFormat.slots below, words i = s.mem table i)
    (hbalanced : Balanced memmap all (s.fill table words) forest held') :
    Spaces memmap all (s.fill table words) forest held' ∧
      Touches s (s.fill table words) forest held fun space virtAddr =>
        space = root ∧ ∃ i rest, pagePath virtAddr = way ++ i :: rest ∧ words i ≠ s.mem table i := by
  have hnodup := h.balanced.space_nodup hroot
  have hmarked := h.space_marked hroot
  obtain ⟨others, rfl⟩ := exists_cons_of_mem hroot
  obtain ⟨hothers, hheld⟩ := apart h.balanced (follow_mem_frames hway)
  -- the other trees and the held frames do not contain the table
  have hoff : ∀ top ∈ others, ∀ frame ∈ frames pageFormat s.mem top.1 top.2,
      (s.fill table words).mem frame = s.mem frame := by
    intro top htop frame hframe
    apply update_of_ne
    rintro rfl
    exact hothers (mem_forestFrames htop hframe)
  refine ⟨⟨hbalanced, ?_, ?_⟩, ⟨?_, ?_, rfl, rfl⟩⟩
  · intro top htop
    rcases mem_cons.mp htop with rfl | hother
    · exact hmarked.fill hnodup hheight hway hwords
    · exact (h.marked top htop).congr (hoff top hother)
  · intro space hspace i hi
    have hword : (s.fill table words).mem space i = s.mem space i := by
      by_cases hsame : space = table
      · subst hsame
        have hslot : i ∉ pageFormat.slots below := by
          intro hslot
          rcases mem_cons.mp hspace with heq | hother
          · -- the PML4 is at the empty path, so only its lower half is filled
            obtain rfl : space = root := (Prod.mk.inj heq).2
            have hempty := follow_injective hnodup hway (follow_nil.trans (child_cr3 space))
            subst hempty
            obtain rfl : below = 3 := by simpa using hheight
            exact absurd (mem_lowerHalf.mp hslot) (not_lt.mpr hi)
          · exact hothers (pml4_mem_forestFrames hother)
        simp [Mmu.fill, hkernel i hslot]
      · simp [Mmu.fill, hsame]
    rw [hword]
    exact h.kernel space hspace i hi
  · intro space hspace virtAddr hvirt hnot
    rcases mem_cons.mp hspace with heq | hother
    · obtain rfl : space = root := (Prod.mk.inj heq).2
      apply hmarked.fill_untouched hnodup hheight hway hwords hvirt
      intro i rest hpath
      by_contra hne
      exact hnot ⟨rfl, i, rest, hpath, hne⟩
    · exact ((h.space_marked hspace).keep (hoff (4, space) hother)).2 virtAddr hvirt
  · intro frame hframe
    apply update_of_ne
    rintro rfl
    exact hheld hframe

end Spaces

end Windoge.Paging
