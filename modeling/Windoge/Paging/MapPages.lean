import Windoge.Paging.Translate

/-!
# Mapping one page and nothing else

What `map_user_page`, `unmap_user_page` and `protect_user_page` do to the address spaces
of a machine: one page of the loaded address space gets another leaf entry, every other
page of every address space stays as it was, contents included. A page that was mapped
over is left to nobody.
-/

namespace Windoge.Paging

open FrameTree FreeList List Multiset Function Option Mmu

variable {memmap : List MemmapEntry} {all : FrameSet} {s s' : Mmu} {forest : Forest}
  {held : Multiset Word} {root virtAddr table : Word} {i : Fin 512}

/-- The page that an address space maps at an address, if it maps one. -/
def mappedFrame (s : Mmu) (root virtAddr : Word) : Multiset Word :=
  (userMapping s root virtAddr).elim 0 fun entry => {entry &&& pageAddressMask}

/-- Two addresses lie in the same page of the same address space. -/
def SamePage (root virtAddr : Word) (space other : Word) : Prop :=
  space = root ∧ pagePath other = pagePath virtAddr

theorem store_self (s : Mmu) (table : Word) (i : Fin 512) : s.store table i (s.mem table i) = s := by
  simp [store]

/-- A path to a page that goes through a slot above the page tables reaches its page table
through that slot. -/
theorem tablePath_of_pagePath {way rest : List (Fin 512)} (hway : way.length < 3)
    (h : pagePath virtAddr = way ++ i :: rest) :
    ∃ rest', tablePath virtAddr = way ++ i :: rest' := by
  have hlength := congrArg length h
  have htable : tablePath virtAddr = (pagePath virtAddr).dropLast := by simp [pagePath]
  have hrest : rest ≠ [] := by
    rintro rfl
    simp [pagePath, tablePath] at hlength
    omega
  refine ⟨rest.dropLast, ?_⟩
  rw [htable, h, dropLast_append_of_ne_nil (cons_ne_nil i rest), dropLast_cons_of_ne_nil hrest]

theorem child_fresh {height : ℕ} {fresh : Word} (h0 : 0 < height) (h4 : height < 4) (hframe : IsFrame fresh) :
    pageFormat.child height (fresh ||| pageUserFlags) = some fresh := by
  rw [child_present h0 h4 (userFlags_present _), userFlags_table, hframe.aligned]

theorem isUserPage_zero : isUserPage 0 = false := by decide

section Unmapped

variable (h : userMapping s s.loaded virtAddr = none)

include h

theorem unmapUserPage_unmapped : unmapUserPage virtAddr s = (false, s) := by
  rw [unmapUserPage, userPageTable_eq]
  cases htable : walkUserTables s s.loaded (tablePath virtAddr) with
  | none => rfl
  | some table =>
    rw [userMapping, htable, bind_some] at h
    split_ifs at h with huser
    simp [huser]

/-- Where no page is mapped there is none to protect. -/
theorem protectUserPage_unmapped (present writeAccess executeAccess : Bool) :
    protectUserPage virtAddr present writeAccess executeAccess s = (false, s) := by
  rw [protectUserPage, userPageTable_eq]
  cases htable : walkUserTables s s.loaded (tablePath virtAddr) with
  | none => rfl
  | some table =>
    rw [userMapping, htable, bind_some] at h
    split_ifs at h with huser
    simp [huser]

end Unmapped

namespace Spaces

section Link

variable {below : ℕ} {way : List (Fin 512)} {fresh : Word}
  (h : Spaces memmap all s forest (fresh ::ₘ held)) (hzero : s.mem fresh = fun _ => 0)
  (hroot : (4, root) ∈ forest) (hheight : way.length + (below + 1) + 1 = 4)
  (hway : follow pageFormat s.mem 4 root way = some table)
  (hslot : i ∈ pageFormat.slots (below + 1))

include h

theorem isFrame : IsFrame fresh := h.balanced.held_isFrame

include hroot in
theorem not_mem_space : fresh ∉ frames pageFormat s.mem 4 root := by
  obtain ⟨others, rfl⟩ := exists_cons_of_mem hroot
  intro hmem
  exact (apart h.balanced hmem).2 (mem_cons_self _ _)

include hzero hroot hheight hway hslot

/-- The words of a table into which a fresh empty table has been linked are marked. -/
theorem link_words (j : Fin 512) (hj : j ∈ pageFormat.slots (below + 1)) :
    Every pageFormat EntryMarked s.mem (below + 1) (Function.update (s.mem table) i (fresh ||| pageUserFlags) j) ∧
      table ∉ frames pageFormat s.mem (below + 1)
        (Function.update (s.mem table) i (fresh ||| pageUserFlags) j) := by
  have htable := table_of_follow hheight hway
  by_cases hji : j = i
  · subst hji
    have hchild := child_fresh (Nat.succ_pos below) (by omega) h.isFrame
    have hempty : ∀ k ∈ pageFormat.slots below, pageFormat.child below (s.mem fresh k) = none := by
      intro k _
      rw [hzero]
      exact child_zero (by omega)
    rw [update_self]
    refine ⟨⟨?_, fun p hp k hk => ?_⟩, ?_⟩
    · rw [entryMarked_table (Nat.succ_pos below) (by omega)]
      exact fun _ => by rw [BitVec.or_assoc, BitVec.or_self]
    · cases hchild.symm.trans hp
      refine Every.of_empty (hempty k hk) ?_
      rw [hzero]
      exact entryMarked_zero below
    · rw [frames_table hchild, Finset.sum_eq_zero fun k hk => frames_of_empty (hempty k hk)]
      intro hmem
      obtain rfl := Multiset.mem_singleton.mp hmem
      exact h.not_mem_space hroot (follow_mem_frames hway)
  · rw [update_of_ne hji]
    exact ⟨(h.space_marked hroot).word htable hj, htable.not_mem_slot (h.balanced.space_nodup hroot) hj⟩

/-- Linking a fresh empty table into an absent slot touches no page. -/
theorem linkTable (habsent : s.mem table i &&& pagePresent = 0) :
    Spaces memmap all (s.store table i (fresh ||| pageUserFlags)) forest held ∧
      Touches s (s.store table i (fresh ||| pageUserFlags)) forest (fresh ::ₘ held) fun _ _ => False := by
  have hnodup := h.balanced.space_nodup hroot
  have hfresh : fresh ≠ table := by
    rintro rfl
    exact h.not_mem_space hroot (follow_mem_frames hway)
  have hchild := child_fresh (Nat.succ_pos below) (by omega : below + 1 < 4) h.isFrame
  have hbalanced : Balanced memmap all (s.store table i (fresh ||| pageUserFlags)) forest held := by
    have hin : TableIn s forest (below + 1) table := ⟨(4, root), hroot, table_of_follow hheight hway⟩
    refine ((h.balanced.freshTable (by omega) hzero).exchange hin hslot).1.regroup ?_
    rw [forestFrames_cons, frames_of_empty (child_absent (Nat.succ_pos _) (by omega) habsent), zero_add]
  obtain ⟨hdone, htouches⟩ := h.fillTable hroot hheight hway
    (h.link_words hzero hroot hheight hway hslot) (fun j hj => by
      rw [update_of_ne]
      rintro rfl
      exact hj hslot) hbalanced
  refine ⟨hdone, ⟨fun space hspace other hother _ => ?_, htouches.held, rfl, rfl⟩⟩
  by_cases htouched : space = root ∧ ∃ rest, pagePath other = way ++ i :: rest
  · -- behind the slot nothing was mapped, and nothing is
    obtain ⟨rfl, rest, hpage⟩ := htouched
    obtain ⟨rest', hpath⟩ := tablePath_of_pagePath (by omega) hpage
    have hbefore : userMapping s space other = none := by
      rw [userMapping_eq (h.space_marked hroot) hother, hpath]
      rw [← hheight] at hway ⊢
      rw [follow_append hway, if_pos hslot, follow_of_empty (child_absent (Nat.succ_pos _) (by omega) habsent)]
      rfl
    have hafter : userMapping (s.store table i (fresh ||| pageUserFlags)) space other = none := by
      have hword : ∀ k, (s.store table i (fresh ||| pageUserFlags)).mem fresh k = 0 := by
        intro k
        simp [store, hfresh, hzero]
      have hfollow := @follow_update_append _ _ _ _ pageFormat s.mem (below + 1) space table i _
        (update (s.mem table) i (fresh ||| pageUserFlags)) way rest'
        (by rwa [hheight]) (by rwa [hheight])
      rw [hheight, if_pos hslot, update_self] at hfollow
      have hmarked : Marked (s.store table i (fresh ||| pageUserFlags)) space := hdone.space_marked hroot
      rw [userMapping_eq hmarked hother, hpath]
      change (follow pageFormat (update s.mem table _) 4 space _).bind _ = none
      rw [hfollow]
      cases rest' with
      | nil =>
        rw [follow_nil, hchild, bind_some, hword, isUserPage_zero]
        rfl
      | cons k rest' =>
        change (follow pageFormat (s.store table i _).mem _ _ _).bind _ = none
        rw [follow_cons hchild, hword, follow_of_empty (child_zero (by omega))]
        split_ifs <;> rfl
    exact ⟨hafter.trans hbefore.symm, fun entry hentry => by rw [hbefore] at hentry; cases hentry⟩
  · apply htouches.untouched space hspace other hother
    rintro ⟨rfl, j, rest, hpage, hne⟩
    have hji : j = i := by
      by_contra hji
      exact hne (update_of_ne hji _ _)
    exact htouched ⟨rfl, rest, hji ▸ hpage⟩

end Link

section Space

variable (h : Spaces memmap all s forest held) (hroot : (4, root) ∈ forest)

include h hroot

/-- The table behind a slot: afterwards the slot names it, and no page has been touched. -/
theorem getOrAllocTable {below : ℕ} {way : List (Fin 512)} {next : Word}
    (hheight : way.length + (below + 1) + 1 = 4) (hway : follow pageFormat s.mem 4 root way = some table)
    (hslot : i ∈ pageFormat.slots (below + 1)) (hcall : Paging.getOrAllocTable memmap table i s = (next, s'))
    (hram : s'.outOfRam = false) :
    Spaces memmap all s' forest held ∧ (Touches s s' forest held fun _ _ => False) ∧
      follow pageFormat s'.mem 4 root (way ++ [i]) = some next := by
  have hnext : ∀ t : Mmu, follow pageFormat t.mem 4 root way = some table →
      follow pageFormat t.mem 4 root (way ++ [i]) = pageFormat.child (below + 1) (t.mem table i) := by
    intro t ht
    rw [← hheight] at ht ⊢
    rw [follow_append ht, if_pos hslot, follow_nil]
  by_cases habsent : s.mem table i &&& pagePresent = 0
  · cases halloc : pmmAllocZeroedPage memmap s with
    | mk fresh t =>
    rw [Paging.getOrAllocTable, if_pos habsent, halloc] at hcall
    simp only [store, update_self] at hcall
    cases hcall
    obtain ⟨htaken, hkeeps, hzero⟩ := pmmAllocZeroedPage_balanced halloc hram h.balanced
    obtain ⟨ht, htouch⟩ := h.keep hkeeps htaken
    have hframes : ∀ frame ∈ frames pageFormat s.mem 4 root, t.mem frame = s.mem frame :=
      fun frame hframe => hkeeps.mem frame (mem_add.mpr (.inl (mem_forestFrames hroot hframe)))
    have hway' : follow pageFormat t.mem 4 root way = some table := by rw [follow_congr hframes, hway]
    have habsent' : t.mem table i &&& pagePresent = 0 := by
      rw [hframes table (follow_mem_frames hway), habsent]
    obtain ⟨hdone, hlink⟩ := ht.linkTable hzero hroot hheight hway' hslot habsent'
    refine ⟨hdone, htouch.trans (hlink.mono (fun _ _ hp => hp) fun _ => mem_cons_of_mem), ?_⟩
    have hway'' : follow pageFormat (t.store table i (fresh ||| pageUserFlags)).mem 4 root way = some table := by
      rw [← hway']
      apply follow_update_of_same (ht.balanced.space_nodup hroot) hway'
      intro j rest hself
      have hlength := congrArg length hself
      rw [length_append, length_cons] at hlength
      omega
    refine (hnext _ hway'').trans ?_
    simp only [store, update_self]
    exact child_present (Nat.succ_pos _) (by omega) (userFlags_present fresh)
  · have hword := ((h.space_marked hroot).word (table_of_follow hheight hway) hslot).self
    rw [entryMarked_table (Nat.succ_pos below) (by omega)] at hword
    rw [Paging.getOrAllocTable, if_neg habsent, hword habsent, store_self] at hcall
    cases hcall
    refine ⟨h, .refl, ?_⟩
    rw [hnext s hway, child_present (Nat.succ_pos _) (by omega) habsent]

variable (hvirt : virtAddr < 0x800000000000)

include hvirt

/-- Storing a leaf entry touches the one page it maps. -/
theorem storeLeaf {value : Word} {held' : Multiset Word}
    (hway : follow pageFormat s.mem 4 root (tablePath virtAddr) = some table)
    (hmark : EntryMarked 0 value) (hpage : table ∉ frames pageFormat s.mem 0 value)
    (hbalanced : Balanced memmap all (s.store table (tableIndex 12 virtAddr) value) forest held') :
    Spaces memmap all (s.store table (tableIndex 12 virtAddr) value) forest held' ∧
      Touches s (s.store table (tableIndex 12 virtAddr) value) forest held (SamePage root virtAddr) ∧
      userMapping (s.store table (tableIndex 12 virtAddr) value) root virtAddr =
        if isUserPage value then some value else none := by
  have hnodup := h.balanced.space_nodup hroot
  have htable : Table pageFormat s.mem 4 root 0 table := table_of_follow rfl hway
  have hwords : ∀ j ∈ pageFormat.slots 0, Every pageFormat EntryMarked s.mem 0
        (update (s.mem table) (tableIndex 12 virtAddr) value j) ∧
      table ∉ frames pageFormat s.mem 0 (update (s.mem table) (tableIndex 12 virtAddr) value j) := by
    intro j hj
    by_cases hji : j = tableIndex 12 virtAddr
    · rw [hji, update_self]
      exact ⟨hmark, hpage⟩
    · rw [update_of_ne hji]
      exact ⟨(h.space_marked hroot).word htable hj, htable.not_mem_slot hnodup hj⟩
  have hslots : ∀ j ∉ pageFormat.slots 0, update (s.mem table) (tableIndex 12 virtAddr) value j = s.mem table j :=
    fun j hj => absurd (mem_slots (by decide)) hj
  obtain ⟨hdone, htouches⟩ := h.fillTable hroot rfl hway hwords hslots hbalanced
  refine ⟨hdone, htouches.mono ?_ fun _ hframe => hframe, ?_⟩
  · rintro space other ⟨rfl, j, rest, hpath, hne⟩
    have hj : j = tableIndex 12 virtAddr := by
      by_contra hji
      exact hne (update_of_ne hji _ _)
    have hrest : rest = [] := by
      have hlength := congrArg length hpath
      simp only [pagePath, tablePath, length_append, length_cons, length_nil] at hlength
      exact eq_nil_of_length_eq_zero (by omega)
    exact ⟨rfl, by rw [hpath, hj, hrest, pagePath]⟩
  · have hmarked : Marked (s.store table (tableIndex 12 virtAddr) value) root := hdone.space_marked hroot
    have hstill : follow pageFormat (s.store table (tableIndex 12 virtAddr) value).mem 4 root
        (tablePath virtAddr) = some table := by
      rw [← hway]
      apply follow_update_of_same hnodup hway
      intro j rest hself
      have hlength := congrArg length hself
      rw [length_append, length_cons] at hlength
      omega
    rw [userMapping_eq hmarked hvirt, hstill]
    simp [store]

/-- A leaf word and the page its address space maps there. -/
theorem leaf_frames (hway : follow pageFormat s.mem 4 root (tablePath virtAddr) = some table) :
    frames pageFormat s.mem 0 (s.mem table (tableIndex 12 virtAddr)) = mappedFrame s root virtAddr := by
  have htable : Table pageFormat s.mem 4 root 0 table := table_of_follow rfl hway
  have hmark := ((h.space_marked hroot).word htable (mem_slots (by decide) :
    tableIndex 12 virtAddr ∈ pageFormat.slots 0)).self
  rw [mappedFrame, userMapping_eq (h.space_marked hroot) hvirt, hway, bind_some]
  by_cases haddr : s.mem table (tableIndex 12 virtAddr) &&& pageAddressMask = 0
  · have huser : isUserPage (s.mem table (tableIndex 12 virtAddr)) = false := by simp [isUserPage, haddr]
    rw [frames_of_empty (child_leaf_empty haddr), huser]
    rfl
  · have huser : isUserPage (s.mem table (tableIndex 12 virtAddr)) = true := by
      rw [isUserPage, decide_eq_true_eq]
      exact ⟨hmark haddr, haddr⟩
    rw [frames_data (child_leaf haddr), huser]
    rfl

/-- The page table and the leaf word of a mapped page. -/
theorem mapped_table {entry : Word} (hmapped : userMapping s root virtAddr = some entry) :
    ∃ table, walkUserTables s root (tablePath virtAddr) = some table ∧
      follow pageFormat s.mem 4 root (tablePath virtAddr) = some table ∧
      s.mem table (tableIndex 12 virtAddr) = entry ∧ isUserPage entry = true := by
  obtain ⟨table, hwalk, hword, huser⟩ := userMapping_eq_some.mp hmapped
  have hlength : (tablePath virtAddr).length = 3 := rfl
  have hfollow := walkUserTables_eq_follow hlength le_rfl (child_cr3 root) (tablePath_slots hvirt)
    (h.space_marked hroot)
  exact ⟨table, hwalk, hfollow ▸ hwalk, hword, huser⟩

end Space

/-- The tables on the way to a page: `map_user_page` finds or makes them before it stores the leaf
entry, and touches no page so far. -/
theorem mapUserPage_tables (frame : Word) (h : Spaces memmap all s forest held) (hroot : (4, s.loaded) ∈ forest)
    (hvirt : virtAddr < 0x800000000000) (hram : (Paging.mapUserPage memmap virtAddr frame s).outOfRam = false) :
    ∃ pt s₃, Paging.mapUserPage memmap virtAddr frame s =
        s₃.store pt (tableIndex 12 virtAddr) ((frame &&& ~~~pageOffsetMask) ||| pageUserFlags) ∧
      Spaces memmap all s₃ forest held ∧ (Touches s s₃ forest held fun _ _ => False) ∧
      follow pageFormat s₃.mem 4 s.loaded (tablePath virtAddr) = some pt := by
  obtain ⟨pdpt, s₁, pd, s₂, pt, s₃, hpdpt, hram₁, hpd, hram₂, hpt, hram₃, hresult⟩ := mapUserPage_steps hram
  have hlower : tableIndex 39 virtAddr ∈ pageFormat.slots (2 + 1) := tableIndex_lower hvirt
  obtain ⟨hs₁, ht₁, hway₁⟩ := h.getOrAllocTable hroot rfl (follow_nil.trans (child_cr3 s.loaded))
    hlower hpdpt hram₁
  obtain ⟨hs₂, ht₂, hway₂⟩ := hs₁.getOrAllocTable hroot rfl hway₁
    (mem_slots (by decide) : _ ∈ pageFormat.slots (1 + 1)) hpd hram₂
  obtain ⟨hs₃, ht₃, hway₃⟩ := hs₂.getOrAllocTable hroot rfl hway₂
    (mem_slots (by decide) : _ ∈ pageFormat.slots (0 + 1)) hpt hram₃
  exact ⟨pt, s₃, hresult, hs₃, (ht₁.trans ht₂).trans ht₃, hway₃⟩

/-- Storing a leaf entry for frames that are held exchanges them for the page that was mapped. -/
theorem exchangeLeaf {value : Word} {new : Multiset Word} (h : Spaces memmap all s forest (new + held))
    (hroot : (4, root) ∈ forest) (hvirt : virtAddr < 0x800000000000)
    (hway : follow pageFormat s.mem 4 root (tablePath virtAddr) = some table)
    (hmark : EntryMarked 0 value) (hnew : ∀ mem, frames pageFormat mem 0 value = new) :
    Spaces memmap all (s.store table (tableIndex 12 virtAddr) value) forest (mappedFrame s root virtAddr + held) ∧
      Touches s (s.store table (tableIndex 12 virtAddr) value) forest (new + held) (SamePage root virtAddr) ∧
      userMapping (s.store table (tableIndex 12 virtAddr) value) root virtAddr =
        if isUserPage value then some value else none := by
  have hin : TableIn s forest 0 table := ⟨(4, root), hroot, table_of_follow rfl hway⟩
  refine h.storeLeaf hroot hvirt hway hmark ?_ ?_
  · obtain ⟨others, rfl⟩ := exists_cons_of_mem hroot
    rw [hnew]
    exact fun hmem => (apart h.balanced (follow_mem_frames hway)).2 (mem_add.mpr (.inl hmem))
  · have hadd : Balanced memmap all s ((0, value) ::ₘ forest) held := by
      apply h.balanced.regroup
      rw [forestFrames_cons, hnew]
      abel
    refine (hadd.exchange hin (mem_slots (by decide))).1.regroup ?_
    have hold : frames pageFormat (s.store table (tableIndex 12 virtAddr) value).mem 0
        (s.mem table (tableIndex 12 virtAddr)) = mappedFrame s root virtAddr :=
      h.leaf_frames hroot hvirt hway
    rw [forestFrames_cons, hold]
    abel

/-- `map_user_page` exchanges what its entry names for the page that was mapped before. -/
theorem mapUserPage_leaf {frame value : Word} {new : Multiset Word}
    (hvalue : (frame &&& ~~~pageOffsetMask) ||| pageUserFlags = value)
    (hnew : ∀ mem, frames pageFormat mem 0 value = new) (h : Spaces memmap all s forest (new + held))
    (hroot : (4, s.loaded) ∈ forest) (hvirt : virtAddr < 0x800000000000)
    (hram : (Paging.mapUserPage memmap virtAddr frame s).outOfRam = false) :
    Spaces memmap all (Paging.mapUserPage memmap virtAddr frame s) forest
        (mappedFrame s s.loaded virtAddr + held) ∧
      Touches s (Paging.mapUserPage memmap virtAddr frame s) forest (new + held) (SamePage s.loaded virtAddr) ∧
      userMapping (Paging.mapUserPage memmap virtAddr frame s) s.loaded virtAddr =
        if value &&& pageAddressMask ≠ 0 then some value else none := by
  obtain ⟨pt, s₃, hresult, hs₃, htables, hway⟩ := h.mapUserPage_tables frame hroot hvirt hram
  have huser : value &&& pageUser ≠ 0 := by
    have hflag : pageUserFlags &&& pageUser = pageUser := by decide
    rw [← hvalue, or_and_mask, hflag]
    intro hzero
    have hbit := congrArg (fun w : Word => w.getLsbD 2) hzero
    simp [pageUser] at hbit
  obtain ⟨hdone, htouch, hmapped⟩ := hs₃.exchangeLeaf hroot hvirt hway (fun _ => huser) hnew
  rw [mappedFrame, (htables.untouched s.loaded hroot virtAddr hvirt not_false).1, ← mappedFrame] at hdone
  rw [hresult, hvalue]
  refine ⟨hdone, (htables.mono (fun _ _ => False.elim) fun _ hin => hin).trans htouch,
    hmapped.trans (if_congr ?_ rfl rfl)⟩
  rw [isUserPage, decide_eq_true_eq]
  exact and_iff_right huser

/-- `map_user_page` maps a held frame, contents and all; the page that was mapped there before
is left to nobody. -/
theorem mapUserPage {frame : Word} (h : Spaces memmap all s forest (frame ::ₘ held))
    (hroot : (4, s.loaded) ∈ forest) (hvirt : virtAddr < 0x800000000000)
    (hram : (Paging.mapUserPage memmap virtAddr frame s).outOfRam = false) :
    Spaces memmap all (Paging.mapUserPage memmap virtAddr frame s) forest
        (mappedFrame s s.loaded virtAddr + held) ∧
      Touches s (Paging.mapUserPage memmap virtAddr frame s) forest (frame ::ₘ held)
        (SamePage s.loaded virtAddr) ∧
      userMapping (Paging.mapUserPage memmap virtAddr frame s) s.loaded virtAddr =
        some (frame ||| pageUserFlags) := by
  have hframe := h.isFrame
  have hsome : (frame ||| pageUserFlags) &&& pageAddressMask ≠ 0 := by
    rw [hframe.leaf]
    exact hframe.1
  rw [← singleton_add] at h ⊢
  have hdone := h.mapUserPage_leaf (by rw [hframe.aligned])
    (fun mem => by rw [frames_data (child_leaf hsome), hframe.leaf]) hroot hvirt hram
  rwa [if_pos hsome] at hdone

section

variable (h : Spaces memmap all s forest held) (hroot : (4, s.loaded) ∈ forest)
  (hvirt : virtAddr < 0x800000000000)
include h hroot hvirt

/-- Mapping frame 0 stores an entry that maps nothing; the page that was mapped there before is left
to nobody. -/
theorem mapUserPage_zero (hram : (Paging.mapUserPage memmap virtAddr 0 s).outOfRam = false) :
    Spaces memmap all (Paging.mapUserPage memmap virtAddr 0 s) forest (mappedFrame s s.loaded virtAddr + held) ∧
      Touches s (Paging.mapUserPage memmap virtAddr 0 s) forest held (SamePage s.loaded virtAddr) ∧
      userMapping (Paging.mapUserPage memmap virtAddr 0 s) s.loaded virtAddr = none := by
  rw [← zero_add held] at h
  have hdone := h.mapUserPage_leaf (show (0 &&& ~~~pageOffsetMask) ||| pageUserFlags = pageUserFlags by decide)
    (fun mem => frames_of_empty (child_leaf_empty (by decide))) hroot hvirt hram
  rwa [if_neg (by decide), zero_add] at hdone

/-- `unmap_user_page` unmaps the page and gives its frame back; it does nothing when no page is
mapped. -/
theorem unmapUserPage : Spaces memmap all (Paging.unmapUserPage virtAddr s).2 forest held ∧
      Touches s (Paging.unmapUserPage virtAddr s).2 forest held (SamePage s.loaded virtAddr) ∧
      userMapping (Paging.unmapUserPage virtAddr s).2 s.loaded virtAddr = none := by
  cases hmapped : userMapping s s.loaded virtAddr with
  | none =>
    rw [unmapUserPage_unmapped hmapped]
    exact ⟨h, .refl, hmapped⟩
  | some entry =>
    obtain ⟨table, hwalk, hway, hword, huser⟩ := h.mapped_table hroot hvirt hmapped
    have hresult : (Paging.unmapUserPage virtAddr s).2 =
        pmmFreePage (entry &&& pageAddressMask) (s.store table (tableIndex 12 virtAddr) 0) := by
      have hfound : userPageTable virtAddr s = some table := hwalk
      simp only [Paging.unmapUserPage, hfound, hword, huser, if_true]
    rw [← zero_add held] at h
    obtain ⟨hstored, htouch, hnone⟩ := h.exchangeLeaf hroot hvirt hway (entryMarked_zero 0)
      fun mem => frames_of_empty (child_zero (by decide))
    rw [mappedFrame, hmapped, elim_some, singleton_add] at hstored
    obtain ⟨hfreed, hkeeps⟩ := hstored.balanced.free
    obtain ⟨hspaces, hfree⟩ := hstored.keep hkeeps hfreed
    rw [zero_add] at htouch
    rw [hresult]
    refine ⟨hspaces, htouch.trans (hfree.mono (fun _ _ => False.elim) fun _ hin => hin), ?_⟩
    rw [(hfree.untouched s.loaded hroot virtAddr hvirt not_false).1, hnone, isUserPage_zero]
    rfl

end

end Spaces

end Windoge.Paging
