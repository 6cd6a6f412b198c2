import Windoge.Lib.LittleEndian
import Windoge.Lib.WordBytes
import Windoge.Paging.Teardown

/-!
# Memory byte by byte

The kernel fills the pages of a program through their physical addresses, and the program
reads them through its page tables. This module reads and writes physical memory by bytes,
reads user memory by bytes, and says that writing inside one mapped page changes the
contents of that page and nothing else.
-/

namespace Windoge.Paging

open FrameTree FreeList WordBytes List Multiset Function Mmu Fin Option

/-- The frame that holds a physical address. -/
def frameOf (addr : Word) : Word := addr &&& ~~~pageOffsetMask

/-- The offset of an address in its page. -/
def pageOffset (addr : Word) : ℕ := (addr &&& pageOffsetMask).toNat

/-- The word of a frame that holds the byte at an offset. -/
def wordIndex (offset : ℕ) : Fin 512 := Fin.ofNat 512 (offset / 8)

/-- The byte at a physical address. -/
def Mmu.byte (s : Mmu) (addr : Word) : UInt8 :=
  wordByte (s.mem (frameOf addr) (wordIndex (pageOffset addr))) (pageOffset addr % 8)

/-- The state after one byte has been stored at a physical address. -/
def Mmu.putByte (s : Mmu) (addr : Word) (b : UInt8) : Mmu :=
  s.store (frameOf addr) (wordIndex (pageOffset addr))
    (setWordByte (s.mem (frameOf addr) (wordIndex (pageOffset addr))) (pageOffset addr % 8) b)

/-- The state after bytes have been stored from a physical address on. -/
def Mmu.putBytes (s : Mmu) (addr : Word) : List UInt8 → Mmu
  | [] => s
  | b :: rest => (s.putByte addr b).putBytes (addr + 1) rest

/-- The byte that an address space shows at a user address. -/
def userByte (s : Mmu) (root : Word) (virtAddr : ℕ) : Option UInt8 :=
  (userMapping s root (.ofNat 64 virtAddr)).map fun entry =>
    s.byte ((entry &&& pageAddressMask) + .ofNat 64 (virtAddr % 4096))

variable {memmap : List MemmapEntry} {all : FrameSet} {s s' : Mmu} {forest : Forest}
  {held : Multiset Word} {root addr other frame : Word}

theorem pageOffset_lt (addr : Word) : pageOffset addr < 4096 := by
  have hmask : pageOffsetMask.toNat = 2 ^ 12 - 1 := rfl
  rw [pageOffset, BitVec.toNat_and, hmask, Nat.and_two_pow_sub_one_eq_mod]
  exact Nat.mod_lt _ (by decide)

theorem pageOffset_eq (addr : Word) : pageOffset addr = addr.toNat % 4096 := by
  have hmask : pageOffsetMask.toNat = 2 ^ 12 - 1 := rfl
  rw [pageOffset, BitVec.toNat_and, hmask, Nat.and_two_pow_sub_one_eq_mod]

/-- An address is its frame and its offset. -/
theorem frameOf_add_pageOffset (addr : Word) : frameOf addr + .ofNat 64 (pageOffset addr) = addr := by
  have hdisjoint : frameOf addr &&& (addr &&& pageOffsetMask) = 0 := by
    ext i hi
    simp only [frameOf, BitVec.getElem_and, BitVec.getElem_not]
    cases pageOffsetMask[i] <;> simp
  have hunion : frameOf addr ||| (addr &&& pageOffsetMask) = addr := by
    ext i hi
    simp only [frameOf, BitVec.getElem_or, BitVec.getElem_and, BitVec.getElem_not]
    cases pageOffsetMask[i] <;> simp
  rw [pageOffset, BitVec.ofNat_toNat, BitVec.setWidth_eq, BitVec.add_eq_or_of_and_eq_zero _ _ hdisjoint, hunion]

theorem toNat_frameOf (addr : Word) : (frameOf addr).toNat = addr.toNat / 4096 * 4096 := by
  have hsplit := frameOf_add_pageOffset addr
  have hoffset := pageOffset_eq addr
  generalize pageOffset addr = offset at hsplit hoffset
  bv_omega

theorem addr_ext (hframe : frameOf addr = frameOf other) (hoffset : pageOffset addr = pageOffset other) :
    addr = other := by
  rw [← frameOf_add_pageOffset addr, ← frameOf_add_pageOffset other, hframe, hoffset]

/-- Storing a byte changes the byte at its address only. -/
theorem byte_putByte (s : Mmu) (addr other : Word) (b : UInt8) :
    (s.putByte addr b).byte other = if other = addr then b else s.byte other := by
  have hbyte : pageOffset other % 8 < 8 := Nat.mod_lt _ (by decide)
  have hbyte' : pageOffset addr % 8 < 8 := Nat.mod_lt _ (by decide)
  by_cases hframe : frameOf other = frameOf addr
  · by_cases hindex : wordIndex (pageOffset other) = wordIndex (pageOffset addr)
    · have hword : (s.putByte addr b).byte other = wordByte
          (setWordByte (s.mem (frameOf addr) (wordIndex (pageOffset addr))) (pageOffset addr % 8) b)
          (pageOffset other % 8) := by
        simp [byte, putByte, store, hframe, hindex]
      rw [hword, wordByte_setWordByte hbyte hbyte']
      have hdiv : pageOffset other / 8 = pageOffset addr / 8 := by
        have hlt := pageOffset_lt other
        have hlt' := pageOffset_lt addr
        have hval := congrArg Fin.val hindex
        simp only [wordIndex, val_ofNat] at hval
        omega
      by_cases hsame : pageOffset other % 8 = pageOffset addr % 8
      · have haddr := addr_ext hframe (by omega)
        rw [if_pos hsame, if_pos haddr]
      have haddr : other ≠ addr := by
        rintro rfl
        exact hsame rfl
      rw [if_neg hsame, if_neg haddr, byte, hframe, hindex]
    · have haddr : other ≠ addr := by
        rintro rfl
        exact hindex rfl
      rw [if_neg haddr]
      simp [byte, putByte, store, hframe, hindex]
  · have haddr : other ≠ addr := by
      rintro rfl
      exact hframe rfl
    rw [if_neg haddr]
    simp [byte, putByte, store, hframe]

/-- Storing bytes changes the bytes in their range only. -/
theorem byte_putBytes (s : Mmu) (addr other : Word) (bytes : List UInt8) (hlength : bytes.length ≤ 2 ^ 64) :
    (s.putBytes addr bytes).byte other = (bytes[(other - addr).toNat]?).getD (s.byte other) := by
  induction bytes generalizing s addr with
  | nil => rfl
  | cons b rest ih =>
    rw [length_cons] at hlength
    rw [putBytes, ih _ _ (by omega), byte_putByte]
    by_cases heq : other = addr
    · subst heq
      have hlast : (other - (other + 1)).toNat = 2 ^ 64 - 1 := by
        rw [sub_add_cancel_left]
        rfl
      have hout : rest[(other - (other + 1)).toNat]? = none := by
        apply getElem?_eq_none
        omega
      rw [hout, if_pos rfl, sub_self]
      rfl
    · have hstep : (other - addr).toNat = (other - (addr + 1)).toNat + 1 := by
        have hne : other - addr ≠ 0 := fun h => heq (sub_eq_zero.mp h)
        have hpos : 0 < (other - addr).toNat := by
          rcases Nat.eq_zero_or_pos (other - addr).toNat with hzero | hpos
          · exact absurd (BitVec.eq_of_toNat_eq hzero) hne
          · exact hpos
        have hone : (1 : Word) ≤ other - addr := by
          rwa [BitVec.le_def]
        rw [← sub_sub, BitVec.toNat_sub_of_le hone]
        have hunit : (1 : Word).toNat = 1 := rfl
        omega
      rw [hstep, getElem?_cons_succ, if_neg heq]

/-- Storing bytes one after the other is storing them together. -/
theorem putBytes_append (s : Mmu) (addr : Word) (first second : List UInt8) :
    s.putBytes addr (first ++ second) =
      (s.putBytes addr first).putBytes (addr + .ofNat 64 first.length) second := by
  induction first generalizing s addr with
  | nil => simp [putBytes]
  | cons b rest ih =>
    have haddr : addr + .ofNat 64 (rest.length + 1) = addr + 1 + .ofNat 64 rest.length := by
      rw [Nat.add_comm, BitVec.ofNat_add, add_assoc]
      rfl
    rw [cons_append, putBytes, putBytes, ih, length_cons, haddr]

variable {bytes : List UInt8} {o : ℕ}

/-- An address inside a frame has that frame. -/
theorem frameOf_add (hframe : frame &&& pageOffsetMask = 0) (ho : o < 4096) :
    frameOf (frame + .ofNat 64 o) = frame ∧ pageOffset (frame + .ofNat 64 o) = o := by
  have hlow : frame.toNat % 4096 = 0 := by
    rw [← pageOffset_eq, pageOffset, hframe]
    rfl
  have hoffset : pageOffset (frame + .ofNat 64 o) = o := by
    rw [pageOffset_eq, BitVec.toNat_add, BitVec.toNat_ofNat]
    omega
  refine ⟨?_, hoffset⟩
  have hsum := frameOf_add_pageOffset (frame + .ofNat 64 o)
  rw [hoffset] at hsum
  exact add_right_cancel hsum

/-- Storing bytes inside one frame is filling that frame. -/
theorem putBytes_eq_fill (hframe : frame &&& pageOffsetMask = 0) (hroom : o + bytes.length ≤ 4096)
    (s : Mmu) : ∃ words, s.putBytes (frame + .ofNat 64 o) bytes = s.fill frame words := by
  induction bytes generalizing s o with
  | nil => exact ⟨s.mem frame, by simp [putBytes, fill]⟩
  | cons b rest ih =>
    rw [length_cons] at hroom
    have hnext : frame + .ofNat 64 o + 1 = frame + .ofNat 64 (o + 1) := by
      rw [BitVec.ofNat_add, add_assoc]
      rfl
    obtain ⟨words, hrest⟩ := ih (o := o + 1) (by omega) (s.putByte (frame + .ofNat 64 o) b)
    refine ⟨words, ?_⟩
    rw [putBytes, hnext, hrest, putByte, (frameOf_add hframe (by omega)).1]
    simp [fill, store]

/-- Reading at an offset from the address of a store. -/
theorem byte_putBytes_offset {c : ℕ} (ho : o < 2 ^ 32) (hc : c < 2 ^ 32) (hlength : bytes.length < 2 ^ 32)
    (s : Mmu) (base : Word) :
    (s.putBytes (base + .ofNat 64 o) bytes).byte (base + .ofNat 64 c) =
      if o ≤ c then (bytes[c - o]?).getD (s.byte (base + .ofNat 64 c))
      else s.byte (base + .ofNat 64 c) := by
  rw [byte_putBytes _ _ _ _ (by omega), add_sub_add_left_eq_sub]
  split_ifs
  · have hsub : (BitVec.ofNat 64 c - BitVec.ofNat 64 o).toNat = c - o := by
      rw [BitVec.toNat_sub_of_le, BitVec.toNat_ofNat, BitVec.toNat_ofNat]
      · omega
      · rw [BitVec.le_def, BitVec.toNat_ofNat, BitVec.toNat_ofNat]
        omega
    rw [hsub]
  · have hbig : bytes[(BitVec.ofNat 64 c - BitVec.ofNat 64 o).toNat]? = none := by
      apply getElem?_eq_none
      rw [BitVec.toNat_sub, BitVec.toNat_ofNat, BitVec.toNat_ofNat]
      omega
    rw [hbig]
    rfl

theorem aligned_add {frame : Word} (hframe : frame &&& pageOffsetMask = 0) (k : ℕ) :
    (frame + .ofNat 64 (4096 * k)) &&& pageOffsetMask = 0 := by
  apply BitVec.eq_of_toNat_eq
  have hoffset := pageOffset_eq (frame + .ofNat 64 (4096 * k))
  have hbase := pageOffset_eq frame
  rw [pageOffset, hframe] at hbase
  rw [pageOffset] at hoffset
  rw [hoffset, BitVec.toNat_add]
  simp only [BitVec.toNat_ofNat] at hbase ⊢
  omega

/-- Storing bytes inside one frame changes the words that hold them only. -/
theorem putBytes_word (hframe : frame &&& pageOffsetMask = 0) (hroom : o + bytes.length ≤ 4096)
    {j : Fin 512} (hword : ∀ i < bytes.length, wordIndex (o + i) ≠ j) (s : Mmu) (q : Word) :
    (s.putBytes (frame + .ofNat 64 o) bytes).mem q j = s.mem q j := by
  induction bytes generalizing s o with
  | nil => rfl
  | cons b rest ih =>
    rw [length_cons] at hroom hword
    have hnext : frame + .ofNat 64 o + 1 = frame + .ofNat 64 (o + 1) := by
      rw [BitVec.ofNat_add, add_assoc]
      rfl
    have hfirst : j ≠ wordIndex o := fun heq => hword 0 (Nat.succ_pos _) heq.symm
    rw [putBytes, hnext, ih (by omega) fun i hi => by
      have hlater := hword (i + 1) (by omega)
      rwa [← Nat.add_assoc, add_right_comm] at hlater]
    obtain ⟨hframeOf, hoffset⟩ := frameOf_add hframe (o := o) (by omega)
    rw [putByte, hframeOf, hoffset, store]
    by_cases hq : q = frame
    · subst hq
      simp [hfirst]
    · simp [hq]

/-- A mapping depends only on the words along the path of its address. -/
theorem userMapping_of_words {virtAddr : Word}
    (h : ∀ table, ∀ j ∈ pagePath virtAddr, s'.mem table j = s.mem table j) :
    userMapping s' root virtAddr = userMapping s root virtAddr := by
  have hwalk : ∀ (indices : List (Fin 512)) (table : Word), (∀ j ∈ indices, j ∈ pagePath virtAddr) →
      walkUserTables s' table indices = walkUserTables s table indices := by
    intro indices
    induction indices with
    | nil => exact fun _ _ => rfl
    | cons j rest ih =>
      intro table hin
      rw [walkUserTables, walkUserTables, h table j (hin j mem_cons_self),
        ih _ fun k hk => hin k (mem_cons_of_mem j hk)]
  have hleaf : tableIndex 12 virtAddr ∈ pagePath virtAddr := List.mem_append_right _ (List.mem_singleton_self _)
  simp only [userMapping, hwalk _ root fun j hj => mem_append_left _ hj, h _ _ hleaf]

theorem tableIndex_val {shift n : ℕ} (hn : n < 2 ^ 64) :
    (tableIndex shift (.ofNat 64 n)).val = n / 2 ^ shift % 512 := by
  have hmask : (0x1FF : Word).toNat = 2 ^ 9 - 1 := rfl
  rw [tableIndex, val_ofNat, BitVec.toNat_and, BitVec.toNat_ushiftRight, hmask, Nat.and_two_pow_sub_one_eq_mod,
    Nat.shiftRight_eq_div_pow, BitVec.toNat_ofNat, Nat.mod_eq_of_lt hn, Nat.mod_mod]

theorem pagePath_eq_iff {m n : ℕ} (hm : m < 0x800000000000) (hn : n < 0x800000000000) :
    pagePath (.ofNat 64 m) = pagePath (.ofNat 64 n) ↔ m / 4096 = n / 4096 := by
  simp only [pagePath, tablePath, cons_append, nil_append, cons.injEq, and_true,
    Fin.ext_iff, tableIndex_val (show m < 2 ^ 64 by omega), tableIndex_val (show n < 2 ^ 64 by omega)]
  omega

/-- What an address space shows inside a mapped page. -/
theorem userByte_eq {page : ℕ} {entry : Word} (hpage : page % 4096 = 0) (ho : o < 4096)
    (hlimit : page + o < 0x800000000000) (hmapped : userMapping s root (.ofNat 64 page) = some entry) :
    userByte s root (page + o) = some (s.byte ((entry &&& pageAddressMask) + .ofNat 64 o)) := by
  have hpath : pagePath (.ofNat 64 (page + o)) = pagePath (.ofNat 64 page) :=
    (pagePath_eq_iff hlimit (by omega)).mpr (by omega)
  have hoffset : (page + o) % 4096 = o := by omega
  rw [userByte, userMapping_congr hpath, hmapped, hoffset]
  rfl

/-- An untouched page shows what it did. -/
theorem Untouched.userByte {virtAddr : ℕ} (h : Untouched s s' root (.ofNat 64 virtAddr)) :
    Paging.userByte s' root virtAddr = Paging.userByte s root virtAddr := by
  rw [Paging.userByte, Paging.userByte, h.1]
  cases hmapped : userMapping s root (.ofNat 64 virtAddr) with
  | none => rfl
  | some entry =>
    have hmask : (entry &&& pageAddressMask) &&& pageOffsetMask = 0 := by
      have hbits : pageAddressMask &&& pageOffsetMask = 0 := by decide
      rw [BitVec.and_assoc, hbits]
      exact BitVec.and_zero
    have hframe := (frameOf_add hmask (Nat.mod_lt virtAddr (by decide))).1
    rw [map_some, map_some, byte, byte, hframe, h.2 entry hmapped]

/-- Storing bytes changes the frames that hold them only. -/
theorem putBytes_mem {q : Word} (hq : ∀ i < bytes.length, frameOf (addr + .ofNat 64 i) ≠ q)
    (s : Mmu) : (s.putBytes addr bytes).mem q = s.mem q := by
  induction bytes generalizing s addr with
  | nil => rfl
  | cons b rest ih =>
    have hfirst : q ≠ frameOf addr := by
      intro heq
      have hzero := hq 0 (Nat.succ_pos _)
      rw [BitVec.add_zero] at hzero
      exact hzero heq.symm
    have hrest : ∀ i < rest.length, frameOf (addr + 1 + .ofNat 64 i) ≠ q := by
      intro i hi
      have hlater := hq (i + 1) (Nat.succ_lt_succ hi)
      rwa [Nat.add_comm, BitVec.ofNat_add, ← add_assoc] at hlater
    rw [putBytes, ih hrest]
    exact update_of_ne hfirst _ _

namespace Spaces

variable {virtAddr entry : Word} (h : Spaces memmap all s forest held) (hroot : (4, root) ∈ forest)

include h hroot

/-- An address space whose page tables are left alone maps what it did. -/
theorem mapping_of_tables (hmem : ∀ below q, Table pageFormat s.mem 4 root below q → s'.mem q = s.mem q)
    (hvirt : virtAddr < 0x800000000000) : userMapping s' root virtAddr = userMapping s root virtAddr := by
  have hmarked : Marked s' root := (h.marked (4, root) hroot).congr_tables hmem
  rw [userMapping_eq hmarked hvirt, userMapping_eq (h.space_marked hroot) hvirt, follow_congr_tables hmem]
  cases hfollow : follow pageFormat s.mem 4 root (tablePath virtAddr) with
  | none => rfl
  | some table =>
    have hsame := hmem 0 table (table_of_follow rfl hfollow)
    simp only [bind_some, hsame]

omit hroot in
/-- Writing a frame that is no page table leaves every address space as it is, except for the
contents of that frame. -/
theorem fill_of_not_table (htable : ∀ top ∈ forest, ∀ below, ¬ Table pageFormat s.mem top.1 top.2 below frame)
    (hfree : frame ∈ forestFrames pageFormat s.mem forest + held ∨ frame ∉ all.frames)
    (words : Fin 512 → Word) :
    Spaces memmap all (s.fill frame words) forest held ∧ ∀ root, (4, root) ∈ forest → ∀ virtAddr < 0x800000000000,
        userMapping (s.fill frame words) root virtAddr = userMapping s root virtAddr := by
  have hmem : ∀ top ∈ forest, ∀ below q, Table pageFormat s.mem top.1 top.2 below q →
      (s.fill frame words).mem q = s.mem q := by
    intro top htop below q hq
    apply update_of_ne
    rintro rfl
    exact htable top htop below hq
  have hmarked : ∀ top ∈ forest, Every pageFormat EntryMarked (s.fill frame words).mem top.1 top.2 :=
    fun top htop => (h.marked top htop).congr_tables (hmem top htop)
  refine ⟨⟨?_, hmarked, ?_⟩, ?_⟩
  · obtain ⟨free, hlinked, hall⟩ := h.balanced
    have hnot : frame ∉ free := by
      rcases hfree with hused | houtside
      · exact Within.free_disjoint hall.le hused
      intro hin
      apply houtside
      rw [← hall]
      exact mem_add.mpr (.inl (mem_add.mpr (.inr (mem_coe.mpr hin))))
    refine ⟨free, ?_, ?_⟩
    · apply Linked.congr hlinked
      intro q hq
      have hne : q ≠ frame := fun heq => hnot (heq ▸ hq)
      simp [fill, hne]
    · rwa [forestFrames_congr_tables hmem]
  · intro root hroot i hi
    rw [hmem (4, root) hroot 3 root (.root (child_cr3 root))]
    exact h.kernel root hroot i hi
  · exact fun root hroot virtAddr hvirt => h.mapping_of_tables hroot (hmem (4, root) hroot) hvirt

variable (hvirt : virtAddr < 0x800000000000)
  (hmapped : userMapping s root virtAddr = some entry)

include hvirt hmapped

/-- The page of a mapping is no page table of any address space. -/
theorem page_not_table :
    ∀ top ∈ forest, ∀ below, ¬ Table pageFormat s.mem top.1 top.2 below (entry &&& pageAddressMask) := by
  have hpath := follow_page (h.space_marked hroot) hvirt hmapped
  have hnodup := h.balanced.space_nodup hroot
  intro top htop below htable
  obtain ⟨others, rfl⟩ := exists_cons_of_mem hroot
  rcases mem_cons.mp htop with rfl | hother
  · exact not_table_of_follow hnodup rfl hpath htable
  · exact (apart h.balanced (follow_mem_frames hpath)).1 (mem_forestFrames hother htable.mem_frames)

/-- Two mappings of one page are mappings of one address space at one page. -/
theorem samePage_of_frame {space virtAddr' entry' : Word} (hspace : (4, space) ∈ forest)
    (hvirt' : virtAddr' < 0x800000000000) (hmapped' : userMapping s space virtAddr' = some entry')
    (hframe : entry' &&& pageAddressMask = entry &&& pageAddressMask) :
    SamePage root virtAddr space virtAddr' := by
  have hpath := follow_page (h.space_marked hroot) hvirt hmapped
  have hpath' := follow_page (h.space_marked hspace) hvirt' hmapped'
  rw [hframe] at hpath'
  obtain ⟨others, rfl⟩ := exists_cons_of_mem hroot
  rcases mem_cons.mp hspace with heq | hother
  · obtain rfl : space = root := (Prod.mk.inj heq).2
    exact ⟨rfl, follow_injective (h.balanced.space_nodup hroot) hpath' hpath⟩
  · exact absurd (mem_forestFrames hother (follow_mem_frames hpath'))
      (apart h.balanced (follow_mem_frames hpath)).1

/-- Writing a mapped page changes the contents of that page and nothing else. -/
theorem fillPage (words : Fin 512 → Word) :
    Spaces memmap all (s.fill (entry &&& pageAddressMask) words) forest held ∧
      Touches s (s.fill (entry &&& pageAddressMask) words) forest held (SamePage root virtAddr) ∧
      ∀ root, (4, root) ∈ forest → ∀ virtAddr < 0x800000000000,
        userMapping (s.fill (entry &&& pageAddressMask) words) root virtAddr = userMapping s root virtAddr := by
  have hpath := follow_page (h.space_marked hroot) hvirt hmapped
  have hused := mem_forestFrames hroot (follow_mem_frames hpath)
  obtain ⟨hspaces, hsame⟩ := h.fill_of_not_table (h.page_not_table hroot hvirt hmapped)
    (.inl (mem_add.mpr (.inl hused))) words
  refine ⟨hspaces, ⟨?_, ?_, rfl, rfl⟩, hsame⟩
  · intro space hspace virtAddr' hvirt' hnot
    refine ⟨hsame space hspace virtAddr' hvirt', fun entry' hmapped' => ?_⟩
    apply update_of_ne
    intro hframe
    exact hnot (h.samePage_of_frame hroot hvirt hmapped hspace hvirt' hmapped' hframe)
  · intro q hq
    apply update_of_ne
    rintro rfl
    exact disjoint_left.mp (nodup_add.mp h.balanced.fits.nodup).2.2 hused hq

end Spaces

end Windoge.Paging
