import Windoge.Exfat.NewSet

/-!
# The directory tree of a volume

A mounted volume as a directory forest: the nodes in the slots of its directories, rooted in
cluster 4, and the set of clusters the bitmap marks as used. A sound volume is one whose
reachable directories are well formed and whose reachable entries own used clusters, each its
own; the driver's mutators are proved to keep it sound in the modules that follow.
-/

namespace Windoge.Exfat

open Forest BitArray Volume List

/-- The directory forest of a volume. -/
def Volume.view (v : Volume) : View ℕ ℕ (List UInt8) := fun d k => slotNode (clusterAt v.bytes d) k

/-- The clusters the bitmap marks as used. -/
def Volume.usedSet (v : Volume) : Set ℕ :=
  { c | 2 ≤ c ∧ c < v.clusterCount + 2 ∧ v.used c = true }

/-- The clusters of the bitmap, the upcase table and the root directory. -/
def systemClusters : Set ℕ := { c | 2 ≤ c ∧ c ≤ 4 }

/-- The directories that can be reached from the root. -/
def Volume.Reach (v : Volume) (d : ℕ) : Prop := Forest.Reach v.view 4 d

/-- The length of an entry is one the driver's arithmetic handles; directories have none. -/
def SizeOk (dir : Bytes) (k : ℕ) : Prop :=
  dataLength dir (32 * k) + 4095 < 2 ^ 44 ∧
    (isDirectory dir (32 * k) = true → dataLength dir (32 * k) = 0)

/-- A mounted volume whose directory tree is intact. -/
structure Volume.Sound (v : Volume) : Prop extends v.Formatted where
  separated : Separated v.view 4 systemClusters v.usedSet
  dirOk : ∀ d, v.Reach d → DirOk (clusterAt v.bytes d)
  sizeOk : ∀ d k, v.Reach d → Live (clusterAt v.bytes d) k → SizeOk (clusterAt v.bytes d) k
  current : v.Reach v.currentCluster

variable {v v' : Volume} {bytes : Bytes} {outcomes : List SectorOutcome} {c d k : ℕ}

theorem Volume.Formatted.put (hv : v.Formatted) : (v.put bytes outcomes).Formatted :=
  ⟨hv.heapOffset, hv.perCluster, hv.root, hv.atLeast, hv.atMost⟩

theorem Volume.Formatted.bitmapLba (hv : v.Formatted) : exfatClusterLba v 2 = 6144 :=
  hv.clusterLba (by decide) (by decide)

theorem used_putBits {indices : List ℕ} {on : Bool} :
    (v.put (putBits v.bytes (4096 * exfatClusterLba v 2) indices on) outcomes).used c =
      if c - 2 ∈ indices then on else v.used c := by
  unfold used
  rw [exfatClusterLba_put, put_bytes, bitAt_putBits]

/-- The used clusters after a run has been allocated. -/
theorem usedSet_alloc {start count : ℕ} (hend : start + count ≤ v.clusterCount) :
    (v.put (putBits v.bytes (4096 * exfatClusterLba v 2) (range' start count) true)
      outcomes).usedSet = v.usedSet ∪ clusterRun (start + 2) count := by
  ext c
  change 2 ≤ c ∧ c < v.clusterCount + 2 ∧ _ ↔
    (2 ≤ c ∧ c < v.clusterCount + 2 ∧ _) ∨ start + 2 ≤ c ∧ c < start + 2 + count
  rw [used_putBits]
  split_ifs with hin
  · have hrange := mem_range'_1.mp hin
    constructor
    · rintro ⟨hlow, -, -⟩
      exact Or.inr (by omega)
    · rintro (⟨hlow, hhigh, -⟩ | hrun)
      · exact ⟨hlow, hhigh, rfl⟩
      · exact ⟨by omega, by omega, rfl⟩
  · rw [mem_range'_1] at hin
    constructor
    · exact Or.inl
    · rintro (hold | hrun)
      · exact hold
      · exact absurd hrun (by omega)

/-- The used clusters after a run has been freed. -/
theorem usedSet_free (outcomes : List SectorOutcome) {first : ℕ} (hfirst : 2 ≤ first) (count : ℕ) :
    (v.put (putBits v.bytes (4096 * exfatClusterLba v 2) (range' (first - 2) count) false)
      outcomes).usedSet = v.usedSet \ clusterRun first count := by
  ext c
  change 2 ≤ c ∧ c < v.clusterCount + 2 ∧ _ ↔
    (2 ≤ c ∧ c < v.clusterCount + 2 ∧ _) ∧ ¬ (first ≤ c ∧ c < first + count)
  rw [used_putBits]
  split_ifs with hin
  · have hrange := mem_range'_1.mp hin
    constructor
    · rintro ⟨-, -, hfalse⟩
      cases hfalse
    · rintro ⟨⟨hlow, -, -⟩, hout⟩
      exact absurd (by omega) hout
  · rw [mem_range'_1] at hin
    constructor
    · rintro ⟨hlow, hhigh, hused⟩
      exact ⟨⟨hlow, hhigh, hused⟩, by omega⟩
    · exact fun h => h.1

/-- The used clusters depend on the bitmap's cluster only. -/
theorem usedSet_congr {S : Set ℕ} {bytes bytes' : Bytes} (hv : v.Formatted)
    (hkeep : KeepsOutside S bytes bytes') (hS : 2 ∉ S) (outcomes outcomes' : List SectorOutcome) :
    (v.put bytes' outcomes').usedSet = (v.put bytes outcomes).usedSet := by
  ext c
  have hcount := hv.count_le
  have hsame (hc : c < v.clusterCount + 2) : (v.put bytes' outcomes').used c = (v.put bytes outcomes).used c := by
    unfold used bitAt
    rw [exfatClusterLba_put, exfatClusterLba_put, put_bytes, put_bytes, hv.bitmapLba, hkeep]
    intro b hb heq
    have htwo : b = 2 := by omega
    exact hS (htwo ▸ hb)
  constructor
  · rintro ⟨hlow, hhigh, hused⟩
    exact ⟨hlow, hhigh, hsame hhigh ▸ hused⟩
  · rintro ⟨hlow, hhigh, hused⟩
    exact ⟨hlow, hhigh, (hsame hhigh).symm ▸ hused⟩

theorem clustersFor_pos {size : ℕ} (hsize : size + 4095 < 2 ^ 44) : 0 < clustersFor size := by
  unfold clustersFor
  split_ifs <;> omega

theorem clustersFor_mono {size size' : ℕ} (hle : size ≤ size') (hsize : size' + 4095 < 2 ^ 44) :
    clustersFor size ≤ clustersFor size' := by
  unfold clustersFor
  split_ifs <;> omega

theorem le_clustersFor {size : ℕ} (hsize : size + 4095 < 2 ^ 44) : size ≤ 4096 * clustersFor size := by
  unfold clustersFor
  split_ifs <;> omega

theorem sectorsFor_le {size : ℕ} (hsize : size + 4095 < 2 ^ 44) : sectorsFor size ≤ 8 * clustersFor size := by
  unfold sectorsFor clustersFor
  split_ifs <;> omega

theorem Live.owns (hk : Live (clusterAt v.bytes d) k) (hd : v.Reach d)
    (hc : c ∈ (nodeAt (clusterAt v.bytes d) k).run) : Owns v.view 4 (d, k) c :=
  ⟨hd, nodeAt (clusterAt v.bytes d) k, hk.slotNode, hc⟩

namespace Volume.Sound

variable (hv : v.Sound)
include hv

theorem reach_bounds (hd : v.Reach d) : 4 ≤ d ∧ d < v.clusterCount + 2 := by
  obtain ⟨hlow, hhigh, -⟩ := hv.separated.reach_used hd
  rcases Forest.Reach.cases_owner hv.separated hd with rfl | ⟨p, k, n, -, -, -, -, howns⟩
  · exact ⟨le_rfl, hhigh⟩
  · have hsystem : ¬ (2 ≤ d ∧ d ≤ 4) := hv.separated.owned_system howns
    omega

/-- The bitmap is no directory. -/
theorem reach_ne_two (hd : v.Reach d) : d ≠ 2 := by
  have hbounds := hv.reach_bounds hd
  omega

variable (hd : v.Reach d) (hk : Live (clusterAt v.bytes d) k)
include hd hk

/-- The clusters of a live entry lie in the cluster heap behind the root directory. -/
theorem run_bounds : 5 ≤ firstCluster (clusterAt v.bytes d) (32 * k) ∧
    firstCluster (clusterAt v.bytes d) (32 * k) +
      clustersFor (dataLength (clusterAt v.bytes d) (32 * k)) ≤ v.clusterCount + 2 := by
  have hpos := clustersFor_pos (hv.sizeOk d k hd hk).1
  have hmem {c : ℕ} (hlow : firstCluster (clusterAt v.bytes d) (32 * k) ≤ c)
      (hhigh : c < firstCluster (clusterAt v.bytes d) (32 * k) +
        clustersFor (dataLength (clusterAt v.bytes d) (32 * k))) :
      (2 ≤ c ∧ c < v.clusterCount + 2) ∧ ¬ (2 ≤ c ∧ c ≤ 4) := by
    have howns := hk.owns hd ⟨hlow, hhigh⟩
    obtain ⟨hlow, hhigh, -⟩ := hv.separated.owned_used howns
    exact ⟨⟨hlow, hhigh⟩, hv.separated.owned_system howns⟩
  have hfirst := hmem le_rfl (by omega)
  have hlast := hmem (c := firstCluster (clusterAt v.bytes d) (32 * k) +
    clustersFor (dataLength (clusterAt v.bytes d) (32 * k)) - 1) (by omega) (by omega)
  omega

/-- A reachable directory in the run of a live entry is the directory that entry names. -/
theorem reach_mem_run {p : ℕ} (hp : v.Reach p) (hrun : p ∈ (nodeAt (clusterAt v.bytes d) k).run) :
    isDirectory (clusterAt v.bytes d) (32 * k) = true ∧ p = firstCluster (clusterAt v.bytes d) (32 * k) := by
  have howns := hk.owns hd hrun
  rcases Forest.Reach.cases_owner hv.separated hp with rfl | ⟨q, j, n, -, hslot, hdir, rfl, hother⟩
  · exact absurd hv.separated.root_system (hv.separated.owned_system howns)
  · cases hv.separated.owner_unique hother howns
    obtain ⟨-, rfl⟩ := slotNode_some hslot
    exact ⟨hdir, rfl⟩

end Volume.Sound

/-!
## Changes that keep a volume sound

Updating an entry that is no directory, placing a new entry and clearing one: if the drive
changes accordingly in the directory concerned, in no other reachable directory, and in the
bitmap, the volume stays sound. Nothing leaks either, except what a non-empty directory held.
-/

open Option Set And

/-- Every used cluster belongs to the system or to a reachable entry. -/
def Volume.NoLeak (v : Volume) : Prop := Forest.NoLeak v.view 4 systemClusters v.usedSet

theorem zero_ne_typeFile : (0 : UInt8) ≠ typeFile := by decide

/-- Directories that agree on a set agree on its length. -/
theorem SizeOk.congr {dir dir' : Bytes} {k : ℕ} (hok : SizeOk dir k) (hpos : 1 ≤ secondaryCount dir (32 * k))
    (h : ∀ x, 32 * k ≤ x → x < 32 * (k + secondaryCount dir (32 * k) + 1) → dir x = dir' x) :
    SizeOk dir' k := by
  obtain ⟨-, hlength, hdir⟩ := stream_congr hpos h
  rwa [SizeOk, hlength, hdir] at hok

namespace Volume.Sound

variable {v : Volume} {bytes : Bytes} {outcomes : List SectorOutcome} {d k size checksum first : ℕ}
  {cluster : Option ℕ} (hv : v.Sound) (hd : v.currentCluster = d)
  (hkeep : ∀ p, v.Reach p → p ≠ d → clusterAt bytes p = clusterAt v.bytes p)

include hv hd hkeep

/-- A volume with one slot of the current directory changed stays sound if the new entry has clusters
that nobody else owns and, as a directory, is empty. -/
theorem change {entry} (hself : slotNode (clusterAt bytes d) k = entry)
    (hother : ∀ j ≠ k, slotNode (clusterAt bytes d) j = slotNode (clusterAt v.bytes d) j)
    (hempty : ∀ n, entry = some n → n.isDir → clusterAt bytes n.first = fun _ => 0)
    (hfirst : ∀ n, entry = some n → n.isDir → n.first ∈ n.run)
    (hfresh : Disjoint (blocks entry) (v.usedSet \ blocks (v.view d k)))
    (hused : v.usedSet \ blocks (v.view d k) ∪ blocks entry ⊆ (v.put bytes outcomes).usedSet)
    (hdirOk : DirOk (clusterAt bytes d))
    (hsizeOk : ∀ j, Live (clusterAt bytes d) j → SizeOk (clusterAt bytes d) j) :
    (v.put bytes outcomes).Sound ∧
      ((v.put bytes outcomes).usedSet ⊆ v.usedSet \ blocks (v.view d k) ∪ blocks entry →
        (∀ m, v.view d k = some m → m.isDir → ∀ j, v.view m.first j = none) →
          v.NoLeak → (v.put bytes outcomes).NoLeak) := by
  have hchange : ChangesSlot v.view (v.put bytes outcomes).view 4 d k entry := by
    unfold view
    rw [put_bytes]
    refine ⟨hd ▸ hv.current, hself, fun {p j} hp hne => ?_⟩
    by_cases hpd : p = d
    · rw [hpd]
      exact hother j fun hjk => hne (Prod.ext hpd hjk)
    · exact congrArg (slotNode · j) (hkeep p hp hpd)
  have hnew : ∀ n, entry = some n → n.isDir → ∀ j, (v.put bytes outcomes).view n.first j = none := by
    intro n hn hdir j
    unfold view
    rw [put_bytes, hempty n hn hdir]
    exact if_neg fun h => absurd h.2 zero_ne_typeFile
  refine ⟨{ hv.toFormatted.put with
    separated := (hv.separated.change hchange hnew hfresh hfirst).mono hused
    dirOk := ?_, sizeOk := ?_, current := ?_ }, fun hexact hold hleak c hc => ?_⟩
  · intro p hp
    rw [put_bytes]
    rcases reach_of_change hchange hnew hp with hp | ⟨n, hn, hdir, rfl⟩
    · by_cases hpd : p = d
      · rwa [hpd]
      · rw [hkeep p hp hpd]
        exact hv.dirOk p hp
    · rw [hempty n hn hdir]
      exact fun j _ hfile => absurd hfile zero_ne_typeFile
  · intro p j hp hj
    rw [put_bytes] at hj ⊢
    rcases reach_of_change hchange hnew hp with hp | ⟨n, hn, hdir, rfl⟩
    · by_cases hpd : p = d
      · rw [hpd] at hj ⊢
        exact hsizeOk j hj
      · rw [hkeep p hp hpd] at hj ⊢
        exact hv.sizeOk p j hp hj
    · rw [hempty n hn hdir] at hj
      exact absurd hj.2 zero_ne_typeFile
  · change Forest.Reach _ 4 v.currentCluster
    rw [hd]
    exact reach_change_self hchange
  · exact Forest.NoLeak.change hchange hold hleak c (hexact hc)

/-- Updating a file with clusters that nobody else owns keeps the volume sound. -/
theorem replace (hk : Live (clusterAt v.bytes d) k) (hfile : isDirectory (clusterAt v.bytes d) (32 * k) = false)
    (hdir : clusterAt bytes d = updatedSector (clusterAt v.bytes d) (32 * k) cluster size checksum)
    (hfirst : firstCluster (clusterAt bytes d) (32 * k) = first) (hsize : size + 4095 < 2 ^ 44)
    (hused : v.usedSet \ (nodeAt (clusterAt v.bytes d) k).run ∪ clusterRun first (clustersFor size) ⊆
      (v.put bytes outcomes).usedSet)
    (hfresh : Disjoint (clusterRun first (clustersFor size)) (v.usedSet \ (nodeAt (clusterAt v.bytes d) k).run)) :
    (v.put bytes outcomes).Sound ∧
      ((v.put bytes outcomes).usedSet ⊆ v.usedSet \ (nodeAt (clusterAt v.bytes d) k).run ∪
        clusterRun first (clustersFor size) → v.NoLeak → (v.put bytes outcomes).NoLeak) := by
  have hreach := hd ▸ hv.current
  have hlength : dataLength (clusterAt bytes d) (32 * k) = size := by
    rw [hdir, dataLength_update (by omega)]
  have hnotdir : isDirectory (clusterAt bytes d) (32 * k) = false := by rw [hdir, isDirectory_update, hfile]
  have hlive : Live (clusterAt bytes d) k := by
    rw [hdir]
    exact ⟨hk.1, updatedSector_type.trans hk.2⟩
  have hold : blocks (v.view d k) = (nodeAt (clusterAt v.bytes d) k).run :=
    (congrArg blocks hk.slotNode).trans blocks_some
  have hrun : blocks (some (nodeAt (clusterAt bytes d) k)) = clusterRun first (clustersFor size) := by
    rw [blocks_some, nodeAt, hfirst, hlength]
  have hnew (n) (hn : some (nodeAt (clusterAt bytes d) k) = some n) : ¬ n.isDir := by
    cases hn
    simp [nodeAt, hnotdir]
  rw [← hold, ← hrun] at hused hfresh ⊢
  refine imp_right (fun hleak hexact => hleak hexact fun m hm h => ?_) (hv.change hd hkeep hlive.slotNode
      (fun j hjk => by rw [hdir, slotNode_update_of_ne hk.2 ((hv.dirOk d hreach).setAt hk) hjk])
      (fun n hn h => absurd h (hnew n hn)) (fun n hn h => absurd h (hnew n hn)) hfresh hused
      (hdir ▸ (hv.dirOk d hreach).update) fun j hj => ?_)
  · cases hk.slotNode.symm.trans hm
    simp [nodeAt, hfile] at h
  · by_cases hjk : j = k
    · rw [hjk, SizeOk, hlength, hnotdir]
      exact ⟨hsize, fun h => absurd h Bool.false_ne_true⟩
    have hfield : dataLength (clusterAt bytes d) (32 * j) = dataLength (clusterAt v.bytes d) (32 * j) := by
      rw [hdir]
      exact field_update_of_ne hjk (by decide)
    have hj' : Live (clusterAt v.bytes d) j := by
      rw [hdir] at hj
      exact ⟨hj.1, updatedSector_type.symm.trans hj.2⟩
    have hsame : isDirectory (clusterAt bytes d) (32 * j) =
        isDirectory (clusterAt v.bytes d) (32 * j) := by rw [hdir, isDirectory_update]
    rw [SizeOk, hfield, hsame]
    exact hv.sizeOk d j hreach hj'

/-- Placing a new entry with a fresh cluster keeps the volume sound. -/
theorem create {name : List UInt8} {isDir : Bool} (hname : name ≠ [])
    (hslot : freeSlot (clusterAt v.bytes d) (totalEntries name) = some k)
    (hdir : clusterAt bytes d = withSet (clusterAt v.bytes d) name isDir first k) (hfirst : first < 2 ^ 32)
    (hunused : first ∉ v.usedSet) (hzero : isDir = true → clusterAt bytes first = fun _ => 0)
    (hused : (v.put bytes outcomes).usedSet = v.usedSet ∪ clusterRun first 1) :
    (v.put bytes outcomes).Sound ∧ (v.NoLeak → (v.put bytes outcomes).NoLeak) := by
  have hok := hv.dirOk d (hd ▸ hv.current)
  obtain ⟨hfits, hfree⟩ := freeSlot_some ((totalEntries_bounds hname).2.trans (by decide)) hslot
  obtain ⟨-, hisdir, hcluster, hlength⟩ := withSet_fields hname hfirst (clusterAt v.bytes d) isDir k
  rw [← hdir] at hisdir hcluster hlength
  have hplace (j : ℕ) := slotNode_place hok hname hfits hfree isDir first j
  rw [← hdir] at hplace
  have hvacant : v.view d k = none := by
    have hbounds := totalEntries_bounds hname
    apply if_neg
    rintro ⟨-, hfile⟩
    have hbit := hfree 0 (by omega)
    rw [Nat.add_zero, hfile] at hbit
    contradiction
  have hrun : (nodeAt (clusterAt bytes d) k).run = clusterRun first 1 := by
    rw [nodeAt, hcluster, hlength]
    rfl
  have hblocks : v.usedSet \ blocks (v.view d k) ∪ blocks (some (nodeAt (clusterAt bytes d) k)) =
      (v.put bytes outcomes).usedSet := by
    rw [hvacant, blocks_none, sdiff_empty, blocks_some, hrun, hused]
  refine imp_right (fun hleak => hleak hblocks.ge fun m hm => ?_)
    (hv.change hd hkeep ((hplace k).trans (if_pos rfl)) (fun j hjk => (hplace j).trans (if_neg hjk))
      (fun n hn hdirectory => ?_) (fun n hn _ => ?_) ?_ hblocks.le
      (hdir ▸ hok.place hname hfirst hfits hfree) fun j hj => ?_)
  · cases hn
    change clusterAt bytes (firstCluster (clusterAt bytes d) (32 * k)) = _
    rw [hcluster, hzero (hisdir.symm.trans hdirectory)]
  · cases hn
    rw [hrun]
    exact ⟨hcluster.ge, hcluster.trans_lt (by omega)⟩
  · rw [blocks_some, hrun, Set.disjoint_left]
    rintro c ⟨hlow, hhigh⟩ ⟨hc, -⟩
    have heq : c = first := by omega
    exact hunused (heq ▸ hc)
  · rw [hvacant] at hm
    cases hm
  · by_cases hjk : j = k
    · rw [hjk, SizeOk, hlength]
      exact ⟨by decide, fun _ => rfl⟩
    have hnode := hplace j
    rw [if_neg hjk, hj.slotNode] at hnode
    have hj' := (slotNode_some hnode.symm).1
    have hcount := (hok.setAt hj').count
    rw [hdir]
    exact (hv.sizeOk d j (hd ▸ hv.current) hj').congr (by omega) (withSet_other hok hfree hj')

/-- Clearing an entry of the current directory and freeing its clusters keeps the volume sound. -/
theorem delete (hk : Live (clusterAt v.bytes d) k)
    (hdir : clusterAt bytes d = clearedSector (clusterAt v.bytes d) (32 * k)
      (secondaryCount (clusterAt v.bytes d) (32 * k) + 1))
    (hused : v.usedSet \ (nodeAt (clusterAt v.bytes d) k).run ⊆ (v.put bytes outcomes).usedSet) :
    (v.put bytes outcomes).Sound ∧
      ((v.put bytes outcomes).usedSet ⊆ v.usedSet \ (nodeAt (clusterAt v.bytes d) k).run →
        (isDirectory (clusterAt v.bytes d) (32 * k) = true →
        ∀ j, ¬ Live (clusterAt v.bytes (firstCluster (clusterAt v.bytes d) (32 * k))) j) →
        v.NoLeak → (v.put bytes outcomes).NoLeak) := by
  have hok := hv.dirOk d (hd ▸ hv.current)
  have hclear (j : ℕ) := slotNode_clear hok hk j
  rw [← hdir] at hclear
  have hblocks : v.usedSet \ blocks (v.view d k) ∪ blocks (none : Option (Node ℕ (List UInt8))) =
      v.usedSet \ (nodeAt (clusterAt v.bytes d) k).run := by
    rw [blocks_none, union_empty, show v.view d k = _ from hk.slotNode, blocks_some]
  refine imp_right (fun hleak hexact hempty => hleak (hexact.trans hblocks.ge) fun m hm hfull j => ?_)
    (hv.change hd hkeep ((hclear k).trans (if_pos rfl)) (fun j hjk => (hclear j).trans (if_neg hjk))
      (fun n hn => nomatch hn) (fun n hn => nomatch hn) ?_ (hblocks.trans_le hused)
      (hdir ▸ hok.clear hk) fun j hj => ?_)
  · cases hk.slotNode.symm.trans hm
    exact if_neg (hempty hfull j)
  · rw [blocks_none]
    exact empty_disjoint _
  · have hnode := hclear j
    rw [hj.slotNode] at hnode
    have hjk : j ≠ k := by
      intro hjk
      rw [if_pos hjk] at hnode
      cases hnode
    rw [if_neg hjk] at hnode
    have hj' := (slotNode_some hnode.symm).1
    have hcount := (hok.setAt hj').count
    rw [hdir]
    exact (hv.sizeOk d j (hd ▸ hv.current) hj').congr (by omega) (cleared_other hok hk hj' hjk)

end Volume.Sound

/-!
## Lookups and entry updates on a sound volume

On a sound volume the current directory is a reachable, well-formed cluster, and a lookup
finds the first slot with the name. Rewriting the sector of the set it found changes that set
in the directory and nothing else on the drive, provided the set lies in one sector; otherwise
the outcome is undefined.
-/

open Windoge.Flow

/-- The entry set lies within one sector. -/
def FitsSector (dir : Bytes) (k : ℕ) : Prop :=
  32 * k % 512 + 32 * (secondaryCount dir (32 * k) + 1) ≤ 512

instance (dir : Bytes) (k : ℕ) : Decidable (FitsSector dir k) := by
  unfold FitsSector
  infer_instance

/-- The file entry and the stream entry of a set lie within one sector. -/
def FitsStream (k : ℕ) : Prop := 32 * k % 512 + 64 ≤ 512

/-- The checksum that an update of the set in a slot computes: its sector is all it has read. -/
def seenChecksum (behind dir : Bytes) (k : ℕ) (cluster : Option ℕ) (size : ℕ) : ℕ :=
  updatedChecksum (overrun (fun i => dir (512 * (32 * k / 512) + i)) behind) (32 * k % 512) cluster size

/-- The contents of the current directory of a volume with the formatter's geometry. -/
def Volume.cwd (v : Volume) : Bytes := clusterAt v.bytes v.currentCluster

/-- What a lookup reports about a slot of the current directory. -/
def Volume.target (v : Volume) (k : ℕ) : Target :=
  targetAt (8 * (v.currentCluster + 766)) v.cwd (32 * k)

variable {w w' : Volume} {name : List UInt8} {target : Target} {d k size : ℕ} {cluster : Option ℕ}
  {dir : Bytes}

theorem Volume.cwd_put (v : Volume) (bytes : Bytes) (outcomes : List SectorOutcome) :
    (v.put bytes outcomes).cwd = clusterAt bytes v.currentCluster :=
  congrArg (clusterAt · v.currentCluster) (v.put_bytes bytes outcomes)

section Formatted

variable (hv : v.Formatted) (hlow : 2 ≤ v.currentCluster) (hhigh : v.currentCluster < v.clusterCount + 2)
include hv hlow hhigh

theorem Volume.Formatted.cwdLba : exfatClusterLba v v.currentCluster = 8 * (v.currentCluster + 766) := by
  have hcount := hv.count_le
  exact hv.clusterLba hlow (by omega)

theorem Volume.Formatted.directory_eq : v.directory = v.cwd := by
  have haddress : 512 * (8 * (v.currentCluster + 766)) = clusterBase v.currentCluster := by
    rw [clusterBase]
    omega
  rw [directory, hv.cwdLba hlow hhigh, haddress]
  rfl

/-- Without failures to come a lookup in a well-formed directory finds the first slot with the
name. -/
theorem Volume.Formatted.resolve_quiet (hok : DirOk v.cwd) (hready : v.Ready) (name : List UInt8) :
    exfatResolveEntry name v =
      match findSlot v.cwd name with
      | none => .error (.code (-1)) v
      | some k => .ok (v.target k) v := by
  have hcount := hv.count_le
  rw [exfatResolveEntry_quiet hready.quiet, hv.directory_eq hlow hhigh, hv.cwdLba hlow hhigh, hok.resolveScan_eq]
  · cases findSlot v.cwd name <;> rfl
  · intro s hs
    rw [hv.cwdLba hlow hhigh]
    refine hready.accepts ?_
    rw [lbaLimit]
    omega

end Formatted

namespace Volume.Sound

theorem clusterLba (hv : v.Sound) (hd : v.Reach d) : exfatClusterLba v d = 8 * (d + 766) := by
  have hbounds := hv.reach_bounds hd
  have hcount := hv.count_le
  exact hv.toFormatted.clusterLba (by omega) (by omega)

theorem directory (hv : v.Sound) : v.directory = v.cwd := by
  have hbounds := hv.reach_bounds hv.current
  exact hv.toFormatted.directory_eq (by omega) hbounds.2

theorem cwdOk (hv : v.Sound) : DirOk v.cwd := hv.dirOk _ hv.current

theorem lba_lt (hv : v.Sound) (hd : v.Reach d) {s : ℕ} (hs : s < 8) : 8 * (d + 766) + s < lbaLimit := by
  have hbounds := hv.reach_bounds hd
  have hcount := hv.count_le
  rw [lbaLimit]
  omega

/-- A lookup that succeeds reports the first slot with the name. -/
theorem resolve_ok (hv : v.Sound) (h : exfatResolveEntry name v = .ok target v') :
    ∃ k outcomes, findSlot v.cwd name = some k ∧ target = v.target k ∧ v' = v.put v.bytes outcomes := by
  obtain ⟨i, outcomes, hscan, rfl, rfl⟩ := exfatResolveEntry_ok h
  rw [hv.directory, hv.cwdOk.resolveScan_eq, Option.map_eq_some_iff] at hscan
  obtain ⟨k, hfind, rfl⟩ := hscan
  refine ⟨k, outcomes, hfind, ?_, rfl⟩
  rw [target, hv.directory, hv.clusterLba hv.current]

theorem resolve_quiet (hv : v.Sound) (hready : v.Ready) (name : List UInt8) : exfatResolveEntry name v =
    match findSlot v.cwd name with
    | none => .error (.code (-1)) v
    | some k => .ok (v.target k) v := by
  have hbounds := hv.reach_bounds hv.current
  exact hv.toFormatted.resolve_quiet (by omega) hbounds.2 hv.cwdOk hready name

end Volume.Sound

section Update

/-- The checksum of a set that lies in one sector is computed whatever stands behind the buffer. -/
theorem seenChecksum_eq (hset : SetAt dir k) (hfits : FitsSector dir k) (behind : Bytes) :
    seenChecksum behind dir k cluster size = updatedChecksum dir (32 * k) cluster size := by
  have hcount := hset.count
  have hshift : Shifted (512 * (32 * k / 512)) (fun i => dir (512 * (32 * k / 512) + i)) dir := fun _ _ => rfl
  rw [FitsSector] at hfits
  have hsum := @Shifted.updatedChecksum _ _ _ (32 * k % 512) hshift behind cluster size (by omega)
  rw [Nat.div_add_mod] at hsum
  exact hsum (by omega)

theorem sector_count (hk : k ≤ 127) :
    secondaryCount (sectorAt w.bytes (8 * (d + 766) + 32 * k / 512)) (32 * k % 512) =
      secondaryCount (clusterAt w.bytes d) (32 * k) := by
  have hcount := (shifted_sectorAt w.bytes d hk).secondaryCount (32 * k % 512) (by omega)
  rwa [Nat.div_add_mod] at hcount

variable (hset : SetAt (clusterAt w.bytes d) k)
include hset

theorem clear_fits_iff (sector : Bytes)
    (hcount : secondaryCount sector (32 * k % 512) = secondaryCount (clusterAt w.bytes d) (32 * k)) :
    ¬ 512 < 32 * k % 512 + 32 * ((secondaryCount sector (32 * k % 512) + 1) % 256) ↔
      FitsSector (clusterAt w.bytes d) k := by
  have hfits := hset.fits
  rw [hcount, FitsSector]
  omega

variable (hlba : target.entryLba = 8 * (d + 766) + 32 * k / 512)
  (hoffset : target.entryOffset = 32 * k % 512)
include hlba hoffset

/-- An entry update that succeeds changes the set in its directory and nothing else. -/
theorem updateEntry_ok {u : Unit} (h : updateEntry target cluster size w = .ok u w') :
    FitsStream k ∧ ∃ bytes outcomes, w' = w.put bytes outcomes ∧
      clusterAt bytes d = updatedSector (clusterAt w.bytes d) (32 * k) cluster size
        (seenChecksum w.behind (clusterAt w.bytes d) k cluster size) ∧ KeepsOutside {d} w.bytes bytes := by
  have hlast := hset.fits
  unfold updateEntry at h
  rw [Flow.get_bind] at h
  obtain ⟨sector, w₁, hread, h⟩ := bind_eq_ok h
  obtain ⟨rfl, rfl⟩ := exfatSectorRead_ok hread
  rw [hlba, hoffset] at h
  split_ifs at h with hbound
  · cases h
  have hwrite := exfatSectorWrite_ok h
  rw [put_bytes, put_put] at hwrite
  refine ⟨not_lt.mp hbound, _, _, hwrite, ?_, keepsOutside_putSector _ _ (by omega)⟩
  have hbuffer : overrun (sectorAt w.bytes (8 * (d + 766) + 32 * k / 512)) w.behind =
      overrun (fun i => clusterAt w.bytes d (512 * (32 * k / 512) + i)) w.behind := by
    funext i
    unfold overrun
    split_ifs with hi
    · exact sectorAt_cluster (by omega) hi
    · rfl
  rw [clusterAt_updatedSector (by omega) (not_lt.mp hbound), hbuffer, seenChecksum]

/-- Without failures to come an entry update succeeds exactly if the file entry and the stream entry
lie in one sector. -/
theorem updateEntry_quiet (cluster : Option ℕ) (size : ℕ) (hready : w.Ready)
    (hlimit : 8 * (d + 766) + 8 ≤ lbaLimit) :
    (FitsStream k → ∃ w', updateEntry target cluster size w = .ok () w') ∧
      (¬ FitsStream k → updateEntry target cluster size w = .error .undefined w) := by
  have hlast := hset.fits
  have haccepts : w.Accepts (8 * (d + 766) + 32 * k / 512) := hready.accepts (by omega)
  rw [updateEntry, Flow.get_bind, hlba, hoffset, bind_ok (exfatSectorRead_quiet hready.quiet haccepts)]
  constructor
  · intro hfits
    rw [if_neg (not_lt.mpr hfits)]
    exact ⟨_, exfatSectorWrite_quiet hready.quiet haccepts⟩
  · intro hnot
    rw [if_pos (not_le.mp hnot)]
    rfl

/-- Clearing an entry that succeeds changes the set in its directory and nothing else. -/
theorem clearEntry_ok {u : Unit} (h : clearEntry target w = .ok u w') :
    FitsSector (clusterAt w.bytes d) k ∧ ∃ bytes outcomes, w' = w.put bytes outcomes ∧
      clusterAt bytes d = clearedSector (clusterAt w.bytes d) (32 * k)
        (secondaryCount (clusterAt w.bytes d) (32 * k) + 1) ∧ KeepsOutside {d} w.bytes bytes := by
  have hlast := hset.fits
  have hcount := sector_count (w := w) (d := d) (by omega : k ≤ 127)
  obtain ⟨sector, w₁, hread, h⟩ := bind_eq_ok h
  obtain ⟨rfl, rfl⟩ := exfatSectorRead_ok hread
  rw [hlba, hoffset] at h
  split_ifs at h with hbound
  · cases h
  have hfits := (clear_fits_iff hset _ hcount).mp hbound
  have htotal : (secondaryCount (clusterAt w.bytes d) (32 * k) + 1) % 256 =
      secondaryCount (clusterAt w.bytes d) (32 * k) + 1 := by omega
  rw [hcount, htotal] at h
  have hwrite := exfatSectorWrite_ok h
  rw [put_bytes, put_put] at hwrite
  refine ⟨hfits, _, _, hwrite, ?_, keepsOutside_putSector _ _ (by omega)⟩
  exact clusterAt_clearedSector (by omega) hfits

/-- Without failures to come an entry is cleared exactly if the set lies in one sector. -/
theorem clearEntry_quiet (hready : w.Ready) (hlimit : 8 * (d + 766) + 8 ≤ lbaLimit) :
    (FitsSector (clusterAt w.bytes d) k → ∃ w', clearEntry target w = .ok () w') ∧
      (¬ FitsSector (clusterAt w.bytes d) k → clearEntry target w = .error .undefined w) := by
  have hlast := hset.fits
  have haccepts : w.Accepts (8 * (d + 766) + 32 * k / 512) := hready.accepts (by omega)
  have hiff := clear_fits_iff hset _ (sector_count (by omega))
  rw [clearEntry, hlba, hoffset, bind_ok (exfatSectorRead_quiet hready.quiet haccepts)]
  constructor
  · intro hfits
    rw [if_neg (hiff.mpr hfits)]
    exact ⟨_, exfatSectorWrite_quiet hready.quiet haccepts⟩
  · intro hnot
    rw [if_pos (not_not.mp fun hbound => hnot (hiff.mp hbound))]
    rfl

end Update

end Windoge.Exfat
