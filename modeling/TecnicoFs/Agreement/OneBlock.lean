import TecnicoFs.Server.Ownership
import TecnicoFs.Tfs.RoundTrip

/-!
# One block — the two file systems on files of one block

`Agree` relates a state of `tfs` and a state of `tfs_server`: the same i-nodes are taken, the directories are
equal, the open file tables are equal, and each file has the same size and bytes.  A file of `tfs` has at
most its first block, and no handle is past the end of its file.  The block numbers themselves differ.
-/

namespace TecnicoFs
namespace Agreement

open Lib

/-! ## The relation -/

/-- File `i` is the same in both file systems. -/
structure SameFile (s : Tfs.State) (v : Server.State) (i : ℕ) : Prop where
  live : Tfs.LiveFile s i
  size : (v.inodeTable i).iSize = (s.inodeTable i).iSize
  le : (s.inodeTable i).iSize ≤ 1024
  first : Tfs.slotValue s (Tfs.fileSlot i 0) = -1 ↔ (s.inodeTable i).iSize = 0
  later : ∀ k < 266, 0 < k → Tfs.slotValue s (Tfs.fileSlot i k) = -1
  bytes : ∀ p < (s.inodeTable i).iSize,
    Tfs.byteAt s i p = v.disk.fsData ((v.inodeTable i).iDataBlock.toNat * 1024 + p)

/-- The handle `h` is on file `i` at offset `o` in both, and does not append. -/
structure SameHandle (s : Tfs.State) (v : Server.State) (h i o : ℕ) : Prop where
  entry : s.openFileTable h = ⟨i, o, 0⟩
  serverEntry : v.openFileTable h = ⟨i, o⟩
  live : Tfs.LiveFile s i
  le : o ≤ (s.inodeTable i).iSize

structure Same (s : Tfs.State) (v : Server.State) : Prop where
  running : v.stateClosing = false
  inodes : v.freeinodeTs = s.freeinodeTs
  dir : SameBlock s.disk.fsData v.disk.fsData 0
  taken : v.freeOpenFileEntries = s.freeOpenFileEntries
  handles : ∀ h < 20, s.freeOpenFileEntries h = .taken → ∃ i o, SameHandle s v h i o
  files : ∀ i, 0 < i → Tfs.Allocated s i → SameFile s v i

structure Agree (s : Tfs.State) (v : Server.State) : Prop extends Same s v where
  inv : Tfs.Inv s
  server : Server.Inv v

section Basic

variable {s s' : Tfs.State} {v v' : Server.State} {h i j o : ℕ} {path : Path}

/-- Lookups in the two root directories. -/
theorem Agree.lookup_eq (ha : Agree s v) (path : Path) :
    Server.tfsLookupUnsynchronized path v = Tfs.tfsLookup path s := by
  rcases path with _ | p
  · rfl
  have hserver := Server.findInDir_root ha.server p.tail
  have htfs := Tfs.findInDir_root ha.inv.rootDirectory p.tail
  rw [ha.dir.searchEntry_eq ha.inv.terminated] at hserver
  have hfind : Server.findInDir rootDirInum p.tail v = Tfs.findInDir rootDirInum p.tail s := by
    rw [hserver, htfs]
    rcases hsearch : searchEntry s.disk.fsData 0 p.tail with _ | k
    · simp only [Option.elim_none]
    · simp only [Option.elim_some]
      exact ha.dir.dInumber_eq ((searchEntry_eq_some ha.inv.terminated).1 hsearch).1
  simp only [Server.tfsLookupUnsynchronized, Tfs.tfsLookup, hfind]

/-- The slots that can refer to a block: those of the root's i-node, and the index and first block of each
file. -/
def usedSlots : Finset Tfs.Slot :=
  (Finset.range 10).image (Tfs.Slot.direct 0) ∪
    ((Finset.range 50).image Tfs.Slot.index ∪ (Finset.range 50).image fun i => Tfs.Slot.direct i 0)

theorem card_usedSlots_le : usedSlots.card ≤ 110 := by
  calc usedSlots.card
      ≤ ((Finset.range 10).image (Tfs.Slot.direct 0)).card +
          ((Finset.range 50).image Tfs.Slot.index ∪
            (Finset.range 50).image fun i => Tfs.Slot.direct i 0).card := Finset.card_union_le _ _
    _ ≤ 10 + (50 + 50) := by
        gcongr
        · exact Finset.card_image_le
        · refine (Finset.card_union_le _ _).trans ?_
          exact Nat.add_le_add Finset.card_image_le Finset.card_image_le

theorem Agree.mem_usedSlots (ha : Agree s v) {x : Tfs.Slot} {b : ℕ} (hx : Tfs.Refers s x b) :
    x ∈ usedSlots := by
  rcases hx with ⟨hslot, hvalue⟩
  cases x with
  | direct i k =>
      rcases hslot with ⟨halloc, hk⟩
      have hten : k < 10 := hk
      by_cases hi : i = 0
      · subst hi
        simp [usedSlots, hten]
      · -- a file of one block has no later block
        have hzero : k = 0 := by
          by_contra hpos
          have hlater := (ha.files i (by omega) halloc).later k (by omega) (by omega)
          rw [Tfs.fileSlot, if_pos hten] at hlater
          omega
        subst hzero
        have hlt : i < 50 := halloc.1
        simp [usedSlots, hlt]
  | index i =>
      have hlt : i < 50 := hslot.1
      simp [usedSlots, hlt]
  | entry i k =>
      have hlive := ha.inv.liveFile_of_isSlot_entry hslot
      have hk : k < 256 := hslot.2.2.2
      have hlater := (ha.files i hlive.1 hlive.2.1).later (k + 10) (by omega) (by omega)
      rw [Tfs.fileSlot, if_neg (by omega), Nat.add_sub_cancel] at hlater
      omega

/-- There are more blocks than slots that can refer to one. -/
theorem Agree.exists_free_block (ha : Agree s v) : ∃ b < 1024, s.disk.freeBlocks b = .free := by
  by_contra hall
  push Not at hall
  have howner : ∀ b, ∃ x, b < 1024 → Tfs.Refers s x b := by
    intro b
    by_cases hb : b < 1024
    · have htaken : Tfs.BlockTaken s b := ⟨hb, AllocationState.ne_free.1 (hall b hb)⟩
      rcases (ha.inv.blocks.taken_iff b).1 htaken with ⟨x, hx⟩
      exact ⟨x, fun _ => hx⟩
    · exact ⟨.index 0, fun h => absurd h hb⟩
  choose owner howns using howner
  have hmaps : Set.MapsTo owner (Finset.range 1024) usedSlots := by
    intro b hb
    exact ha.mem_usedSlots (howns b (Finset.mem_range.1 hb))
  have hcard : usedSlots.card < (Finset.range 1024).card := by
    have hle := card_usedSlots_le
    rw [Finset.card_range]
    omega
  rcases Finset.exists_ne_map_eq_of_card_lt_of_maps_to hcard hmaps with ⟨b, hb, c, hc, hbc, hEq⟩
  have hrefersB := (howns b (Finset.mem_range.1 hb)).2
  have hrefersC := (howns c (Finset.mem_range.1 hc)).2
  rw [hEq, hrefersC] at hrefersB
  exact hbc (by omega)

end Basic

/-! ## Frames -/

section Frames

variable {s s' : Tfs.State} {v v' : Server.State} {h i j o b : ℕ}

/-- The first block of a file, where it has bytes. -/
theorem SameFile.refers_first (hf : SameFile s v i) (hs : Tfs.Inv s) (hpos : 0 < (s.inodeTable i).iSize) :
    ∃ b, Tfs.Refers s (Tfs.fileSlot i 0) b ∧ 0 < b := by
  have hslot := hs.isSlot_fileSlot hf.live (k := 0) (by omega)
  have hsome : Tfs.slotValue s (Tfs.fileSlot i 0) ≠ -1 := by
    intro hnone
    have hzero := hf.first.1 hnone
    omega
  rcases (hs.valid _ hslot).resolve_left hsome with ⟨b, _, hb⟩
  exact ⟨b, ⟨hslot, hb⟩, hs.block_pos ⟨hslot, hb⟩ (Tfs.fileSlot_ne_root hf.live.1 0)⟩

/-- Byte `p` of a file of one block. -/
theorem byteAt_of_lt {p : ℕ} (hp : p < 1024) : Tfs.byteAt s i p = Tfs.slotByte s (Tfs.fileSlot i 0) p := by
  unfold Tfs.byteAt Tfs.slotByte
  rw [Nat.div_eq_of_lt hp, Nat.mod_eq_of_lt hp]

/-- A file stays the same if its i-nodes do, and only free blocks and the directory changed. -/
theorem SameFile.of_data (hf : SameFile s v j) (hs : Tfs.Inv s) (hv : Server.Inv v) (hlive : Tfs.LiveFile s' j)
    (hnode : s'.inodeTable j = s.inodeTable j)
    (hdata : ∀ c, Tfs.BlockTaken s c → 0 < c → SameBlock s.disk.fsData s'.disk.fsData (c * 1024))
    (halloc : Server.Allocated v j) (hserver : v'.inodeTable j = v.inodeTable j)
    (hserverData : ∀ a, 1024 ≤ a → v'.disk.fsData a = v.disk.fsData a) : SameFile s' v' j := by
  have hvalue : ∀ k < 266, Tfs.slotValue s' (Tfs.fileSlot j k) = Tfs.slotValue s (Tfs.fileSlot j k) := by
    intro k hk
    unfold Tfs.fileSlot
    split
    · simp [Tfs.slotValue, hnode]
    · rcases hf.live.refers_index with ⟨a, _, _, hindex, haddr, hrefers⟩
      have haddr' : Tfs.indexAddress s' j = a * 1024 := by
        rw [← haddr, Tfs.indexAddress, hnode, Tfs.indexAddress]
      have hsame := hdata a (hs.blocks.taken_of_refers hrefers) (hs.block_pos hrefers (by simp))
      rw [Tfs.slotValue, Tfs.slotValue, haddr, haddr']
      apply readInt_congr
      intro p hp
      rw [Nat.add_assoc]
      exact hsame _ (by omega)
  constructor
  · exact hlive
  · rw [hserver, hnode]
    exact hf.size
  · rw [hnode]
    exact hf.le
  · rw [hvalue 0 (by omega), hnode]
    exact hf.first
  · intro k hk hpos
    rw [hvalue k hk]
    exact hf.later k hk hpos
  · intro p hp
    rw [hnode] at hp
    have hle := hf.le
    have hsize : 0 < (v.inodeTable j).iSize := by
      rw [hf.size]
      omega
    -- the byte is in a block that is taken, in both
    rcases hf.refers_first hs (by omega) with ⟨c, hrefers, hc⟩
    have hbyte : Tfs.byteAt s' j p = Tfs.byteAt s j p := by
      rw [byteAt_of_lt (by omega), byteAt_of_lt (by omega), Tfs.slotByte, Tfs.slotByte, hvalue 0 (by omega),
        hrefers.2, Int.toNat_natCast]
      exact hdata c (hs.blocks.taken_of_refers hrefers) hc p (by omega)
    rcases hv.valid j halloc hsize with ⟨d, _, hd⟩
    have hpos := hv.block_pos hf.live.1 ⟨halloc, hd, hsize⟩
    rw [hbyte, hf.bytes p hp, hserver, hserverData _ (by rw [hd, Int.toNat_natCast]; omega)]

theorem Same.allocated_iff (hs : Same s v) : Server.Allocated v j ↔ Tfs.Allocated s j := by
  simp [Server.Allocated, Tfs.Allocated, hs.inodes]

/-- A change of the open file tables only. -/
theorem Agree.of_handles (ha : Agree s v) (hdisk : s'.disk = s.disk) (hnodes : s'.inodeTable = s.inodeTable)
    (hfree : s'.freeinodeTs = s.freeinodeTs) (hdisk' : v'.disk = v.disk)
    (hnodes' : v'.inodeTable = v.inodeTable) (hfree' : v'.freeinodeTs = v.freeinodeTs)
    (hrunning : v'.stateClosing = v.stateClosing) (htaken : v'.freeOpenFileEntries = s'.freeOpenFileEntries)
    (hhandles : ∀ h < 20, s'.freeOpenFileEntries h = .taken → ∃ i o, SameHandle s' v' h i o) :
    Same s' v' := by
  have hlive : ∀ j, Tfs.LiveFile s' j ↔ Tfs.LiveFile s j := by
    simp [Tfs.LiveFile, Tfs.Allocated, hfree, hnodes]
  have halloc : ∀ j, Tfs.Allocated s' j ↔ Tfs.Allocated s j := by
    simp [Tfs.Allocated, hfree]
  constructor
  · rw [hrunning, ha.running]
  · rw [hfree', hfree, ha.inodes]
  · rw [hdisk, hdisk']
    exact ha.dir
  · exact htaken
  · exact hhandles
  · intro j hj hallocJ
    have hf := ha.files j hj ((halloc j).1 hallocJ)
    apply hf.of_data ha.inv ha.server ((hlive j).2 hf.live) (by rw [hnodes]) ?_
      (ha.allocated_iff.2 ((halloc j).1 hallocJ)) (by rw [hnodes']) (fun a _ => by rw [hdisk'])
    intro c _ _
    rw [hdisk]
    exact SameBlock.refl _ _

end Frames

/-! ## Handles -/

section Handles

variable {s : Tfs.State} {v : Server.State} {i : ℕ}

/-- Adding a handle at the start of a file. -/
theorem Agree.addHandle (ha : Agree s v) (hlive : Tfs.LiveFile s i) :
    ∃ r s' v', Tfs.addToOpenFileTable i 0 0 s = (r, s') ∧ Server.addToOpenFileTable i 0 v = (r, v') ∧
      Same s' v' := by
  unfold Tfs.addToOpenFileTable Server.addToOpenFileTable
  rw [ha.taken]
  rcases hscan : firstFree s.freeOpenFileEntries maxOpenFiles with _ | g
  · exact ⟨-1, s, v, rfl, rfl, ha.toSame⟩
  · refine ⟨g, _, _, rfl, rfl, ?_⟩
    refine Agree.of_handles (s := s) (v := v) ha ?_ ?_ ?_ ?_ ?_ ?_ ?_ ?_ ?_
    iterate 7 rfl
    · simp [ha.taken]
    · intro h hh htaken
      by_cases hgh : h = g
      · subst hgh
        exact ⟨i, 0, by simp, by simp, hlive, Nat.zero_le _⟩
      · rcases ha.handles h hh (by simpa [hgh] using htaken) with ⟨j, o, hhandle⟩
        exact ⟨j, o, by simpa [hgh] using hhandle.entry, by simpa [hgh] using hhandle.serverEntry,
          hhandle.live, hhandle.le⟩

/-- Closing a handle. -/
theorem Agree.close (ha : Agree s v) (fhandle : ℤ) :
    (Server.tfsClose fhandle v).1 = (Tfs.tfsClose fhandle s).1 ∧
      Same (Tfs.tfsClose fhandle s).2 (Server.tfsClose fhandle v).2 := by
  unfold Tfs.tfsClose Server.tfsClose Tfs.removeFromOpenFileTable Server.removeFromOpenFileTable
  rw [ha.taken]
  split
  · exact ⟨rfl, ha.toSame⟩
  · refine ⟨rfl, ?_⟩
    refine Agree.of_handles (s := s) (v := v) ha ?_ ?_ ?_ ?_ ?_ ?_ ?_ ?_ ?_
    iterate 7 rfl
    · simp [ha.taken]
    · intro h hh htaken
      have hne : h ≠ fhandle.toNat := by
        rintro rfl
        simp at htaken
      rcases ha.handles h hh (by simpa [hne] using htaken) with ⟨j, o, hhandle⟩
      exact ⟨j, o, hhandle.entry, hhandle.serverEntry, hhandle.live, hhandle.le⟩

end Handles

/-! ## Opening -/

section Opening

variable {s s' : Tfs.State} {v v' : Server.State} {h i o b k : ℕ} {path : Path} {flags : ℤ} {name : CString}

/-- A handle stays the same if its entries and its file's i-node do. -/
theorem SameHandle.of_node (hh : SameHandle s v h i o) (hopen : s'.openFileTable = s.openFileTable)
    (hserver : v'.openFileTable = v.openFileTable) (hlive : Tfs.LiveFile s' i)
    (hnode : s'.inodeTable i = s.inodeTable i) : SameHandle s' v' h i o := by
  refine ⟨?_, ?_, hlive, ?_⟩
  · rw [hopen]
    exact hh.entry
  · rw [hserver]
    exact hh.serverEntry
  · rw [hnode]
    exact hh.le

/-- Setting up a free i-node and a free block changes nothing that is in use. -/
theorem Agree.prepared (ha : Agree s v) (hfree : s.freeinodeTs i = .free)
    (hfreeB : s.disk.freeBlocks b = .free) :
    Same (Tfs.preparedFile s i b) ((Server.createdInode v i).markInode i .free) := by
  have hne : ∀ j, Tfs.Allocated s j → j ≠ i := by
    rintro j hj rfl
    simp [hj.2] at hfree
  have hnode : ∀ j, Tfs.Allocated s j → (Tfs.preparedFile s i b).inodeTable j = s.inodeTable j := by
    intro j hj
    simp [Tfs.preparedFile, hne j hj]
  have hlive : ∀ j, Tfs.LiveFile s j → Tfs.LiveFile (Tfs.preparedFile s i b) j := by
    rintro j ⟨hpos, hj, hindex⟩
    exact ⟨hpos, hj, by rw [hnode j hj]; exact hindex⟩
  -- only the free block is written to
  have hdata : ∀ c, c ≠ b → SameBlock s.disk.fsData (Tfs.preparedFile s i b).disk.fsData (c * 1024) :=
    fun c hc => Tfs.sameBlock_fillIndexBlock hc
  constructor
  · exact ha.running
  · have hback : Function.update (Function.update v.freeinodeTs i .taken) i .free = v.freeinodeTs := by
      rw [Function.update_idem, ha.inodes, ← hfree, Function.update_eq_self]
    calc ((Server.createdInode v i).markInode i .free).freeinodeTs
        = Function.update (Function.update v.freeinodeTs i .taken) i .free := rfl
      _ = v.freeinodeTs := hback
      _ = s.freeinodeTs := ha.inodes
  · have hroot := hdata 0 (ha.inv.pos_of_free hfreeB).ne
    rw [Nat.zero_mul] at hroot
    exact hroot.symm.trans ha.dir
  · exact ha.taken
  · intro g hg htaken
    rcases ha.handles g hg htaken with ⟨j, o, hhandle⟩
    exact ⟨j, o, hhandle.of_node rfl rfl (hlive j hhandle.live) (hnode j hhandle.live.2.1)⟩
  · intro j hj halloc
    have hf := ha.files j hj halloc
    apply hf.of_data ha.inv ha.server (hlive j hf.live) (hnode j halloc) ?_ (ha.allocated_iff.2 halloc) ?_
    · intro a _
      rfl
    · rintro c hc -
      apply hdata
      rintro rfl
      simp [hc.2] at hfreeB
    · simp [Server.createdInode, hne j halloc]

/-- The new file, entered into both directories. -/
theorem Agree.named (ha : Agree s v) (name : CString) (hi : i < 50) (hfree : s.freeinodeTs i = .free)
    (hb : b < 1024) (hfreeB : s.disk.freeBlocks b = .free) (hk : k < 23)
    (hunused : ¬ EntryUsed s.disk.fsData 0 k) :
    Agree (Tfs.namedFile (Tfs.createdFile s i b) k i name)
      (Server.namedInode (Server.createdInode v i) k i name) := by
  have hcreated := ha.inv.createdFile hi hfree hb hfreeB
  have hlive := Tfs.liveFile_createdFile ha.inv hi hfree hb
  have hroot := Tfs.sameBlock_createdFile (i := i) ha.inv hfreeB
  have hserverFree : v.freeinodeTs i = .free := by rw [ha.inodes, hfree]
  have hserverUnused : ¬ EntryUsed (Server.createdInode v i).disk.fsData 0 k :=
    fun hused => hunused ((ha.dir.entryUsed_iff hk).1 hused)
  have hserver : Server.Inv (Server.namedInode (Server.createdInode v i) k i name) :=
    (ha.server.createdInode hi hserverFree).namedInode name (ha.server.pos_of_free hserverFree)
      ⟨hi, by simp [Server.createdInode]⟩ (ha.server.not_named_of_free hserverFree) hk hserverUnused
  have hne : ∀ j, Tfs.Allocated s j → j ≠ i := by
    rintro j hj rfl
    simp [hj.2] at hfree
  have hnode : ∀ j, Tfs.Allocated s j →
      (Tfs.namedFile (Tfs.createdFile s i b) k i name).inodeTable j = s.inodeTable j := by
    intro j hj
    simp [Tfs.namedFile, Tfs.createdFile, Tfs.preparedFile, hne j hj]
  have hkeep : ∀ j, Tfs.LiveFile s j → Tfs.LiveFile (Tfs.namedFile (Tfs.createdFile s i b) k i name) j := by
    rintro j ⟨hpos, hj, hindex⟩
    refine ⟨hpos, ⟨hj.1, ?_⟩, ?_⟩
    · simp [Tfs.namedFile, Tfs.createdFile, Tfs.preparedFile, hne j hj, hj.2]
    · rw [hnode j hj]
      exact hindex
  refine ⟨?_, hcreated.namedFile hlive hk, hserver⟩
  constructor
  · exact ha.running
  · calc (Server.namedInode (Server.createdInode v i) k i name).freeinodeTs
        = Function.update v.freeinodeTs i .taken := rfl
      _ = Function.update s.freeinodeTs i .taken := by rw [ha.inodes]
  · exact (hroot.symm.trans ha.dir).fillEntry k i name
  · exact ha.taken
  · intro g hg htaken
    rcases ha.handles g hg htaken with ⟨j, o, hhandle⟩
    exact ⟨j, o, hhandle.of_node rfl rfl (hkeep j hhandle.live) (hnode j hhandle.live.2.1)⟩
  · intro j hj halloc
    by_cases hji : j = i
    · -- the new file is empty
      subst hji
      have hempty : ∀ l < 266, Tfs.slotValue (Tfs.namedFile (Tfs.createdFile s j b) k j name) (Tfs.fileSlot j l) = -1 :=
        fun l hl => Tfs.slotValue_newFile ha.inv name hi hfree hb hfreeB hk hl
      have hsize : ((Tfs.namedFile (Tfs.createdFile s j b) k j name).inodeTable j).iSize = 0 := by
        simp [Tfs.namedFile, Tfs.createdFile, Tfs.preparedFile]
      constructor
      · exact Tfs.sameNodes_namedFile.liveFile_iff.2 hlive
      · rw [hsize]
        simp [Server.namedInode, Server.createdInode]
      · omega
      · simp [hempty 0 (by omega), hsize]
      · exact fun l hl _ => hempty l hl
      · intro p hp
        omega
    · have hallocS : Tfs.Allocated s j := by
        simpa [Tfs.Allocated, Tfs.namedFile, Tfs.createdFile, Tfs.preparedFile, hji] using halloc
      have hf := ha.files j hj hallocS
      apply hf.of_data ha.inv ha.server (hkeep j hf.live) (hnode j hallocS) ?_ (ha.allocated_iff.2 hallocS) ?_
      · intro a haddr
        exact fillEntry_of_disjoint (by omega)
      · intro c hc hpos p hp
        have hcb : c ≠ b := by
          rintro rfl
          simp [hc.2] at hfreeB
        refine Eq.trans (fillEntry_of_disjoint (by omega)) ?_
        exact Tfs.sameBlock_fillIndexBlock hcb p hp
      · simp [Server.namedInode, Server.createdInode, hji]

/-- Creating a file. -/
theorem Agree.openCreate (ha : Agree s v) (hvalid : validPathname path = true) :
    ∃ r s' v', Tfs.openCreate path s = some (r, s') ∧ Server.openCreate path v = some (r, v') ∧ Same s' v' := by
  unfold Tfs.openCreate Server.openCreate
  rcases hscan : firstFree s.freeinodeTs inodeTableSize with _ | i
  · -- no i-node is left
    have htfs : Tfs.inodeCreate .file s = (-1, s) := by
      unfold Tfs.inodeCreate
      rw [hscan]
    have hserver : Server.inodeCreate .file v = (-1, v) := by
      unfold Server.inodeCreate
      rw [ha.inodes, hscan]
    exact ⟨-1, s, v, by simp [htfs], by simp [hserver], ha.toSame⟩
  rcases firstFree_eq_some.1 hscan with ⟨hi, hfree, _⟩
  have hi : i < 50 := hi
  rcases hblock : firstFree s.disk.freeBlocks dataBlocks with _ | b
  · rcases ha.exists_free_block with ⟨b, hb, hfreeB⟩
    have htaken := firstFree_eq_none.1 hblock b hb
    simp [hfreeB] at htaken
  rcases firstFree_eq_some.1 hblock with ⟨hb, hfreeB, _⟩
  rcases Tfs.afterSlash_of_valid hvalid with ⟨p, _, hslash, hlen⟩
  have hne : ¬ (i : ℤ) = -1 := by omega
  have hserverFree : v.freeinodeTs i = .free := by rw [ha.inodes, hfree]
  have hserverScan : firstFree v.freeinodeTs inodeTableSize = some i := by rw [ha.inodes, hscan]
  have hroot := Tfs.sameBlock_createdFile (i := i) ha.inv hfreeB
  have hserverEmpty : emptyEntry (Server.createdInode v i).disk.fsData 0 = emptyEntry s.disk.fsData 0 :=
    ha.dir.emptyEntry_eq
  simp only [Tfs.inodeCreate_file_some hscan hblock, Server.inodeCreate_file_some hserverScan,
      if_neg hne, hslash,
    Tfs.addDirEntry_root (ha.inv.createdFile hi hfree hb hfreeB).rootDirectory hi,
    Server.addDirEntry_root (ha.server.createdInode hi hserverFree) hi, Option.bind_some, if_neg hlen,
    hroot.emptyEntry_eq, hserverEmpty]
  rcases hempty : emptyEntry s.disk.fsData 0 with _ | k
  · -- the directory is full
    refine ⟨-1, _, _, ?_, ?_, ha.prepared hfree hfreeB⟩
    · simp [Tfs.inodeDelete_createdFile hi hfree hb hfreeB]
    · simp [Server.inodeDelete_createdInode hi]
  · rcases emptyEntry_eq_some.1 hempty with ⟨hk, hunused, _⟩
    have hzero : ¬ (0 : ℤ) = -1 := by decide
    have hlive : Tfs.LiveFile (Tfs.namedFile (Tfs.createdFile s i b) k i p.tail) i :=
      Tfs.sameNodes_namedFile.liveFile_iff.2 (Tfs.liveFile_createdFile ha.inv hi hfree hb)
    rcases (ha.named p.tail hi hfree hb hfreeB hk hunused).addHandle hlive with
        ⟨r, s', v', htfs, hserver, hsame⟩
    exact ⟨r, s', v', by simp [htfs], by simp [hserver], hsame⟩

/-- Opening any valid path, neither to truncate nor to append. -/
theorem Agree.tfsOpen (ha : Agree s v) (hvalid : validPathname path = true)
    (htrunc : hasFlag flags tfsOTrunc = false) (happend : hasFlag flags tfsOAppend = false) :
    ∃ r s' v', Tfs.tfsOpen path flags s = some (r, s') ∧ Server.tfsOpen path flags v = some (r, v') ∧
      Same s' v' := by
  have hclosing : Server.stateClosingStatus v = false := ha.running
  have hlookup := ha.lookup_eq path
  unfold Tfs.tfsOpen Server.tfsOpen Server.tfsOpenUnsynchronized
  simp only [hvalid, hclosing, hlookup, Bool.not_true, Bool.false_eq_true, if_false]
  rcases Tfs.tfsLookup_cases ha.inv path with ⟨p, _, _, k, hk, hused, _, i, hlive, hnum, hfound⟩ | ⟨hmiss, _⟩
  · have hi : i < 50 := hlive.2.1.1
    have hnot : ¬ Tfs.Truncates flags i s := by simp [Tfs.Truncates, htrunc]
    rcases ha.addHandle hlive with ⟨r, s', v', htfs, hserver, hsame⟩
    refine ⟨r, s', v', ?_, ?_, hsame⟩
    · rw [hfound, Tfs.openExisting_of_not_truncates hi hnot]
      simp [happend, htfs]
    · -- without truncation and append flag both only add a handle
      have hopen : Server.openExisting i flags v = Server.addToOpenFileTable i 0 v := by
        unfold Server.openExisting Server.truncateFile
        simp [inodeGet_natCast hi, htrunc, happend]
      rw [hfound, hopen]
      simp [hserver]
  · have hneg : ¬ ((-1 : ℤ) ≥ 0) := by decide
    simp only [hmiss, hneg, if_false]
    by_cases hcreat : hasFlag flags tfsOCreat = true
    · simp only [hcreat, if_true]
      exact ha.openCreate hvalid
    · simp only [hcreat]
      exact ⟨-1, s, v, rfl, rfl, ha.toSame⟩

end Opening

end Agreement
end TecnicoFs
