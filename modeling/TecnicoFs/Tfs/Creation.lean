import TecnicoFs.Tfs.Transfers

/-!
# Multi-block creation — opening and creating files keeps the invariant

Opening a file that exists adds a handle.  Creating one takes an i-node and an index block, fills the index
block, and names the i-node in the root directory; when the name cannot be entered, both are given back.
-/

namespace TecnicoFs
namespace Tfs

open Lib

/-! ## Opening a file that exists -/

section Open

variable {s t : State} {i : ℕ} {flags r : ℤ}

/-- What adding a handle can do. -/
theorem addToOpenFileTable_cases (inumber : ℤ) (offset : ℕ) (append : ℤ) (s : State) :
    (∃ h < 20, s.freeOpenFileEntries h = .free ∧ (∀ g < h, s.freeOpenFileEntries g = .taken) ∧
      addToOpenFileTable inumber offset append s =
        ((h : ℤ), (s.markHandle h .taken).setEntry h ⟨inumber, offset, append⟩)) ∨
      ((∀ h < 20, s.freeOpenFileEntries h = .taken) ∧
        addToOpenFileTable inumber offset append s = (-1, s)) := by
  unfold addToOpenFileTable
  rcases hscan : firstFree s.freeOpenFileEntries maxOpenFiles with _ | h
  · exact Or.inr ⟨fun h hh => firstFree_eq_none.1 hscan h hh, rfl⟩
  · rcases firstFree_eq_some.1 hscan with ⟨hh, hfree, hbefore⟩
    exact Or.inl ⟨h, hh, hfree, hbefore, rfl⟩

theorem Inv.addToOpenFileTable (hs : Inv s) {offset : ℕ} {append : ℤ} (hlive : LiveFile s i)
    (hpos : PositionOk s i offset) : Inv (addToOpenFileTable i offset append s).2 := by
  rcases addToOpenFileTable_cases i offset append s with ⟨h, _, _, _, hEq⟩ | ⟨_, hEq⟩
  · rw [hEq]
    refine hs.of_handles (t := (s.markHandle h .taken).setEntry h ⟨i, offset, append⟩) rfl rfl rfl ?_
    intro g hg htaken
    by_cases hgh : g = h
    · subst hgh
      simpa [EntryOk] using ⟨hlive, hpos⟩
    · simpa [hgh] using hs.handles g hg (by simpa [hgh] using htaken)
  · rw [hEq]
    exact hs

/-- The open that erases blocks and keeps their numbers. -/
def Truncates (flags : ℤ) (i : ℕ) (s : State) : Prop :=
  hasFlag flags tfsOTrunc = true ∧ 0 < (s.inodeTable i).iSize

theorem openExisting_of_not_truncates (hi : i < 50) (htrunc : ¬ Truncates flags i s) :
    openExisting i flags s =
      if hasFlag flags tfsOAppend then addToOpenFileTable i (s.inodeTable i).iSize 1 s
      else addToOpenFileTable i 0 0 s := by
  have hcond : ¬ (hasFlag flags tfsOTrunc = true ∧ (s.inodeTable i).iSize > 0) := htrunc
  unfold openExisting truncateFile
  rw [inodeGet_natCast hi]
  simp only [hcond, if_false]
  simp

theorem Inv.openExisting (hs : Inv s) (hlive : LiveFile s i) (htrunc : ¬ Truncates flags i s) :
    Inv (openExisting i flags s).2 := by
  rw [openExisting_of_not_truncates hlive.2.1.1 htrunc]
  split
  · exact hs.addToOpenFileTable hlive (hs.sizes i hlive.1 hlive.2.1)
  · exact hs.addToOpenFileTable hlive ⟨by omega, fun h => absurd h (by omega)⟩

/-- The i-node of the root directory is a directory in block 0. -/
structure RootDirectory (s : State) : Prop where
  iNodeType : (s.inodeTable 0).iNodeType = .directory
  firstBlock : (s.inodeTable 0).iDataBlock 0 = 0

theorem Inv.rootDirectory (hs : Inv s) : RootDirectory s :=
  ⟨hs.rootType, hs.rootBlock⟩

theorem findInDir_root (hs : RootDirectory s) (name : CString) :
    findInDir rootDirInum name s =
      (searchEntry s.disk.fsData 0 name).elim (-1) (dInumber s.disk.fsData 0) := by
  have hroot : validInumber (rootDirInum : ℤ) = true := by decide
  have htype : (s.inodeTable (rootDirInum : ℤ).toNat).iNodeType = .directory := hs.iNodeType
  have hblock : (s.inodeTable (rootDirInum : ℤ).toNat).iDataBlock 0 = 0 := hs.firstBlock
  have hdir : dataBlockGet 0 = some 0 := by decide
  unfold findInDir
  simp only [hroot, htype, hblock, hdir, Bool.not_true, Bool.false_eq_true, ne_eq,
    not_true_eq_false, decide_false, Bool.or_self, if_false]
  rcases searchEntry s.disk.fsData 0 name with _ | k
  · rfl
  · rfl

/-- Equal root directories give the same lookups. -/
theorem tfsLookup_of_sameBlock {t : State} (hs : Inv s) (ht : Inv t)
    (h : SameBlock s.disk.fsData t.disk.fsData 0) (path : Path) : tfsLookup path t = tfsLookup path s := by
  rcases path with _ | p
  · rfl
  by_cases hvalid : validPathname (some p) = true
  · simp only [tfsLookup, hvalid, if_true]
    rw [findInDir_root hs.rootDirectory, findInDir_root ht.rootDirectory, h.searchEntry_eq hs.terminated]
    rcases hsearch : searchEntry s.disk.fsData 0 p.tail with _ | k
    · rw [Option.elim_none, Option.elim_none]
    · have hk : k < 23 := ((searchEntry_eq_some hs.terminated).1 hsearch).1
      rw [Option.elim_some, Option.elim_some, h.dInumber_eq hk]
  · simp [tfsLookup, hvalid]

/-- What the lookup of a path finds: the first entry with its name, or nothing. -/
theorem tfsLookup_cases (hs : Inv s) (path : Path) :
    (∃ p, path = some p ∧ validPathname path = true ∧ ∃ k < 23,
      EntryUsed s.disk.fsData 0 k ∧ entryName s.disk.fsData 0 k = p.tail ∧
      ∃ i : ℕ, LiveFile s i ∧ dInumber s.disk.fsData 0 k = i ∧ tfsLookup path s = i) ∨
    (tfsLookup path s = -1 ∧ ∀ p, path = some p → validPathname path = true →
      ∀ k < 23, EntryUsed s.disk.fsData 0 k → entryName s.disk.fsData 0 k ≠ p.tail) := by
  rcases path with _ | p
  · exact Or.inr ⟨rfl, by simp⟩
  by_cases hvalid : validPathname (some p) = true
  · have hlookup : tfsLookup (some p) s =
        (searchEntry s.disk.fsData 0 p.tail).elim (-1) (dInumber s.disk.fsData 0) := by
      rw [← findInDir_root hs.rootDirectory]
      simp only [tfsLookup, hvalid, if_true]
    rw [hlookup]
    -- the search finds the name if and only if an entry has it
    rcases hsearch : searchEntry s.disk.fsData 0 p.tail with _ | k
    · right
      refine ⟨rfl, ?_⟩
      rintro q hq - k hk hused
      rw [← Option.some.inj hq]
      exact (searchEntry_eq_none hs.terminated).1 hsearch k hk hused
    · left
      rcases (searchEntry_eq_some hs.terminated).1 hsearch with ⟨hk, hused, hname, _⟩
      rcases hs.entries k hk hused with ⟨i, hnum, hlive⟩
      exact ⟨p, rfl, hvalid, k, hk, hused, hname, i, hlive, hnum, hnum⟩
  · right
    refine ⟨by simp [tfsLookup, hvalid], ?_⟩
    rintro q - hq
    exact absurd hq hvalid

end Open

/-! ## Taking an i-node -/

section TakeInode

variable {s t : State} {i b : ℕ}

/-- Only what is allocated matters: unallocated i-nodes and free blocks may hold anything. -/
theorem Inv.of_unallocated (hs : Inv s) (hfree : t.freeinodeTs = s.freeinodeTs)
    (hinodes : ∀ j, Allocated s j → t.inodeTable j = s.inodeTable j)
    (hblocks : t.disk.freeBlocks = s.disk.freeBlocks)
    (hdata : ∀ c, BlockTaken s c → SameBlock s.disk.fsData t.disk.fsData (c * 1024))
    (hopen : t.openFileTable = s.openFileTable)
    (hfreeOpen : t.freeOpenFileEntries = s.freeOpenFileEntries) : Inv t := by
  have halloc : ∀ j, Allocated t j ↔ Allocated s j := by simp [Allocated, hfree]
  -- live files, slots and their values are about allocated i-nodes only
  have hlive : ∀ j, LiveFile t j ↔ LiveFile s j := by
    intro j
    unfold LiveFile
    rw [halloc]
    constructor
    · rintro ⟨hj, hallocJ, hindex⟩
      rw [hinodes j hallocJ] at hindex
      exact ⟨hj, hallocJ, hindex⟩
    · rintro ⟨hj, hallocJ, hindex⟩
      rw [hinodes j hallocJ]
      exact ⟨hj, hallocJ, hindex⟩
  have hslot : ∀ x, IsSlot t x ↔ IsSlot s x := by
    intro x
    cases x with
    | direct j k => simp only [IsSlot, halloc]
    | index j => exact halloc j
    | entry j k =>
        unfold IsSlot
        simp only [halloc]
        constructor
        · rintro ⟨hallocJ, hrest⟩
          rw [hinodes j hallocJ] at hrest
          exact ⟨hallocJ, hrest⟩
        · rintro ⟨hallocJ, hrest⟩
          rw [hinodes j hallocJ]
          exact ⟨hallocJ, hrest⟩
  have hvalue : ∀ x, IsSlot s x → slotValue t x = slotValue s x := by
    intro x hx
    cases x with
    | direct j k => simp only [slotValue, hinodes j hx.1]
    | index j => simp only [slotValue, hinodes j hx]
    | entry j k =>
        -- the entry lies in an index block, which is taken and hence the same
        have hk : k < 256 := hx.2.2.2
        rcases (hs.liveFile_of_isSlot_entry hx).refers_index with ⟨a, _, _, _, haddr, hrefers⟩
        have hsame := hdata a (hs.blocks.taken_of_refers hrefers)
        have haddr' : indexAddress t j = a * 1024 := by
          rw [← haddr, indexAddress, indexAddress, hinodes j hx.1]
        simp only [slotValue, haddr, haddr']
        apply readInt_congr
        intro l hl
        rw [Nat.add_assoc]
        exact hsame (4 * k + l) (by omega)
  have hdir : SameBlock s.disk.fsData t.disk.fsData 0 :=
    hdata 0 (hs.blocks.taken_of_refers hs.refers_root)
  have hfirst : ∀ j n, Allocated s j → (PositionOk t j n ↔ PositionOk s j n) := by
    intro j n hallocJ
    rw [PositionOk, PositionOk, hvalue (.direct j 0) ⟨hallocJ, by decide⟩]
  constructor
  · -- so every block has the owner that it had
    apply hs.blocks.congr
    · intro x c
      unfold Refers
      rw [hslot]
      constructor
      · rintro ⟨hx, hc⟩
        exact ⟨hx, (hvalue x hx).symm.trans hc⟩
      · rintro ⟨hx, hc⟩
        exact ⟨hx, (hvalue x hx).trans hc⟩
    · intro c
      simp only [BlockTaken, hblocks]
  · intro x hx
    rw [hvalue x ((hslot x).1 hx)]
    exact hs.valid x ((hslot x).1 hx)
  · exact (halloc 0).2 hs.rootAllocated
  · rw [hinodes 0 hs.rootAllocated]
    exact hs.rootType
  · rw [hinodes 0 hs.rootAllocated]
    exact hs.rootBlock
  · intro j hj hallocJ
    rw [hinodes j ((halloc j).1 hallocJ)]
    exact hs.files j hj ((halloc j).1 hallocJ)
  · intro k hk hused
    rcases hs.entries k hk ((hdir.entryUsed_iff hk).1 hused) with ⟨j, hnum, hj⟩
    exact ⟨j, (hdir.dInumber_eq hk).trans hnum, (hlive j).2 hj⟩
  · exact hdir.terminated hs.terminated
  · intro j hj hallocJ
    have hallocS := (halloc j).1 hallocJ
    rw [hfirst j _ hallocS, hinodes j hallocS]
    exact hs.sizes j hj hallocS
  · intro h hh htaken
    rw [hfreeOpen] at htaken
    rw [hopen]
    rcases hs.handles h hh htaken with ⟨j, hj, hliveJ, hpos⟩
    exact ⟨j, hj, (hlive j).2 hliveJ, (hfirst j _ hliveJ.2.1).2 hpos⟩

/-- The i-node that a slot belongs to. -/
def Slot.inode : Slot → ℕ
  | .direct i _ => i
  | .index i => i
  | .entry i _ => i

/-- Allocating i-node `i`, which is already set up as an empty file, takes `s` to `t`. -/
structure TakesInode (s t : State) (i : ℕ) : Prop where
  lt : i < 50
  free : s.freeinodeTs i = .free
  iNodeType : (s.inodeTable i).iNodeType = .file
  iSize : (s.inodeTable i).iSize = 0
  iDataBlock : ∀ k, (s.inodeTable i).iDataBlock k = -1
  entries : ∀ k, IsSlot t (.entry i k) → slotValue s (.entry i k) = -1
  freeinodeTs : t.freeinodeTs = Function.update s.freeinodeTs i .taken
  inodeTable : t.inodeTable = s.inodeTable
  fsData : t.disk.fsData = s.disk.fsData
  openFileTable : t.openFileTable = s.openFileTable
  freeOpenFileEntries : t.freeOpenFileEntries = s.freeOpenFileEntries

namespace TakesInode

theorem allocated_iff (h : TakesInode s t i) {j : ℕ} : Allocated t j ↔ j = i ∨ Allocated s j := by
  by_cases hji : j = i
  · subst hji
    simp [Allocated, h.freeinodeTs, h.lt]
  · simp [Allocated, h.freeinodeTs, hji]

theorem not_allocated (h : TakesInode s t i) : ¬ Allocated s i := by
  intro halloc
  have hfree := h.free
  simp [halloc.2] at hfree

theorem slotValue_eq (h : TakesInode s t i) (x : Slot) : slotValue t x = slotValue s x := by
  cases x with
  | direct j k => simp only [slotValue, h.inodeTable]
  | index j => simp only [slotValue, h.inodeTable]
  | entry j k => simp only [slotValue, indexAddress, h.inodeTable, h.fsData]

theorem positionOk_iff (h : TakesInode s t i) (j n : ℕ) : PositionOk t j n ↔ PositionOk s j n := by
  simp [PositionOk, h.slotValue_eq]

theorem liveFile (h : TakesInode s t i) {j : ℕ} (hlive : LiveFile s j) : LiveFile t j := by
  rcases hlive with ⟨hj, hallocJ, hindexJ⟩
  exact ⟨hj, h.allocated_iff.2 (Or.inr hallocJ), by rw [h.inodeTable]; exact hindexJ⟩

theorem isSlot_iff (h : TakesInode s t i) {x : Slot} (hx : x.inode ≠ i) : IsSlot t x ↔ IsSlot s x := by
  cases x with
  | direct j k =>
      have hji : j ≠ i := hx
      simp only [IsSlot, h.allocated_iff, hji, false_or]
  | index j =>
      have hji : j ≠ i := hx
      simp only [IsSlot, h.allocated_iff, hji, false_or]
  | entry j k =>
      have hji : j ≠ i := hx
      simp only [IsSlot, h.allocated_iff, hji, false_or, h.inodeTable]

theorem not_isSlot (h : TakesInode s t i) {x : Slot} (hx : x.inode = i) : ¬ IsSlot s x := by
  intro hslot
  cases x with
  | direct j k => exact h.not_allocated (hx ▸ hslot.1)
  | index j => exact h.not_allocated (hx ▸ hslot)
  | entry j k => exact h.not_allocated (hx ▸ hslot.1)

/-- Of the new slots, only the index block's may refer to a block. -/
theorem slotValue_new (h : TakesInode s t i) {x : Slot} (hx : x.inode = i) (hslot : IsSlot t x) :
    slotValue s x = -1 ∨ x = .index i := by
  cases x with
  | direct j k =>
      have hji : j = i := hx
      subst hji
      exact Or.inl (h.iDataBlock k)
  | index j =>
      have hji : j = i := hx
      exact Or.inr (by rw [hji])
  | entry j k =>
      have hji : j = i := hx
      subst hji
      exact Or.inl (h.entries k hslot)

/-- Without an index block the i-node refers to no block. -/
theorem refers_iff_of_blockless (h : TakesInode s t i) (hminus : (s.inodeTable i).iIndexBlock = -1)
    (x : Slot) (c : ℕ) : Refers t x c ↔ Refers s x c := by
  unfold Refers
  rw [h.slotValue_eq]
  by_cases hx : x.inode = i
  · constructor
    · rintro ⟨hslot, hc⟩
      have hval : slotValue s x = -1 := by
        rcases h.slotValue_new hx hslot with hval | rfl
        · exact hval
        · exact hminus
      omega
    · rintro ⟨hslot, _⟩
      exact absurd hslot (h.not_isSlot hx)
  · rw [h.isSlot_iff hx]

/-- With one it refers to this block and to no other. -/
theorem refers_iff (h : TakesInode s t i) (hindex : (s.inodeTable i).iIndexBlock = (b : ℕ))
    (x : Slot) (c : ℕ) : Refers t x c ↔ (x = .index i ∧ c = b) ∨ Refers s x c := by
  unfold Refers
  rw [h.slotValue_eq]
  by_cases hx : x.inode = i
  · constructor
    · rintro ⟨hslot, hc⟩
      rcases h.slotValue_new hx hslot with hval | rfl
      · omega
      · have hcb : (c : ℤ) = b := hc.symm.trans hindex
        exact Or.inl ⟨rfl, by omega⟩
    · rintro (⟨rfl, rfl⟩ | ⟨hslot, _⟩)
      · exact ⟨h.allocated_iff.2 (Or.inl rfl), hindex⟩
      · exact absurd hslot (h.not_isSlot hx)
  · have hne : x ≠ .index i := by
      rintro rfl
      exact hx rfl
    rw [h.isSlot_iff hx]
    simp [hne]

end TakesInode

/-- The i-node has no index block, or the free block that is allocated with it. -/
def IndexTaken (s t : State) (i : ℕ) : Prop :=
  ((s.inodeTable i).iIndexBlock = -1 ∧ t.disk.freeBlocks = s.disk.freeBlocks) ∨
    ∃ b < 1024, (s.inodeTable i).iIndexBlock = (b : ℕ) ∧ s.disk.freeBlocks b = .free ∧
      t.disk.freeBlocks = Function.update s.disk.freeBlocks b .taken

theorem Inv.blocks_takeInode (hs : Inv s) (h : TakesInode s t i) (hindex : IndexTaken s t i) :
    Exclusive (Refers t) (BlockTaken t) := by
  rcases hindex with ⟨hminus, hblocks⟩ | ⟨b, hb, hEq, hfreeB, hblocks⟩
  · apply hs.blocks.congr (h.refers_iff_of_blockless hminus)
    intro c
    simp only [BlockTaken, hblocks]
  · apply hs.blocks.alloc (i := .index i) (b := b) ?_ (h.refers_iff hEq)
    · intro c
      by_cases hcb : c = b
      · subst hcb
        simp [BlockTaken, hblocks, hb]
      · simp [BlockTaken, hblocks, hcb]
    · simp [BlockTaken, hfreeB]

theorem Inv.valid_takeInode (hs : Inv s) (h : TakesInode s t i) (hindex : IndexTaken s t i) {x : Slot}
    (hslot : IsSlot t x) : SlotNumber (slotValue t x) := by
  rw [h.slotValue_eq]
  by_cases hx : x.inode = i
  · rcases h.slotValue_new hx hslot with hval | rfl
    · exact Or.inl hval
    · rcases hindex with ⟨hminus, _⟩ | ⟨b, hb, hEq, _, _⟩
      · exact Or.inl hminus
      · exact Or.inr ⟨b, hb, hEq⟩
  · exact hs.valid x ((h.isSlot_iff hx).1 hslot)

theorem Inv.takeInode (hs : Inv s) (h : TakesInode s t i) (hindex : IndexTaken s t i) : Inv t := by
  constructor
  · exact hs.blocks_takeInode h hindex
  · exact fun x hslot => hs.valid_takeInode h hindex hslot
  · exact h.allocated_iff.2 (Or.inr hs.rootAllocated)
  · rw [h.inodeTable]
    exact hs.rootType
  · rw [h.inodeTable]
    exact hs.rootBlock
  · intro j hj hallocJ
    rw [h.inodeTable]
    rcases h.allocated_iff.1 hallocJ with rfl | hallocJ
    · exact h.iNodeType
    · exact hs.files j hj hallocJ
  · rw [h.fsData]
    intro k hk hused
    rcases hs.entries k hk hused with ⟨j, hnum, hj⟩
    exact ⟨j, hnum, h.liveFile hj⟩
  · rw [h.fsData]
    exact hs.terminated
  · intro j hj hallocJ
    rw [h.positionOk_iff, h.inodeTable]
    rcases h.allocated_iff.1 hallocJ with rfl | hallocJ
    · rw [h.iSize]
      exact ⟨by omega, fun hne => absurd hne (by omega)⟩
    · exact hs.sizes j hj hallocJ
  · intro g hg htaken
    rw [h.freeOpenFileEntries] at htaken
    rw [h.openFileTable]
    rcases hs.handles g hg htaken with ⟨j, hj, hliveJ, hpos⟩
    exact ⟨j, hj, h.liveFile hliveJ, (h.positionOk_iff j _).2 hpos⟩

end TakeInode

/-! ## Creating a file -/

section Create

variable {s t : State} {i b k : ℕ} {r : ℤ} {name : CString}

/-- The i-node of a new file, and its index block filled with `-1`; neither is allocated yet. -/
def preparedFile (s : State) (i b : ℕ) : State :=
  (s.setInode i ⟨.file, 0, fun _ => -1, b⟩).setData (fillIndexBlock s.disk.fsData (b * 1024))

def createdFile (s : State) (i b : ℕ) : State :=
  ((preparedFile s i b).setDisk ((preparedFile s i b).disk.markBlock b .taken)).markInode i .taken

/-- The i-node of a file that got no index block; it stays allocated. -/
def blocklessFile (s : State) (i : ℕ) : State :=
  (s.setInode i ⟨.file, 0, fun _ => -1, -1⟩).markInode i .taken

theorem inodeCreate_file_cases (s : State) :
    ((∀ i < 50, s.freeinodeTs i = .taken) ∧ inodeCreate .file s = (-1, s)) ∨
    ∃ i < 50, s.freeinodeTs i = .free ∧
      (((∀ b < 1024, s.disk.freeBlocks b = .taken) ∧ inodeCreate .file s = (-1, blocklessFile s i)) ∨
      ∃ b < 1024, s.disk.freeBlocks b = .free ∧ inodeCreate .file s = ((i : ℤ), createdFile s i b)) := by
  unfold inodeCreate
  rcases hscan : firstFree s.freeinodeTs inodeTableSize with _ | i
  · exact Or.inl ⟨fun i hi => firstFree_eq_none.1 hscan i hi, rfl⟩
  · rcases firstFree_eq_some.1 hscan with ⟨hi, hfree, _⟩
    refine Or.inr ⟨i, hi, hfree, ?_⟩
    rcases Disk.dataBlockAlloc_cases s.disk with ⟨b, hb, hfreeB, hEq⟩ | ⟨hfull, hEq⟩
    · refine Or.inr ⟨b, hb, hfreeB, ?_⟩
      simp only [State.markInode_disk, hEq, dataBlockGet_natCast hb]
      rfl
    · refine Or.inl ⟨hfull, ?_⟩
      simp only [State.markInode_disk, hEq, dataBlockGet_neg_one]
      rfl

/-- The i-node and the index block of a new file are the first free ones. -/
theorem inodeCreate_file_some (hi : firstFree s.freeinodeTs inodeTableSize = some i)
    (hb : firstFree s.disk.freeBlocks dataBlocks = some b) :
    inodeCreate .file s = ((i : ℤ), createdFile s i b) := by
  have hlt : b < 1024 := (firstFree_eq_some.1 hb).1
  have halloc : s.disk.dataBlockAlloc = ((b : ℤ), s.disk.markBlock b .taken) := by
    unfold Disk.dataBlockAlloc
    rw [hb]
  unfold inodeCreate
  simp only [hi, State.markInode_disk, halloc, dataBlockGet_natCast hlt]
  rfl

theorem takesInode_blocklessFile (hi : i < 50) (hfree : s.freeinodeTs i = .free) :
    TakesInode (s.setInode i ⟨.file, 0, fun _ => -1, -1⟩) (blocklessFile s i) i where
  lt := hi
  free := hfree
  iNodeType := by simp
  iSize := by simp
  iDataBlock := by simp
  entries k hslot := by
    have hvalid : validBlockNumber (-1) = true := by
      simpa [blocklessFile] using hslot.2.2.1
    exact absurd hvalid (by decide)
  freeinodeTs := rfl
  inodeTable := rfl
  fsData := rfl
  openFileTable := rfl
  freeOpenFileEntries := rfl

theorem Inv.blocklessFile (hs : Inv s) (hi : i < 50) (hfree : s.freeinodeTs i = .free) :
    Inv (blocklessFile s i) := by
  have hprep : Inv (s.setInode i ⟨.file, 0, fun _ => -1, -1⟩) := by
    apply hs.of_unallocated (t := s.setInode i _) rfl ?_ rfl (fun _ _ => SameBlock.refl _ _) rfl rfl
    intro j hj
    have hji : j ≠ i := by
      rintro rfl
      simp [hj.2] at hfree
    simp [hji]
  exact hprep.takeInode (takesInode_blocklessFile hi hfree) (Or.inl ⟨by simp, rfl⟩)

theorem sameBlock_fillIndexBlock {m : Memory} {c : ℕ} (hcb : c ≠ b) :
    SameBlock m (fillIndexBlock m (b * 1024)) (c * 1024) := by
  intro p hp
  have hsize : blockSize = 1024 := rfl
  exact memcpy_of_disjoint (by omega)

theorem Inv.preparedFile (hs : Inv s) (hfree : s.freeinodeTs i = .free)
    (hfreeB : s.disk.freeBlocks b = .free) : Inv (preparedFile s i b) := by
  apply hs.of_unallocated (t := Tfs.preparedFile s i b) rfl ?_ rfl ?_ rfl rfl
  · intro j hj
    have hji : j ≠ i := by
      rintro rfl
      simp [hj.2] at hfree
    simp [Tfs.preparedFile, hji]
  · intro c hc
    have hcb : c ≠ b := by
      rintro rfl
      simp [hc.2] at hfreeB
    exact sameBlock_fillIndexBlock hcb

theorem takesInode_createdFile (hi : i < 50) (hfree : s.freeinodeTs i = .free) :
    TakesInode (preparedFile s i b) (createdFile s i b) i where
  lt := hi
  free := hfree
  iNodeType := by simp [preparedFile]
  iSize := by simp [preparedFile]
  iDataBlock := by simp [preparedFile]
  entries k hslot := by
    have haddr : indexAddress (preparedFile s i b) i = b * 1024 := by
      simp [indexAddress, preparedFile]
    rw [slotValue, haddr]
    exact indexEntry_fillIndexBlock hslot.2.2.2
  freeinodeTs := rfl
  inodeTable := rfl
  fsData := rfl
  openFileTable := rfl
  freeOpenFileEntries := rfl

theorem Inv.createdFile (hs : Inv s) (hi : i < 50) (hfree : s.freeinodeTs i = .free) (hb : b < 1024)
    (hfreeB : s.disk.freeBlocks b = .free) : Inv (createdFile s i b) := by
  exact (hs.preparedFile hfree hfreeB).takeInode (takesInode_createdFile hi hfree)
    (Or.inr ⟨b, hb, by simp [Tfs.preparedFile], hfreeB, rfl⟩)

theorem liveFile_createdFile (hs : Inv s) (hi : i < 50) (hfree : s.freeinodeTs i = .free)
    (hb : b < 1024) : LiveFile (createdFile s i b) i :=
  ⟨hs.inode_pos_of_free hfree, ⟨hi, by simp [Tfs.createdFile]⟩, b, hb,
    by simp [Tfs.createdFile, Tfs.preparedFile]⟩

/-- The state after entry `k` of the root directory was filled. -/
def namedFile (s : State) (k i : ℕ) (name : CString) : State :=
  s.setData (fillEntry s.disk.fsData 0 k i name)

theorem entryUsed_namedFile (hi : i < 50) {j : ℕ} :
    EntryUsed (namedFile s k i name).disk.fsData 0 j ↔ j = k ∨ EntryUsed s.disk.fsData 0 j :=
  entryUsed_fillEntry (by omega) (by omega)

/-- Filling an entry of the root directory changes no index block. -/
theorem slotValue_namedFile (hs : Inv s) (hk : k < 23) {x : Slot} (hx : IsSlot s x) :
    slotValue (namedFile s k i name) x = slotValue s x := by
  cases x with
  | direct j l => rfl
  | index j => rfl
  | entry j l =>
      have hl : l < 256 := hx.2.2.2
      have hpos := hs.indexAddress_pos (hs.liveFile_of_isSlot_entry hx)
      have haddr : indexAddress (namedFile s k i name) j = indexAddress s j := rfl
      simp only [slotValue, haddr]
      apply readInt_congr
      intro p hp
      exact fillEntry_of_disjoint (by omega)

theorem sameNodes_namedFile : SameNodes s (namedFile s k i name) :=
  ⟨rfl, fun _ => rfl, fun _ => rfl⟩

theorem Inv.namedFile (hs : Inv s) (hlive : LiveFile s i) (hk : k < 23) :
    Inv (namedFile s k i name) := by
  have hi : i < 50 := hlive.2.1.1
  have hfirst : ∀ j n, Allocated s j → (PositionOk (Tfs.namedFile s k i name) j n ↔ PositionOk s j n) := by
    intro j n hj
    rw [PositionOk, PositionOk, slotValue_namedFile hs hk (x := .direct j 0) ⟨hj, by decide⟩]
  constructor
  · -- the new entry lies in the root's block, where no slot is kept
    apply hs.blocks.congr
    · intro x c
      unfold Refers
      rw [sameNodes_namedFile.isSlot_iff]
      constructor
      · rintro ⟨hx, hc⟩
        exact ⟨hx, (slotValue_namedFile hs hk hx).symm.trans hc⟩
      · rintro ⟨hx, hc⟩
        exact ⟨hx, (slotValue_namedFile hs hk hx).trans hc⟩
    · intro c
      rfl
  · intro x hx
    have hx' := (sameNodes_namedFile.isSlot_iff x).1 hx
    rw [slotValue_namedFile hs hk hx']
    exact hs.valid x hx'
  · exact hs.rootAllocated
  · exact hs.rootType
  · exact hs.rootBlock
  · exact hs.files
  · -- entry k names i-node i, and the others name what they did
    intro j hj hused
    by_cases hjk : j = k
    · subst hjk
      exact ⟨i, dInumber_fillEntry_self (by omega) (by omega), hlive⟩
    · rcases (entryUsed_namedFile hi).1 hused with hEq | hused
      · exact absurd hEq hjk
      · rcases hs.entries j hj hused with ⟨l, hnum, hl⟩
        exact ⟨l, (dInumber_fillEntry_of_ne hjk).trans hnum, hl⟩
  · exact hs.terminated.fillEntry (by omega) (by omega)
  · intro j hj halloc
    exact (hfirst j _ halloc).2 (hs.sizes j hj halloc)
  · intro h hh htaken
    rcases hs.handles h hh htaken with ⟨j, hj, hl, hpos⟩
    exact ⟨j, hj, hl, (hfirst j _ hl.2.1).2 hpos⟩

/-- A valid path has a name after the slash. -/
theorem afterSlash_of_valid {path : Path} (hvalid : validPathname path = true) :
    ∃ p, path = some p ∧ afterSlash path = some p.tail ∧ p.tail.strlen ≠ 0 := by
  rcases path with _ | p
  · simp [validPathname] at hvalid
  · have hlong : 1 < p.strlen := by
      simp only [validPathname, Bool.and_eq_true, decide_eq_true_eq] at hvalid
      exact hvalid.1
    have htail : p.tail.strlen = p.strlen - 1 := List.length_tail
    have hne : ¬ p.strlen = 0 := by omega
    exact ⟨p, rfl, by simp [afterSlash, hne], by omega⟩

theorem addDirEntry_root (hs : RootDirectory s) (hi : i < 50) (subName : Option CString) :
    addDirEntry rootDirInum i subName s =
      subName.bind fun name =>
        if name.strlen = 0 then some (-1, s)
        else
          match emptyEntry s.disk.fsData 0 with
          | none => some (-1, s)
          | some k => some (0, namedFile s k i name) := by
  have hroot : validInumber (rootDirInum : ℤ) = true := by decide
  have hnum : validInumber (i : ℤ) = true := validInumber_natCast.2 hi
  have htype : (s.inodeTable (rootDirInum : ℤ).toNat).iNodeType = .directory := hs.iNodeType
  have hblock : (s.inodeTable (rootDirInum : ℤ).toNat).iDataBlock 0 = 0 := hs.firstBlock
  have hdir : dataBlockGet 0 = some 0 := by decide
  unfold addDirEntry
  rcases subName with _ | name
  · simp only [hroot, hnum, htype, Bool.not_true, Bool.or_self, Bool.false_eq_true, if_false,
      ne_eq, not_true_eq_false, Option.bind_none]
  · rcases hempty : emptyEntry s.disk.fsData 0 with _ | k
    · simp only [hroot, hnum, htype, hblock, hdir, Bool.not_true, Bool.or_self, Bool.false_eq_true,
        if_false, ne_eq, not_true_eq_false, Option.bind_some, hempty]
    · simp only [hroot, hnum, htype, hblock, hdir, Bool.not_true, Bool.or_self, Bool.false_eq_true,
        if_false, ne_eq, not_true_eq_false, Option.bind_some, namedFile, hempty]

/-- What `add_dir_entry` can do to the root directory. -/
theorem addDirEntry_root_cases (hs : RootDirectory s) (hi : i < 50) {subName : Option CString}
    (h : addDirEntry rootDirInum i subName s = some (r, t)) :
    ∃ name, subName = some name ∧
      (((name.strlen = 0 ∨ ∀ k < 23, EntryUsed s.disk.fsData 0 k) ∧ r = -1 ∧ t = s) ∨
      ∃ k < 23, ¬ EntryUsed s.disk.fsData 0 k ∧ name.strlen ≠ 0 ∧ r = 0 ∧ t = namedFile s k i name) := by
  rw [addDirEntry_root hs hi] at h
  rcases subName with _ | name
  · simp at h
  refine ⟨name, rfl, ?_⟩
  rw [Option.bind_some] at h
  by_cases hlen : name.strlen = 0
  · rw [if_pos hlen, Option.some.injEq, Prod.mk.injEq] at h
    exact Or.inl ⟨Or.inl hlen, h.1.symm, h.2.symm⟩
  · rw [if_neg hlen] at h
    rcases hempty : emptyEntry s.disk.fsData 0 with _ | k
    · simp only [hempty, Option.some.injEq, Prod.mk.injEq] at h
      exact Or.inl ⟨Or.inr (emptyEntry_eq_none.1 hempty), h.1.symm, h.2.symm⟩
    · simp only [hempty, Option.some.injEq, Prod.mk.injEq] at h
      rcases emptyEntry_eq_some.1 hempty with ⟨hk, hunused, _⟩
      exact Or.inr ⟨k, hk, hunused, hlen, h.1.symm, h.2.symm⟩

/-! ## Undoing a creation -/

theorem freeDirect_of_empty {node : Inode} {d : Disk} {ks : List ℕ}
    (h : ∀ k, node.iDataBlock k = -1) : freeDirect node ks d = (0, d) := by
  induction ks with
  | nil => rfl
  | cons k ks ih => simp [freeDirect, h, ih]

theorem freeIndirect_of_empty {a : ℕ} {d : Disk} {ks : List ℕ}
    (h : ∀ k ∈ ks, indexEntry d.fsData a k = -1) : freeIndirect a ks d = (0, d) := by
  induction ks with
  | nil => rfl
  | cons k ks ih =>
      have hhead := h k (List.mem_cons_self)
      have htail := ih fun l hl => h l (List.mem_cons_of_mem k hl)
      simp [freeIndirect, hhead, htail]

/-- Deleting an i-node that was just created frees its index block and nothing else. -/
theorem inodeDelete_createdFile (hi : i < 50) (hfree : s.freeinodeTs i = .free) (hb : b < 1024)
    (hfreeB : s.disk.freeBlocks b = .free) :
    inodeDelete i (createdFile s i b) = (0, preparedFile s i b) := by
  have hvalid : validInumber (i : ℤ) = true := validInumber_natCast.2 hi
  have hnode : (createdFile s i b).inodeTable i = ⟨.file, 0, fun _ => -1, b⟩ := by
    simp [createdFile, preparedFile]
  have hentries : ∀ k ∈ List.range indexEntries,
      indexEntry (createdFile s i b).disk.fsData (b * 1024) k = -1 := by
    intro k hk
    exact indexEntry_fillIndexBlock (List.mem_range.1 hk)
  -- a new file has nothing but its index block, full of -1
  have herase : inodeDatablocksErase ⟨.file, 0, fun _ => -1, b⟩ (createdFile s i b).disk =
      (0, (createdFile s i b).disk) := by
    unfold inodeDatablocksErase
    simp only [freeDirect_of_empty, implies_true, dataBlockGet_natCast hb,
      freeIndirect_of_empty hentries]
    simp
  have htaken : (createdFile s i b).freeinodeTs i = .taken := by simp [createdFile]
  unfold inodeDelete
  simp only [hvalid, Int.toNat_natCast, htaken, State.markInode_inodeTable, hnode,
    State.markInode_disk, herase, Disk.dataBlockFree_of_valid hb]
  have hinodes : Function.update (Function.update s.freeinodeTs i .taken) i .free = s.freeinodeTs := by
    rw [Function.update_idem, ← hfree, Function.update_eq_self]
  have hblocks : Function.update (Function.update s.disk.freeBlocks b .taken) b .free =
      s.disk.freeBlocks := by
    rw [Function.update_idem, ← hfreeB, Function.update_eq_self]
  simp [createdFile, preparedFile, State.markInode, State.setDisk, State.setInode, State.setData,
    Disk.markBlock, hinodes, hblocks]

/-- What the creating branch of `tfs_open` can do. -/
theorem openCreate_cases (hs : Inv s) {path : Path} (h : openCreate path s = some (r, t)) :
    ((∀ i < 50, s.freeinodeTs i = .taken) ∧ r = -1 ∧ t = s) ∨
    ∃ i < 50, s.freeinodeTs i = .free ∧
      (((∀ b < 1024, s.disk.freeBlocks b = .taken) ∧ r = -1 ∧ t = blocklessFile s i) ∨
      ∃ b < 1024, s.disk.freeBlocks b = .free ∧ ∃ name, afterSlash path = some name ∧
        (((name.strlen = 0 ∨ ∀ k < 23, EntryUsed s.disk.fsData 0 k) ∧ r = -1 ∧
            t = preparedFile s i b) ∨
        ∃ k < 23, ¬ EntryUsed s.disk.fsData 0 k ∧ name.strlen ≠ 0 ∧
          (r, t) = addToOpenFileTable i 0 0 (namedFile (createdFile s i b) k i name))) := by
  unfold openCreate at h
  rcases inodeCreate_file_cases s with ⟨hfull, hEq⟩ | ⟨i, hi, hfree, hblocks⟩
  · left
    simp only [hEq, if_true, Option.some.injEq, Prod.mk.injEq] at h
    exact ⟨hfull, h.1.symm, h.2.symm⟩
  · right
    refine ⟨i, hi, hfree, ?_⟩
    -- an i-node, but no block for its index: the i-node is not freed
    rcases hblocks with ⟨hfull, hEq⟩ | ⟨b, hb, hfreeB, hEq⟩
    · left
      simp only [hEq, if_true, Option.some.injEq, Prod.mk.injEq] at h
      exact ⟨hfull, h.1.symm, h.2.symm⟩
    · right
      refine ⟨b, hb, hfreeB, ?_⟩
      have hne : ¬ (i : ℤ) = -1 := by omega
      simp only [hEq, if_neg hne] at h
      have hdir : SameBlock s.disk.fsData (createdFile s i b).disk.fsData (0 * 1024) :=
        sameBlock_fillIndexBlock (hs.pos_of_free hfreeB).ne
      rcases hadd : addDirEntry rootDirInum i (afterSlash path) (createdFile s i b) with _ | ⟨r₁, t₁⟩
      · rw [hadd] at h
        exact absurd h (by simp)
      · simp only [hadd] at h
        rcases addDirEntry_root_cases (hs.createdFile hi hfree hb hfreeB).rootDirectory hi hadd with
          ⟨name, hname, hcases⟩
        refine ⟨name, hname, ?_⟩
        rcases hcases with ⟨hwhy, rfl, rfl⟩ | ⟨k, hk, hunused, hlen, rfl, rfl⟩
        · left
          -- no entry for the name: `inode_delete` frees i-node and block again
          simp only [if_true, inodeDelete_createdFile hi hfree hb hfreeB, Option.some.injEq,
            Prod.mk.injEq] at h
          refine ⟨?_, h.1.symm, h.2.symm⟩
          rcases hwhy with hlen | hall
          · exact Or.inl hlen
          · exact Or.inr fun k hk => (hdir.entryUsed_iff hk).1 (hall k hk)
        · right
          refine ⟨k, hk, fun hused => hunused ((hdir.entryUsed_iff hk).2 hused), hlen, ?_⟩
          simpa using h.symm

theorem Inv.openCreate (hs : Inv s) {path : Path} (h : openCreate path s = some (r, t)) : Inv t := by
  rcases openCreate_cases hs h with ⟨_, _, rfl⟩ | ⟨i, hi, hfree, hcases⟩
  · exact hs
  rcases hcases with ⟨_, _, rfl⟩ | ⟨b, hb, hfreeB, name, _, hcases⟩
  · exact hs.blocklessFile hi hfree
  rcases hcases with ⟨_, _, rfl⟩ | ⟨k, hk, _, _, hEq⟩
  · exact hs.preparedFile hfree hfreeB
  · have hlive := liveFile_createdFile hs hi hfree hb
    have hnamed : Inv (Tfs.namedFile (Tfs.createdFile s i b) k i name) :=
      (hs.createdFile hi hfree hb hfreeB).namedFile hlive hk
    have hadd : Inv (Tfs.addToOpenFileTable i 0 0
        (Tfs.namedFile (Tfs.createdFile s i b) k i name)).2 :=
      hnamed.addToOpenFileTable (sameNodes_namedFile.liveFile_iff.2 hlive)
        ⟨by omega, fun h0 => absurd h0 (by omega)⟩
    rw [← hEq] at hadd
    exact hadd

end Create

/-! ## A new file and its name -/

section NewFile

variable {s t : State} {i b k : ℕ} {name : CString}

/-- One used entry of the root directory has this name, and its number is `i`. -/
def NamesFile (s : State) (name : CString) (i : ℕ) : Prop :=
  ∃ k < 23, EntryUsed s.disk.fsData 0 k ∧ entryName s.disk.fsData 0 k = name ∧
    dInumber s.disk.fsData 0 k = i ∧
    ∀ j < 23, j ≠ k → EntryUsed s.disk.fsData 0 j → entryName s.disk.fsData 0 j ≠ name

theorem NamesFile.congr (hn : NamesFile s name i) (hdir : SameBlock s.disk.fsData t.disk.fsData 0) :
    NamesFile t name i := by
  rcases hn with ⟨k, hk, hused, hname, hnum, honly⟩
  refine ⟨k, hk, (hdir.entryUsed_iff hk).2 hused, (hdir.entryName_eq hk).trans hname,
    (hdir.dInumber_eq hk).trans hnum, ?_⟩
  intro j hj hjk husedJ
  rw [hdir.entryName_eq hj]
  exact honly j hj hjk ((hdir.entryUsed_iff hj).1 husedJ)

theorem NamesFile.tfsLookup (hs : Inv s) {p : CString} (hn : NamesFile s p.tail i)
    (hvalid : validPathname (some p) = true) : tfsLookup (some p) s = i := by
  rcases hn with ⟨k, hk, hused, hname, hnum, honly⟩
  rcases tfsLookup_cases hs (some p) with
    ⟨q, hq, _, j, hj, husedJ, hnameJ, l, _, hnumJ, hEq⟩ | ⟨_, hno⟩
  · have hjk : j = k := by
      by_contra hjk
      rw [← Option.some.inj hq] at hnameJ
      exact honly j hj hjk husedJ hnameJ
    rw [hEq, ← hnumJ, hjk, hnum]
  · exact absurd hname (hno p rfl hvalid k hk hused)

theorem sameBlock_createdFile (hs : Inv s) (hfreeB : s.disk.freeBlocks b = .free) :
    SameBlock s.disk.fsData (createdFile s i b).disk.fsData 0 := by
  have hsame : SameBlock s.disk.fsData (createdFile s i b).disk.fsData (0 * 1024) :=
    sameBlock_fillIndexBlock (hs.pos_of_free hfreeB).ne
  rwa [Nat.zero_mul] at hsame

/-- A new file is found under its name, cut to what an entry has room for. -/
theorem namesFile_namedFile (hs : Inv s) (hi : i < 50) (hfreeB : s.disk.freeBlocks b = .free)
    (hk : k < 23) (hfresh : ∀ j < 23, EntryUsed s.disk.fsData 0 j →
      entryName s.disk.fsData 0 j ≠ cutName name) :
    NamesFile (namedFile (createdFile s i b) k i name) (cutName name) i := by
  have hdir := sameBlock_createdFile (i := i) hs hfreeB
  refine ⟨k, hk, (entryUsed_namedFile hi).2 (Or.inl rfl), entryName_fillEntry_self,
    dInumber_fillEntry_self (by omega) (by omega), ?_⟩
  intro j hj hjk hused hname
  have hname' : entryName (createdFile s i b).disk.fsData 0 j = cutName name :=
    (entryName_fillEntry_of_ne hjk).symm.trans hname
  rw [hdir.entryName_eq hj] at hname'
  rcases (entryUsed_namedFile hi).1 hused with hEq | hused
  · exact hjk hEq
  · exact hfresh j hj ((hdir.entryUsed_iff hj).1 hused) hname'

/-- The state after `tfs_open` created a file and gave handle `h` on it. -/
def openedFile (s : State) (i b k h : ℕ) (name : CString) : State :=
  ((namedFile (createdFile s i b) k i name).markHandle h .taken).setEntry h ⟨i, 0, 0⟩

/-- With room for everything, opening a missing file creates it. -/
theorem tfsOpen_new (hs : Inv s) {p : CString} {flags : ℤ} (hvalid : validPathname (some p) = true)
    (hcreat : hasFlag flags tfsOCreat = true) (hmiss : tfsLookup (some p) s = -1)
    (hinode : ∃ i < 50, s.freeinodeTs i = .free) (hblock : ∃ b < 1024, s.disk.freeBlocks b = .free)
    (hentry : ∃ k < 23, ¬ EntryUsed s.disk.fsData 0 k)
    (hhandle : ∃ h < 20, s.freeOpenFileEntries h = .free) :
    ∃ i < 50, s.freeinodeTs i = .free ∧ ∃ b < 1024, s.disk.freeBlocks b = .free ∧
      ∃ k < 23, ¬ EntryUsed s.disk.fsData 0 k ∧ ∃ h < 20, s.freeOpenFileEntries h = .free ∧
        (∀ g < h, s.freeOpenFileEntries g = .taken) ∧
        tfsOpen (some p) flags s = some ((h : ℤ), openedFile s i b k h p.tail) := by
  rcases afterSlash_of_valid hvalid with ⟨q, hq, hslash, htail⟩
  cases hq
  have hneg : ¬ ((-1 : ℤ) ≥ 0) := by decide
  -- each search of tfs_open finds what the hypotheses promise: an i-node, a block, an entry, a handle
  rcases inodeCreate_file_cases s with ⟨hfull, _⟩ | ⟨i, hi, hfree, hblocks⟩
  · rcases hinode with ⟨i, hi, hfree⟩
    simp [hfull i hi] at hfree
  rcases hblocks with ⟨hfull, _⟩ | ⟨b, hb, hfreeB, hcreate⟩
  · rcases hblock with ⟨b, hb, hfreeB⟩
    simp [hfull b hb] at hfreeB
  -- the new i-node leaves the directory as it was, so the same entry is empty
  have hdir := sameBlock_createdFile (i := i) hs hfreeB
  rcases hempty : emptyEntry (createdFile s i b).disk.fsData 0 with _ | k
  · rcases hentry with ⟨k, hk, hunused⟩
    exact absurd ((hdir.entryUsed_iff hk).1 (emptyEntry_eq_none.1 hempty k hk)) hunused
  rcases emptyEntry_eq_some.1 hempty with ⟨hk, hunused, _⟩
  rcases addToOpenFileTable_cases i 0 0 (namedFile (createdFile s i b) k i p.tail) with
    ⟨h, hh, hfreeH, hbefore, hadd⟩ | ⟨hfull, _⟩
  · refine ⟨i, hi, hfree, b, hb, hfreeB, k, hk,
      fun hused => hunused ((hdir.entryUsed_iff hk).2 hused), h, hh, hfreeH, hbefore, ?_⟩
    have hne : ¬ (i : ℤ) = -1 := by omega
    have hentered : addDirEntry rootDirInum i (some p.tail) (createdFile s i b) =
        some (0, namedFile (createdFile s i b) k i p.tail) := by
      rw [addDirEntry_root (hs.createdFile hi hfree hb hfreeB).rootDirectory hi, Option.bind_some,
          if_neg htail, hempty]
    have hzero : ¬ ((0 : ℤ) = -1) := by decide
    unfold tfsOpen openCreate
    simp only [hvalid, Bool.not_true, Bool.false_eq_true, if_false, hmiss, hneg, hcreat, if_true,
      hcreate, hne, hslash, hentered, hzero, hadd]
    rfl
  · rcases hhandle with ⟨h, hh, hfreeH⟩
    have htaken := hfull h hh
    have hsame : (namedFile (createdFile s i b) k i p.tail).freeOpenFileEntries h =
        s.freeOpenFileEntries h := rfl
    rw [hsame, hfreeH] at htaken
    simp at htaken

theorem Inv.openedFile (hs : Inv s) {h : ℕ} (hi : i < 50) (hfree : s.freeinodeTs i = .free)
    (hb : b < 1024) (hfreeB : s.disk.freeBlocks b = .free) (hk : k < 23) :
    Inv (openedFile s i b k h name) ∧ LiveFile (openedFile s i b k h name) i := by
  have hlive := liveFile_createdFile hs hi hfree hb
  have hnamed : Inv (Tfs.namedFile (Tfs.createdFile s i b) k i name) :=
    (hs.createdFile hi hfree hb hfreeB).namedFile hlive hk
  have hliveNamed : LiveFile (Tfs.namedFile (Tfs.createdFile s i b) k i name) i :=
    sameNodes_namedFile.liveFile_iff.2 hlive
  refine ⟨?_, hliveNamed⟩
  refine hnamed.of_handles (t := Tfs.openedFile s i b k h name) rfl rfl rfl ?_
  intro g hg htaken
  by_cases hgh : g = h
  · subst hgh
    simpa [Tfs.openedFile, EntryOk, PositionOk] using hliveNamed
  · have htaken' : (Tfs.namedFile (Tfs.createdFile s i b) k i name).freeOpenFileEntries g = .taken := by
      simpa [Tfs.openedFile, hgh] using htaken
    simpa [Tfs.openedFile, hgh] using hnamed.handles g hg htaken'

/-- The slots of a new file are empty. -/
theorem slotValue_newFile (hs : Inv s) (name : CString) (hi : i < 50) (hfree : s.freeinodeTs i = .free)
    (hb : b < 1024) (hfreeB : s.disk.freeBlocks b = .free) (hk : k < 23) {l : ℕ} (hl : l < 266) :
    slotValue (namedFile (createdFile s i b) k i name) (fileSlot i l) = -1 := by
  have hcreated := hs.createdFile hi hfree hb hfreeB
  have hslot := hcreated.isSlot_fileSlot (liveFile_createdFile hs hi hfree hb) hl
  rw [slotValue_namedFile hcreated hk hslot]
  unfold fileSlot
  split
  · simp [slotValue, createdFile, preparedFile]
  · have haddr : indexAddress (createdFile s i b) i = b * 1024 := by
      simp [indexAddress, createdFile, preparedFile]
    rw [slotValue, haddr]
    exact indexEntry_fillIndexBlock (by omega)

theorem slotValue_openedFile (hs : Inv s) {h : ℕ} (hi : i < 50) (hfree : s.freeinodeTs i = .free)
    (hb : b < 1024) (hfreeB : s.disk.freeBlocks b = .free) (hk : k < 23) {l : ℕ} (hl : l < 266) :
    slotValue (openedFile s i b k h name) (fileSlot i l) = -1 := by
  refine Eq.trans ?_ (slotValue_newFile hs name hi hfree hb hfreeB hk hl)
  unfold fileSlot
  split <;> rfl

end NewFile

end Tfs
end TecnicoFs
