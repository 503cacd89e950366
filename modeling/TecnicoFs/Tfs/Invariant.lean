import TecnicoFs.Lib.Ownership
import TecnicoFs.Tfs.Operations

/-!
# Multi-block invariant — which slot refers to which block

A block number is kept in one of three kinds of places: an entry of `i_data_block`, an `i_index_block`, or
an `int` inside an index block, which is itself a data block.  A `Slot` names such a place.  The invariant
says that the taken blocks are the ones that some slot refers to, one slot for each block; this is what
makes a write into one slot leave all the others as they were.
-/

namespace TecnicoFs
namespace Tfs

open Lib

/-! ## Slots -/

/-- A place that holds a block number. -/
inductive Slot
  | direct (i k : ℕ)
  | index (i : ℕ)
  | entry (i k : ℕ)
  deriving DecidableEq

def Allocated (s : State) (i : ℕ) : Prop :=
  i < inodeTableSize ∧ s.freeinodeTs i = .taken

def BlockTaken (s : State) (b : ℕ) : Prop :=
  b < dataBlocks ∧ s.disk.freeBlocks b = .taken

/-- The address of the index block of i-node `i`. -/
def indexAddress (s : State) (i : ℕ) : ℕ :=
  (s.inodeTable i).iIndexBlock.toNat * blockSize

/-- The slots that count: those of allocated i-nodes, and the entries of the index blocks of files. -/
def IsSlot (s : State) : Slot → Prop
  | .direct i k => Allocated s i ∧ k < directBlocksQuantity
  | .index i => Allocated s i
  | .entry i k => Allocated s i ∧ (s.inodeTable i).iNodeType = .file ∧
      validBlockNumber (s.inodeTable i).iIndexBlock = true ∧ k < indexEntries

def slotValue (s : State) : Slot → ℤ
  | .direct i k => (s.inodeTable i).iDataBlock k
  | .index i => (s.inodeTable i).iIndexBlock
  | .entry i k => indexEntry s.disk.fsData (indexAddress s i) k

def Refers (s : State) (x : Slot) (b : ℕ) : Prop :=
  IsSlot s x ∧ slotValue s x = b

/-- The state with another number in a slot. -/
def setSlot (s : State) : Slot → ℤ → State
  | .direct i k, b => s.setInode i
      { s.inodeTable i with iDataBlock := Function.update (s.inodeTable i).iDataBlock k b }
  | .index i, b => s.setInode i { s.inodeTable i with iIndexBlock := b }
  | .entry i k, b => s.setData (setIndexEntry s.disk.fsData (indexAddress s i) k b)

/-! ## The invariant -/

/-- A number that a slot may hold. -/
def SlotNumber (z : ℤ) : Prop :=
  z = -1 ∨ ∃ b : ℕ, b < 1024 ∧ z = b

/-- An allocated file that has its index block. -/
def LiveFile (s : State) (i : ℕ) : Prop :=
  0 < i ∧ Allocated s i ∧ ∃ a : ℕ, a < 1024 ∧ (s.inodeTable i).iIndexBlock = a

/-- A position in file `i`.  The write loops add the running total to the offset, at most 267 times. -/
def PositionOk (s : State) (i n : ℕ) : Prop :=
  n ≤ 272384 * 267 ∧ (0 < n → slotValue s (.direct i 0) ≠ -1)

/-- An open file entry stands for a file. -/
def EntryOk (s : State) (e : OpenFileEntry) : Prop :=
  ∃ i : ℕ, e.ofInumber = i ∧ LiveFile s i ∧ PositionOk s i e.ofOffset

structure Inv (s : State) : Prop where
  blocks : Exclusive (Refers s) (BlockTaken s)
  valid : ∀ x, IsSlot s x → SlotNumber (slotValue s x)
  rootAllocated : Allocated s 0
  rootType : (s.inodeTable 0).iNodeType = .directory
  rootBlock : (s.inodeTable 0).iDataBlock 0 = 0
  files : ∀ i, 0 < i → Allocated s i → (s.inodeTable i).iNodeType = .file
  entries : ∀ k < 23, EntryUsed s.disk.fsData 0 k →
    ∃ i : ℕ, dInumber s.disk.fsData 0 k = i ∧ LiveFile s i
  terminated : Terminated s.disk.fsData 0
  sizes : ∀ i, 0 < i → Allocated s i → PositionOk s i (s.inodeTable i).iSize
  handles : ∀ h < 20, s.freeOpenFileEntries h = .taken → EntryOk s (s.openFileTable h)

/-! ## Two states with the same slots -/

/-- The i-nodes agree up to their sizes and the numbers of their data blocks. -/
structure SameNodes (s t : State) : Prop where
  freeinodeTs : t.freeinodeTs = s.freeinodeTs
  iNodeType : ∀ i, (t.inodeTable i).iNodeType = (s.inodeTable i).iNodeType
  iIndexBlock : ∀ i, (t.inodeTable i).iIndexBlock = (s.inodeTable i).iIndexBlock

namespace SameNodes

variable {s t u : State} {i : ℕ}

theorem refl (s : State) : SameNodes s s :=
  ⟨rfl, fun _ => rfl, fun _ => rfl⟩

theorem trans (h₁ : SameNodes s t) (h₂ : SameNodes t u) : SameNodes s u where
  freeinodeTs := h₂.freeinodeTs.trans h₁.freeinodeTs
  iNodeType i := (h₂.iNodeType i).trans (h₁.iNodeType i)
  iIndexBlock i := (h₂.iIndexBlock i).trans (h₁.iIndexBlock i)

theorem allocated_iff (h : SameNodes s t) : Allocated t i ↔ Allocated s i := by
  simp [Allocated, h.freeinodeTs]

theorem liveFile_iff (h : SameNodes s t) : LiveFile t i ↔ LiveFile s i := by
  simp [LiveFile, h.allocated_iff, h.iIndexBlock]

theorem isSlot_iff (h : SameNodes s t) (x : Slot) : IsSlot t x ↔ IsSlot s x := by
  cases x with
  | direct i k => simp only [IsSlot, h.allocated_iff]
  | index i => exact h.allocated_iff
  | entry i k => simp only [IsSlot, h.allocated_iff, h.iNodeType, h.iIndexBlock]

theorem indexAddress_eq (h : SameNodes s t) : indexAddress t i = indexAddress s i := by
  rw [indexAddress, indexAddress, h.iIndexBlock]

end SameNodes

theorem sameNodes_setSlot (s : State) {x : Slot} (hx : ∀ i, x ≠ .index i) (b : ℤ) :
    SameNodes s (setSlot s x b) := by
  cases x with
  | direct i k =>
      have hnode : ∀ j, ((setSlot s (.direct i k) b).inodeTable j).iNodeType =
            (s.inodeTable j).iNodeType ∧
          ((setSlot s (.direct i k) b).inodeTable j).iIndexBlock = (s.inodeTable j).iIndexBlock := by
        intro j
        by_cases hj : j = i
        · subst hj
          simp [setSlot]
        · simp [setSlot, hj]
      exact ⟨rfl, fun j => (hnode j).1, fun j => (hnode j).2⟩
  | index i => exact absurd rfl (hx i)
  | entry i k => exact ⟨rfl, fun _ => rfl, fun _ => rfl⟩

/-! ## Consequences -/

section Consequences

variable {s t : State} {i j k a b : ℕ} {x y : Slot}

theorem SlotNumber.range {z : ℤ} (h : SlotNumber z) : -2 ^ 31 ≤ z ∧ z < 2 ^ 31 := by
  rcases h with rfl | ⟨b, hb, rfl⟩
  · decide
  · omega

theorem Inv.refers_root (hs : Inv s) : Refers s (.direct 0 0) 0 :=
  ⟨⟨hs.rootAllocated, by decide⟩, by simp [slotValue, hs.rootBlock]⟩

/-- A block that another slot refers to is not the root directory's. -/
theorem Inv.block_pos (hs : Inv s) (hx : Refers s x b) (hne : x ≠ .direct 0 0) : 0 < b := by
  by_contra hb
  have hzero : b = 0 := by omega
  subst hzero
  exact hne (hs.blocks.unique _ _ 0 hx hs.refers_root)

/-- A block that is not taken is not the root directory's. -/
theorem Inv.pos_of_free (hs : Inv s) (hfree : s.disk.freeBlocks b = .free) : 0 < b := by
  by_contra hb
  have hzero : b = 0 := by omega
  subst hzero
  have htaken := (hs.blocks.taken_of_refers hs.refers_root).2
  simp [hfree] at htaken

/-- A slot other than the root directory's refers to another block. -/
theorem Inv.not_refers_zero (hs : Inv s) (hne : x ≠ .direct 0 0) : ¬ Refers s x 0 :=
  fun hx => absurd (hs.block_pos hx hne) (by omega)

theorem Inv.inode_pos_of_free (hs : Inv s) (hfree : s.freeinodeTs i = .free) : 0 < i := by
  by_contra hi
  have hzero : i = 0 := by omega
  subst hzero
  have htaken := hs.rootAllocated.2
  simp [hfree] at htaken

theorem LiveFile.refers_index (hi : LiveFile s i) :
    ∃ a : ℕ, 0 ≤ a ∧ a < 1024 ∧ (s.inodeTable i).iIndexBlock = a ∧ indexAddress s i = a * 1024 ∧
      Refers s (.index i) a := by
  rcases hi with ⟨_, halloc, a, ha, hEq⟩
  exact ⟨a, by omega, ha, hEq, by simp [indexAddress, hEq], halloc, hEq⟩

theorem LiveFile.isSlot_direct (hi : LiveFile s i) (hk : k < 10) : IsSlot s (.direct i k) :=
  ⟨hi.2.1, hk⟩

theorem Inv.isSlot_entry (hs : Inv s) (hi : LiveFile s i) (hk : k < 256) : IsSlot s (.entry i k) := by
  rcases hi with ⟨hpos, halloc, a, ha, hEq⟩
  exact ⟨halloc, hs.files i hpos halloc, by rw [hEq]; exact validBlockNumber_natCast.2 ha, hk⟩

/-- A file whose index block holds a slot is live. -/
theorem Inv.liveFile_of_isSlot_entry (hs : Inv s) (hx : IsSlot s (.entry i k)) : LiveFile s i := by
  rcases hx with ⟨halloc, htype, hvalid, _⟩
  refine ⟨?_, halloc, ?_⟩
  · by_contra hi
    have hzero : i = 0 := by omega
    subst hzero
    simp [hs.rootType] at htype
  · have hrange := validBlockNumber_iff.1 hvalid
    exact ⟨(s.inodeTable i).iIndexBlock.toNat, by omega, by omega⟩

/-- Two files do not share an index block. -/
theorem Inv.indexAddress_ne (hs : Inv s) (hi : LiveFile s i) (hj : LiveFile s j) (hij : i ≠ j) :
    indexAddress s i + 1024 ≤ indexAddress s j ∨ indexAddress s j + 1024 ≤ indexAddress s i := by
  rcases hi.refers_index with ⟨a, _, _, _, haddrI, hrefersI⟩
  rcases hj.refers_index with ⟨b, _, _, _, haddrJ, hrefersJ⟩
  have hne : a ≠ b := by
    rintro rfl
    have hslot := hs.blocks.unique _ _ a hrefersI hrefersJ
    exact hij (Slot.index.inj hslot)
  omega

/-- An index block is not the root directory's block. -/
theorem Inv.indexAddress_pos (hs : Inv s) (hi : LiveFile s i) : 1024 ≤ indexAddress s i := by
  rcases hi.refers_index with ⟨a, _, _, _, haddr, hrefers⟩
  have hpos := hs.block_pos hrefers (by simp)
  omega

end Consequences

/-! ## Writing into a slot -/

section SetSlot

variable {s : State} {x y : Slot} {b : ℤ}

theorem Inv.slotValue_setSlot (hs : Inv s) (hxi : ∀ i, x ≠ .index i) (hx : IsSlot s x)
    (hy : IsSlot s y) (hb : SlotNumber b) :
    slotValue (setSlot s x b) y = if y = x then b else slotValue s y := by
  cases x with
  | index i => exact absurd rfl (hxi i)
  | direct i k =>
      cases y with
      | direct j l =>
          by_cases hj : j = i
          · subst hj
            by_cases hl : l = k
            · subst hl
              simp [setSlot, slotValue]
            · simp [setSlot, slotValue, hl]
          · simp [setSlot, slotValue, hj]
      | index j =>
          have hkeep := (sameNodes_setSlot s hxi b).iIndexBlock j
          simpa [slotValue] using hkeep
      | entry j l =>
          have hkeep := (sameNodes_setSlot s hxi b).indexAddress_eq (i := j)
          simp only [slotValue, hkeep, reduceCtorEq, if_false]
          rfl
  | entry i k =>
      have hi := hs.liveFile_of_isSlot_entry hx
      have hk : k < 256 := hx.2.2.2
      cases y with
      | direct j l => simp [setSlot, slotValue]
      | index j => simp [setSlot, slotValue]
      | entry j l =>
          have hl : l < 256 := hy.2.2.2
          have hkeep := (sameNodes_setSlot s hxi b).indexAddress_eq (i := j)
          simp only [slotValue, hkeep]
          by_cases hj : j = i
          · subst hj
            by_cases hlk : l = k
            · subst hlk
              rw [if_pos rfl]
              exact indexEntry_setIndexEntry_self hb.range.1 hb.range.2
            · rw [if_neg (by simp [hlk])]
              exact indexEntry_setIndexEntry_of_ne hlk
          · rw [if_neg (by simp [hj])]
            -- two files have different index blocks
            have hfar := hs.indexAddress_ne hi (hs.liveFile_of_isSlot_entry hy) (Ne.symm hj)
            exact readInt_writeInt_of_disjoint (by omega)

section Frame

variable (s x b)

@[simp] theorem setSlot_freeBlocks : (setSlot s x b).disk.freeBlocks = s.disk.freeBlocks := by
  cases x with
  | direct i k => rfl
  | index i => rfl
  | entry i k => rfl

@[simp] theorem setSlot_openFileTable : (setSlot s x b).openFileTable = s.openFileTable := by
  cases x with
  | direct i k => rfl
  | index i => rfl
  | entry i k => rfl

@[simp] theorem setSlot_freeOpenFileEntries :
    (setSlot s x b).freeOpenFileEntries = s.freeOpenFileEntries := by
  cases x with
  | direct i k => rfl
  | index i => rfl
  | entry i k => rfl

@[simp] theorem setSlot_iSize (j : ℕ) :
    ((setSlot s x b).inodeTable j).iSize = (s.inodeTable j).iSize := by
  cases x with
  | direct i k =>
      by_cases hj : j = i
      · subst hj
        simp [setSlot]
      · simp [setSlot, hj]
  | index i =>
      by_cases hj : j = i
      · subst hj
        simp [setSlot]
      · simp [setSlot, hj]
  | entry i k => rfl

end Frame

/-- Storing the number that is there changes nothing. -/
theorem setSlot_self (s : State) (x : Slot) : setSlot s x (slotValue s x) = s := by
  cases x with
  | direct i k => simp [setSlot, slotValue, State.setInode]
  | index i => simp [setSlot, slotValue, State.setInode]
  | entry i k =>
      have hkeep : setIndexEntry s.disk.fsData (indexAddress s i) k (slotValue s (.entry i k)) =
          s.disk.fsData := writeInt_readInt
      simp only [setSlot, hkeep]
      rfl

/-- Only the entries of index blocks are stored in memory. -/
theorem Inv.sameBlock_setSlot (hs : Inv s) (hx : IsSlot s x) {c : ℕ}
    (hc : ∀ j, ¬ Refers s (.index j) c) :
    SameBlock s.disk.fsData (setSlot s x b).disk.fsData (c * 1024) := by
  cases x with
  | direct i k => exact SameBlock.refl _ _
  | index i => exact SameBlock.refl _ _
  | entry i k =>
      have hk : k < 256 := hx.2.2.2
      rcases (hs.liveFile_of_isSlot_entry hx).refers_index with ⟨a, _, _, _, haddr, hrefers⟩
      have hne : a ≠ c := by
        rintro rfl
        exact hc i hrefers
      intro j hj
      exact writeInt_of_disjoint (by omega)

end SetSlot

/-! ## Rules for the updates -/

section Rules

variable {s t : State} {i : ℕ}

theorem EntryOk.congr {e : OpenFileEntry} (hnodes : SameNodes s t)
    (hblock : ∀ i, LiveFile s i → slotValue s (.direct i 0) ≠ -1 → slotValue t (.direct i 0) ≠ -1)
    (h : EntryOk s e) : EntryOk t e := by
  rcases h with ⟨i, hi, hlive, hbound, hfirst⟩
  exact ⟨i, hi, hnodes.liveFile_iff.2 hlive, hbound, fun hpos => hblock i hlive (hfirst hpos)⟩

/-- A change of the slots' numbers, of sizes and of handles that leaves the root directory alone. -/
theorem Inv.of_sameNodes (hs : Inv s) (hnodes : SameNodes s t)
    (hroot : (t.inodeTable 0).iDataBlock 0 = (s.inodeTable 0).iDataBlock 0)
    (hdir : SameBlock s.disk.fsData t.disk.fsData 0)
    (hblocks : Exclusive (Refers t) (BlockTaken t))
    (hvalid : ∀ x, IsSlot s x → SlotNumber (slotValue t x))
    (hsizes : ∀ i, 0 < i → Allocated s i → PositionOk t i (t.inodeTable i).iSize)
    (hhandles : ∀ h < 20, t.freeOpenFileEntries h = .taken → EntryOk t (t.openFileTable h)) :
    Inv t where
  blocks := hblocks
  valid x hx := hvalid x ((hnodes.isSlot_iff x).1 hx)
  rootAllocated := hnodes.allocated_iff.2 hs.rootAllocated
  rootType := (hnodes.iNodeType 0).trans hs.rootType
  rootBlock := hroot.trans hs.rootBlock
  files i hi halloc := (hnodes.iNodeType i).trans (hs.files i hi (hnodes.allocated_iff.1 halloc))
  entries := by
    intro k hk hused
    rcases hs.entries k hk ((hdir.entryUsed_iff hk).1 hused) with ⟨i, hnum, hlive⟩
    exact ⟨i, (hdir.dInumber_eq hk).trans hnum, hnodes.liveFile_iff.2 hlive⟩
  terminated := hdir.terminated hs.terminated
  sizes i hi halloc := hsizes i hi (hnodes.allocated_iff.1 halloc)
  handles := hhandles

/-- A change of the open file table only. -/
theorem Inv.of_handles (hs : Inv s) (hdisk : t.disk = s.disk) (hinodes : t.inodeTable = s.inodeTable)
    (hfree : t.freeinodeTs = s.freeinodeTs)
    (hhandles : ∀ h < 20, t.freeOpenFileEntries h = .taken → EntryOk s (t.openFileTable h)) :
    Inv t := by
  have hnodes : SameNodes s t := ⟨hfree, by simp [hinodes], by simp [hinodes]⟩
  -- the slots are in the i-nodes and on the disk, and both stay
  have hvalue : ∀ x, slotValue t x = slotValue s x := by
    intro x
    cases x with
    | direct i k => simp [slotValue, hinodes]
    | index i => simp [slotValue, hinodes]
    | entry i k => simp [slotValue, hdisk, hnodes.indexAddress_eq]
  apply hs.of_sameNodes hnodes
  · rw [hinodes]
  · rw [hdisk]
    exact SameBlock.refl _ _
  · apply hs.blocks.congr
    · intro x b
      simp only [Refers, hnodes.isSlot_iff, hvalue]
    · intro b
      simp only [BlockTaken, hdisk]
  · intro x hx
    rw [hvalue]
    exact hs.valid x hx
  · intro i hi halloc
    simpa [PositionOk, hinodes, hvalue] using hs.sizes i hi halloc
  · intro h hh htaken
    exact (hhandles h hh htaken).congr hnodes (by simp [hvalue])

end Rules

end Tfs
end TecnicoFs
