import TecnicoFs.Lib.Ownership
import TecnicoFs.Server.Operations

/-!
# Server invariant — who owns which block, and what the root directory names

The block of a file is owned only while `i_size > 0`; a truncated i-node keeps a stale block number.  The
directory that decides which i-node a call touches is itself stored in a block.  `Inv` states ownership,
directory integrity and the bounds on sizes and offsets together, since no one of them is kept without
the others.
-/

namespace TecnicoFs
namespace Server

open Lib

/-! ## Statement -/

def BlockTaken (s : State) (b : ℕ) : Prop :=
  b < dataBlocks ∧ s.disk.freeBlocks b = .taken

def Allocated (s : State) (i : ℕ) : Prop :=
  i < inodeTableSize ∧ s.freeinodeTs i = .taken

/-- `b` is the `i_data_block` of the allocated i-node `i`, whose `i_size` is positive. -/
def Owns (s : State) (i b : ℕ) : Prop :=
  Allocated s i ∧ (s.inodeTable i).iDataBlock = b ∧ 0 < (s.inodeTable i).iSize

/-- A used entry of the root directory, whose block is at address 0, names the i-node `i`. -/
def Named (s : State) (i : ℕ) : Prop :=
  ∃ k < 23, EntryUsed s.disk.fsData 0 k ∧ dInumber s.disk.fsData 0 k = i

/-- An open file entry refers to a file and stays within `fs_data`: a read from behind the end of the file can
take it out of the block. -/
def EntryOk (s : State) (e : OpenFileEntry) : Prop :=
  e.ofOffset ≤ 1048576 ∧ ∃ i : ℕ, e.ofInumber = i ∧ Named s i

structure Inv (s : State) : Prop where
  blocks : Exclusive (Owns s) (BlockTaken s)
  valid : ∀ i, Allocated s i → 0 < (s.inodeTable i).iSize →
    ∃ b : ℕ, b < 1024 ∧ (s.inodeTable i).iDataBlock = b
  root : Allocated s 0 ∧ s.inodeTable 0 = ⟨.directory, 1024, 0⟩
  files : ∀ i, 0 < i → Allocated s i →
    (s.inodeTable i).iNodeType = .file ∧ (s.inodeTable i).iDataBlock ≠ 0
  sizes : ∀ i, Allocated s i → (s.inodeTable i).iSize ≤ 1024
  entries : ∀ k < 23, EntryUsed s.disk.fsData 0 k →
    ∃ i : ℕ, 0 < i ∧ Allocated s i ∧ dInumber s.disk.fsData 0 k = i
  distinct : ∀ j < 23, ∀ k < 23, EntryUsed s.disk.fsData 0 j → EntryUsed s.disk.fsData 0 k →
    dInumber s.disk.fsData 0 j = dInumber s.disk.fsData 0 k → j = k
  terminated : Terminated s.disk.fsData 0
  handles : ∀ h < 20, s.freeOpenFileEntries h = .taken → EntryOk s (s.openFileTable h)

/-! ## Consequences -/

section Consequences

variable {s : State} {i b : ℕ}

theorem Inv.of_named (hs : Inv s) (hn : Named s i) : 0 < i ∧ Allocated s i := by
  rcases hn with ⟨k, hk, hused, hnum⟩
  rcases hs.entries k hk hused with ⟨j, hj, halloc, hjnum⟩
  have hij : i = j := by
    have h : (i : ℤ) = j := hnum.symm.trans hjnum
    omega
  subst hij
  exact ⟨hj, halloc⟩

theorem Inv.owns_root (hs : Inv s) : Owns s 0 0 := by
  rcases hs.root with ⟨halloc, hnode⟩
  exact ⟨halloc, by simp [hnode], by simp [hnode]⟩

theorem Inv.rootBlock_taken (hs : Inv s) : s.disk.freeBlocks 0 = .taken :=
  (hs.blocks.taken_of_refers hs.owns_root).2

theorem Inv.dataBlockGet_root (hs : Inv s) : dataBlockGet (s.inodeTable 0).iDataBlock = some 0 := by
  simp [hs.root.2, dataBlockGet, validBlockNumber]

/-- A file's block is not the root directory's block. -/
theorem Inv.block_pos (hs : Inv s) (hi : 0 < i) (howns : Owns s i b) : 0 < b := by
  by_contra hb
  have hzero : b = 0 := by omega
  subst hzero
  have hroot := hs.blocks.unique i 0 0 howns hs.owns_root
  omega

theorem Named.congr {t : State} (hdir : SameBlock s.disk.fsData t.disk.fsData 0) :
    Named t i ↔ Named s i := by
  unfold Named
  constructor
  · rintro ⟨k, hk, hused, hnum⟩
    exact ⟨k, hk, (hdir.entryUsed_iff hk).1 hused, (hdir.dInumber_eq hk) ▸ hnum⟩
  · rintro ⟨k, hk, hused, hnum⟩
    exact ⟨k, hk, (hdir.entryUsed_iff hk).2 hused, (hdir.dInumber_eq hk).trans hnum⟩

theorem EntryOk.congr {t : State} (hdir : SameBlock s.disk.fsData t.disk.fsData 0)
    {e : OpenFileEntry} (h : EntryOk s e) : EntryOk t e := by
  rcases h with ⟨hoff, i, hi, hn⟩
  exact ⟨hoff, i, hi, (Named.congr hdir).2 hn⟩

/-- A copy into any block but the first leaves the root directory as it was. -/
theorem sameBlock_memcpy {m : Memory} {off n : ℕ} {buffer : ℕ → Byte} (hb : 0 < b) :
    SameBlock m (memcpy m (b * 1024 + off) buffer n) 0 := by
  intro k hk
  exact memcpy_of_disjoint (by omega)

end Consequences

/-! ## Rules for the updates -/

section Rules

variable {s t : State} {i : ℕ}

/-- A change of the open file table only. -/
theorem Inv.of_handles (hs : Inv s) (hdisk : t.disk = s.disk) (hnodes : t.inodeTable = s.inodeTable)
    (hfree : t.freeinodeTs = s.freeinodeTs)
    (hhandles : ∀ h < 20, t.freeOpenFileEntries h = .taken → EntryOk s (t.openFileTable h)) :
    Inv t := by
  have halloc : ∀ j, Allocated t j ↔ Allocated s j := by simp [Allocated, hfree]
  constructor
  · apply hs.blocks.congr
    · simp [Owns, halloc, hnodes]
    · simp [BlockTaken, hdisk]
  · simpa [halloc, hnodes] using hs.valid
  · simpa [halloc, hnodes] using hs.root
  · simpa [halloc, hnodes] using hs.files
  · simpa [halloc, hnodes] using hs.sizes
  · simpa [halloc, hdisk] using hs.entries
  · simpa [hdisk] using hs.distinct
  · simpa [hdisk] using hs.terminated
  · intro h hh htaken
    exact EntryOk.congr (by rw [hdisk]; exact SameBlock.refl _ _) (hhandles h hh htaken)

/-- A change of one file's i-node and block that leaves the directory block alone. -/
theorem Inv.of_file (hs : Inv s) (hi : Named s i) (hfree : t.freeinodeTs = s.freeinodeTs)
    (hother : ∀ j, j ≠ i → t.inodeTable j = s.inodeTable j)
    (hdir : SameBlock s.disk.fsData t.disk.fsData 0)
    (hblocks : Exclusive (Owns t) (BlockTaken t))
    (hvalid : 0 < (t.inodeTable i).iSize → ∃ b : ℕ, b < 1024 ∧ (t.inodeTable i).iDataBlock = b)
    (htype : (t.inodeTable i).iNodeType = (s.inodeTable i).iNodeType)
    (hnonroot : (t.inodeTable i).iDataBlock ≠ 0) (hsize : (t.inodeTable i).iSize ≤ 1024)
    (hhandles : ∀ h < 20, t.freeOpenFileEntries h = .taken → EntryOk s (t.openFileTable h)) :
    Inv t := by
  rcases hs.of_named hi with ⟨hpos, hallocI⟩
  have halloc : ∀ j, Allocated t j ↔ Allocated s j := by simp [Allocated, hfree]
  constructor
  · exact hblocks
  · intro j hj
    -- each clause is given for `i` and as before for any other i-node
    by_cases hji : j = i
    · subst hji
      exact hvalid
    · rw [hother j hji]
      exact hs.valid j ((halloc j).1 hj)
  · rw [halloc, hother 0 (by omega)]
    exact hs.root
  · intro j hj hallocJ
    by_cases hji : j = i
    · subst hji
      exact ⟨htype.trans (hs.files j hj ((halloc j).1 hallocJ)).1, hnonroot⟩
    · rw [hother j hji]
      exact hs.files j hj ((halloc j).1 hallocJ)
  · intro j hj
    by_cases hji : j = i
    · subst hji
      exact hsize
    · rw [hother j hji]
      exact hs.sizes j ((halloc j).1 hj)
  · intro k hk hused
    rcases hs.entries k hk ((hdir.entryUsed_iff hk).1 hused) with ⟨j, hj, hallocJ, hnum⟩
    exact ⟨j, hj, (halloc j).2 hallocJ, (hdir.dInumber_eq hk).trans hnum⟩
  · intro j hj k hk husedJ husedK hEq
    rw [hdir.dInumber_eq hj, hdir.dInumber_eq hk] at hEq
    exact hs.distinct j hj k hk ((hdir.entryUsed_iff hj).1 husedJ)
      ((hdir.entryUsed_iff hk).1 husedK) hEq
  · exact hdir.terminated hs.terminated
  · intro h hh htaken
    exact EntryOk.congr hdir (hhandles h hh htaken)

end Rules

end Server
end TecnicoFs
