import Mathlib.Tactic.Simps.Basic
import TecnicoFs.Storage.Directory

/-!
# Multi-block state — `tfs/fs/state.c`

The first file system: an i-node has ten direct blocks and an index block that lists 256 more.  Each
i-node has its own lock; the calls of this module are the bodies of the functions, and the locks enter
only where threads are modelled.
-/

namespace TecnicoFs
namespace Tfs

open Lib

/-! ## Data -/

abbrev directBlocksQuantity : ℕ := 10

/-- `BLOCK_SIZE / sizeof(int)` -/
abbrev indexEntries : ℕ := blockSize / 4

/-- `inode_t`; `iDataBlock k` is meant for `k < 10`. -/
structure Inode where
  iNodeType : InodeType
  iSize : ℕ
  iDataBlock : ℕ → ℤ
  iIndexBlock : ℤ

/-- `open_file_entry_t` -/
structure OpenFileEntry where
  ofInumber : ℤ
  ofOffset : ℕ
  ofAppendFlag : ℤ

/-- The static variables of `state.c`. -/
structure State where
  disk : Disk
  inodeTable : ℕ → Inode
  freeinodeTs : ℕ → AllocationState
  openFileTable : ℕ → OpenFileEntry
  freeOpenFileEntries : ℕ → AllocationState

/-- Static storage before `state_init`: all bytes zero. -/
def staticState : State where
  disk := ⟨fun _ => 0, fun _ => .free⟩
  inodeTable := fun _ => ⟨.file, 0, fun _ => 0, 0⟩
  freeinodeTs := fun _ => .free
  openFileTable := fun _ => ⟨0, 0, 0⟩
  freeOpenFileEntries := fun _ => .free

namespace State

/-! ## Updates of one array element -/

variable (s : State) (i j h : ℕ) (n : Inode) (a : AllocationState) (e : OpenFileEntry)

@[simps -fullyApplied] def setInode : State :=
  { s with inodeTable := Function.update s.inodeTable i n }

@[simps -fullyApplied] def markInode : State :=
  { s with freeinodeTs := Function.update s.freeinodeTs i a }

@[simps -fullyApplied] def setEntry : State :=
  { s with openFileTable := Function.update s.openFileTable h e }

@[simps -fullyApplied] def markHandle : State :=
  { s with freeOpenFileEntries := Function.update s.freeOpenFileEntries h a }

@[simps -fullyApplied] def setDisk (d : Disk) : State :=
  { s with disk := d }

@[simps -fullyApplied] def setData (m : Memory) : State :=
  { s with disk := { s.disk with fsData := m } }

end State

/-! ## Initialisation -/

def stateInit (s : State) : State :=
  { s with
    freeinodeTs := fun _ => .free
    disk := { s.disk with freeBlocks := fun _ => .free }
    freeOpenFileEntries := fun _ => .free }

/-! ## Index blocks -/

/-- `index_block[k]`, for the index block at address `a`. -/
def indexEntry (m : Memory) (a k : ℕ) : ℤ :=
  readInt m (a + 4 * k)

def setIndexEntry (m : Memory) (a k : ℕ) (b : ℤ) : Memory :=
  writeInt m (a + 4 * k) b

/-- Copy an array of `int`s that are all `-1` over the index block at address `a`. -/
def fillIndexBlock (m : Memory) (a : ℕ) : Memory :=
  memcpy m a (fun k => (intBytes (-1)).getD (k % 4) 0) blockSize

/-! ## I-nodes -/

/-- The i-node of a new directory before its block is allocated. -/
def emptyDirectory (node : Inode) : Inode :=
  { node with iNodeType := .directory, iDataBlock := fun _ => -1 }

/-- `inode_create`.  A file whose index block cannot be allocated keeps its i-node. -/
def inodeCreate (nType : InodeType) (s : State) : ℤ × State :=
  match firstFree s.freeinodeTs inodeTableSize with
  | none => (-1, s)
  | some inumber =>
      let s := s.markInode inumber .taken
      match nType with
      | .directory =>
          let s := s.setInode inumber (emptyDirectory (s.inodeTable inumber))
          let (b, d) := s.disk.dataBlockAlloc
          let s := s.setDisk d
          if b = -1 then
            (-1, s.markInode inumber .free)
          else
            let s := s.setInode inumber { s.inodeTable inumber with
              iSize := blockSize
              iDataBlock := Function.update (s.inodeTable inumber).iDataBlock 0 b
              iIndexBlock := -1 }
            match dataBlockGet b with
            | none => (-1, s.markInode inumber .free)
            | some dir => (inumber, s.setData (clearEntries s.disk.fsData dir maxDirEntries))
      | .file =>
          let (b, d) := s.disk.dataBlockAlloc
          -- the -1 of `data_block_alloc` is noticed below, where the i-node stays taken
          let s := (s.setDisk d).setInode inumber ⟨.file, 0, fun _ => -1, b⟩
          match dataBlockGet b with
          | none => (-1, s)
          | some a => (inumber, s.setData (fillIndexBlock s.disk.fsData a))

/-- The loop of `inode_datablocks_erase` over the direct blocks. -/
def freeDirect (node : Inode) : List ℕ → Disk → ℤ × Disk
  | [], d => (0, d)
  | k :: ks, d =>
      if node.iDataBlock k = -1 then
        freeDirect node ks d
      else
        let (r, d) := d.dataBlockFree (node.iDataBlock k)
        if r = -1 then (-1, d) else freeDirect node ks d

/-- Its loop over the entries of the index block at address `a`. -/
def freeIndirect (a : ℕ) : List ℕ → Disk → ℤ × Disk
  | [], d => (0, d)
  | k :: ks, d =>
      if indexEntry d.fsData a k = -1 then
        freeIndirect a ks d
      else
        let (r, d) := d.dataBlockFree (indexEntry d.fsData a k)
        -- the entry is emptied only after its block was freed
        if r = -1 then (-1, d)
        else freeIndirect a ks { d with fsData := setIndexEntry d.fsData a k (-1) }

/-- `inode_datablocks_erase`.  The i-node is passed by value, so only the disk changes. -/
def inodeDatablocksErase (node : Inode) (d : Disk) : ℤ × Disk :=
  let (r, d) := freeDirect node (List.range directBlocksQuantity) d
  if r = -1 then
    (-1, d)
  else
    match dataBlockGet node.iIndexBlock with
    | none => (-1, d)
    | some a => freeIndirect a (List.range indexEntries) d

def inodeDelete (inumber : ℤ) (s : State) : ℤ × State :=
  if !validInumber inumber || s.freeinodeTs inumber.toNat = .free then
    (-1, s)
  else
    let s := s.markInode inumber.toNat .free
    let node := s.inodeTable inumber.toNat
    let (r, d) := inodeDatablocksErase node s.disk
    if r ≠ 0 then
      (-1, s.setDisk d)
    else
      let (r, d) := d.dataBlockFree node.iIndexBlock
      (if r ≠ 0 then -1 else 0, s.setDisk d)

/-! ## Directory entries -/

/-- `add_dir_entry`.  `none` is the undefined behaviour of `strlen` on an invalid `subName`. -/
def addDirEntry (inumber subInumber : ℤ) (subName : Option CString) (s : State) :
    Option (ℤ × State) :=
  if !validInumber inumber || !validInumber subInumber then
    some (-1, s)
  else if (s.inodeTable inumber.toNat).iNodeType ≠ .directory then
    some (-1, s)
  else
    match subName with
    | none => none
    | some name =>
        if name.strlen = 0 then
          some (-1, s)
        else
          match dataBlockGet ((s.inodeTable inumber.toNat).iDataBlock 0) with
          | none => some (-1, s)
          | some dir =>
              match emptyEntry s.disk.fsData dir with
              | none => some (-1, s)
              | some k => some (0, s.setData (fillEntry s.disk.fsData dir k subInumber name))

def findInDir (inumber : ℤ) (subName : CString) (s : State) : ℤ :=
  if !validInumber inumber || (s.inodeTable inumber.toNat).iNodeType ≠ .directory then
    -1
  else
    match dataBlockGet ((s.inodeTable inumber.toNat).iDataBlock 0) with
    | none => -1
    | some dir =>
        match searchEntry s.disk.fsData dir subName with
        | none => -1
        | some k => dInumber s.disk.fsData dir k

/-! ## The open file table -/

def addToOpenFileTable (inumber : ℤ) (offset : ℕ) (appendFlag : ℤ) (s : State) : ℤ × State :=
  match firstFree s.freeOpenFileEntries maxOpenFiles with
  | none => (-1, s)
  | some i => (i, (s.markHandle i .taken).setEntry i ⟨inumber, offset, appendFlag⟩)

def removeFromOpenFileTable (fhandle : ℤ) (s : State) : ℤ × State :=
  if !validFileHandle fhandle || s.freeOpenFileEntries fhandle.toNat ≠ .taken then
    (-1, s)
  else
    (0, s.markHandle fhandle.toNat .free)

/-! ## Index block lemmas -/

section Index

variable {m : Memory} {a k l : ℕ} {b : ℤ}

theorem indexEntry_setIndexEntry_self (hlo : -2 ^ 31 ≤ b) (hhi : b < 2 ^ 31) :
    indexEntry (setIndexEntry m a k b) a k = b :=
  readInt_writeInt hlo hhi

theorem indexEntry_setIndexEntry_of_ne (hl : l ≠ k) :
    indexEntry (setIndexEntry m a k b) a l = indexEntry m a l :=
  readInt_writeInt_of_disjoint (by omega)

theorem indexEntry_fillIndexBlock (hk : k < 256) : indexEntry (fillIndexBlock m a) a k = -1 := by
  have hEq : indexEntry (fillIndexBlock m a) a k = readInt (writeInt m (a + 4 * k) (-1)) (a + 4 * k) := by
    apply readInt_congr
    intro j hj
    have hlt : 4 * k + j < blockSize := show 4 * k + j < 1024 by omega
    have hmod : (4 * k + j) % 4 = j := by omega
    rw [fillIndexBlock, Nat.add_assoc, memcpy_add hlt, hmod, ← Nat.add_assoc, writeInt, memcpy_add hj]
  rw [hEq]
  exact readInt_writeInt (by decide) (by decide)

end Index

end Tfs
end TecnicoFs
