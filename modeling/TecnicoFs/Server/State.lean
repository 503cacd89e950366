import Mathlib.Tactic.Simps.Basic
import TecnicoFs.Storage.Directory

/-!
# Server state — `tfs_server/fs/state.c`

The file system library of the server: a file has one data block, and one global lock makes every call a
critical section.  The static arrays become functions on indices; a C pointer into an array becomes
the index it points to, and `NULL` becomes `none`.
-/

namespace TecnicoFs
namespace Server

open Lib

/-! ## Data -/

/-- `inode_t` -/
structure Inode where
  iNodeType : InodeType
  iSize : ℕ
  iDataBlock : ℤ

/-- `open_file_entry_t` -/
structure OpenFileEntry where
  ofInumber : ℤ
  ofOffset : ℕ

/-- The static variables of `state.c`. -/
structure State where
  disk : Disk
  inodeTable : ℕ → Inode
  freeinodeTs : ℕ → AllocationState
  openFileTable : ℕ → OpenFileEntry
  freeOpenFileEntries : ℕ → AllocationState
  openFilesNumber : ℤ
  stateClosing : Bool

/-- Static storage before `state_init`: all bytes zero. -/
def staticState : State where
  disk := ⟨fun _ => 0, fun _ => .free⟩
  inodeTable := fun _ => ⟨.file, 0, 0⟩
  freeinodeTs := fun _ => .free
  openFileTable := fun _ => ⟨0, 0⟩
  freeOpenFileEntries := fun _ => .free
  openFilesNumber := 0
  stateClosing := false

namespace State

/-! ## Updates of one array element -/

variable (s : State) (i j h : ℕ) (n : Inode) (a : AllocationState) (e : OpenFileEntry)

@[simps -fullyApplied] def setInode : State :=
  { s with inodeTable := Function.update s.inodeTable i n }

@[simps -fullyApplied] def markInode : State :=
  { s with freeinodeTs := Function.update s.freeinodeTs i a }

@[simps -fullyApplied] def setEntry : State :=
  { s with openFileTable := Function.update s.openFileTable h e }

@[simps -fullyApplied] def markHandle : State :=
  { s with freeOpenFileEntries := Function.update s.freeOpenFileEntries h a }

@[simps -fullyApplied] def setDisk (d : Disk) : State :=
  { s with disk := d }

@[simps -fullyApplied] def setData (m : Memory) : State :=
  { s with disk := { s.disk with fsData := m } }

end State

/-! ## Initialisation -/

def stateInit (s : State) : State :=
  { s with
    freeinodeTs := fun _ => .free
    disk := { s.disk with freeBlocks := fun _ => .free }
    freeOpenFileEntries := fun _ => .free
    openFilesNumber := 0
    stateClosing := false }

/-! ## I-nodes -/

def inodeCreate (nType : InodeType) (s : State) : ℤ × State :=
  match firstFree s.freeinodeTs inodeTableSize with
  | none => (-1, s)
  | some inumber =>
      let s := s.markInode inumber .taken
      let s := s.setInode inumber { s.inodeTable inumber with iNodeType := nType }
      match nType with
      | .directory =>
          let (b, d) := s.disk.dataBlockAlloc
          let s := s.setDisk d
          if b = -1 then
            (-1, s.markInode inumber .free)
          else
            let s := s.setInode inumber
              { s.inodeTable inumber with iSize := blockSize, iDataBlock := b }
            match dataBlockGet b with
            | none => (-1, s.markInode inumber .free)
            | some dir => (inumber, s.setData (clearEntries s.disk.fsData dir maxDirEntries))
      | .file =>
          (inumber, s.setInode inumber { s.inodeTable inumber with iSize := 0, iDataBlock := -1 })

def inodeDelete (inumber : ℤ) (s : State) : ℤ × State :=
  if !validInumber inumber || s.freeinodeTs inumber.toNat = .free then
    (-1, s)
  else
    let s := s.markInode inumber.toNat .free
    let node := s.inodeTable inumber.toNat
    -- an empty file has no block
    if node.iSize > 0 then
      let (r, d) := s.disk.dataBlockFree node.iDataBlock
      (if r = -1 then -1 else 0, s.setDisk d)
    else
      (0, s)

/-! ## Directory entries -/

/-- `add_dir_entry`.  `none` is the undefined behaviour of `strlen` on an invalid `subName`. -/
def addDirEntry (inumber subInumber : ℤ) (subName : Option CString) (s : State) :
    Option (ℤ × State) :=
  if !validInumber inumber || !validInumber subInumber then
    some (-1, s)
  else if (s.inodeTable inumber.toNat).iNodeType ≠ .directory then
    some (-1, s)
  else
    match subName with
    | none => none
    | some name =>
        if name.strlen = 0 then
          some (-1, s)
        else
          match dataBlockGet (s.inodeTable inumber.toNat).iDataBlock with
          | none => some (-1, s)
          | some dir =>
              match emptyEntry s.disk.fsData dir with
              | none => some (-1, s)
              | some k => some (0, s.setData (fillEntry s.disk.fsData dir k subInumber name))

def findInDir (inumber : ℤ) (subName : CString) (s : State) : ℤ :=
  if !validInumber inumber || (s.inodeTable inumber.toNat).iNodeType ≠ .directory then
    -1
  else
    match dataBlockGet (s.inodeTable inumber.toNat).iDataBlock with
    | none => -1
    | some dir =>
        match searchEntry s.disk.fsData dir subName with
        | none => -1
        | some k => dInumber s.disk.fsData dir k

/-! ## The open file table -/

def addToOpenFileTable (inumber : ℤ) (offset : ℕ) (s : State) : ℤ × State :=
  match firstFree s.freeOpenFileEntries maxOpenFiles with
  | none => (-1, s)
  | some i =>
      let s := (s.markHandle i .taken).setEntry i ⟨inumber, offset⟩
      (i, { s with openFilesNumber := s.openFilesNumber + 1 })

def removeFromOpenFileTable (fhandle : ℤ) (s : State) : ℤ × State :=
  if !validFileHandle fhandle || s.freeOpenFileEntries fhandle.toNat ≠ .taken then
    (-1, s)
  else
    let s := s.markHandle fhandle.toNat .free
    (0, { s with openFilesNumber := s.openFilesNumber - 1 })

def getOpenFilesNumber (s : State) : ℤ :=
  s.openFilesNumber

def stateClosingStatus (s : State) : Bool :=
  s.stateClosing

def setStateClosing (s : State) : State :=
  { s with stateClosing := true }

end Server
end TecnicoFs
