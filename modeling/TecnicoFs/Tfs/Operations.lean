import TecnicoFs.Lib.Transition
import TecnicoFs.Tfs.State

/-!
# Multi-block operations — `tfs/fs/operations.c`

The calls made one after the other; the lock calls do nothing then.  `tfs_write` and `tfs_read` each run
two loops, over the direct blocks and over the entries of the index block.  The two loops of a call differ
in where they find and store block numbers, which is a parameter (`BlockSlots`), and the two loops of
`tfs_read` differ also in how they limit the bytes of one block.

The result is an `Option`: `none` stands for undefined behaviour, which is an access to `i_data_block` at a
negative index, or a path pointer that cannot be read.
-/

namespace TecnicoFs
namespace Tfs

open Lib

/-! ## Start -/

def tfsInit : ℤ × State :=
  let (root, s) := inodeCreate .directory (stateInit staticState)
  if root ≠ rootDirInum then (-1, s) else (0, s)

/-! ## Open and close -/

def tfsLookup (name : Path) (s : State) : ℤ :=
  match name with
  | none => -1
  | some p => if validPathname name then findInDir rootDirInum p.tail s else -1

/-- "Trucate (if requested)" -/
def truncateFile (flags : ℤ) (i : ℕ) (s : State) : ℤ × State :=
  if hasFlag flags tfsOTrunc ∧ (s.inodeTable i).iSize > 0 then
    let (r, d) := inodeDatablocksErase (s.inodeTable i) s.disk
    let s := s.setDisk d
    if r = -1 then (r, s) else (r, s.setInode i { s.inodeTable i with iSize := 0 })
  else
    (0, s)

/-- The branch of `tfs_open` for a name that was found. -/
def openExisting (inum : ℤ) (flags : ℤ) (s : State) : ℤ × State :=
  match inodeGet inum with
  | none => (-1, s)
  | some i =>
      let (r, s) := truncateFile flags i s
      if r = -1 then
        (-1, s)
      else if hasFlag flags tfsOAppend then
        addToOpenFileTable inum (s.inodeTable i).iSize 1 s
      else
        addToOpenFileTable inum 0 0 s

/-- The branch of `tfs_open` that creates the file. -/
def openCreate (name : Path) (s : State) : Option (ℤ × State) :=
  let (inum, s) := inodeCreate .file s
  if inum = -1 then
    some (-1, s)
  else
    match addDirEntry rootDirInum inum (afterSlash name) s with
    | none => none
    | some (r, s) =>
        if r = -1 then
          -- the result of `inode_delete` is not looked at
          some (-1, (inodeDelete inum s).2)
        else
          some (addToOpenFileTable inum 0 0 s)

def tfsOpen (name : Path) (flags : ℤ) (s : State) : Option (ℤ × State) :=
  if !validPathname name then
    some (-1, s)
  else
    let inum := tfsLookup name s
    if inum ≥ 0 then
      some (openExisting inum flags s)
    else if hasFlag flags tfsOCreat then
      openCreate name s
    else
      some (-1, s)

def tfsClose (fhandle : ℤ) (s : State) : ℤ × State :=
  removeFromOpenFileTable fhandle s

/-! ## Where a loop finds its blocks -/

/-- Access to a row of block numbers. -/
structure BlockSlots where
  get : State → ℕ → ℤ
  set : State → ℕ → ℤ → State

/-- `inode->i_data_block` -/
def directSlots (i : ℕ) : BlockSlots where
  get s k := (s.inodeTable i).iDataBlock k
  set s k b := s.setInode i
    { s.inodeTable i with iDataBlock := Function.update (s.inodeTable i).iDataBlock k b }

/-- `index_block`, at address `a`. -/
def indexSlots (a : ℕ) : BlockSlots where
  get s k := indexEntry s.disk.fsData a k
  set s k b := s.setData (setIndexEntry s.disk.fsData a k b)

/-- "Updating index for indirect blocks" -/
def indirectIndex (index : ℕ) : ℕ :=
  if index > directBlocksQuantity then index - directBlocksQuantity else 0

/-! ## Write -/

/-- How a write loop ends: without a block, or with all bytes written or all slots passed. -/
inductive WriteEnd
  | noBlock (writen : ℕ) (s : State)
  | done (index writen : ℕ) (s : State)

/-- Allocate a block for an empty slot. -/
def allocSlot (slots : BlockSlots) (index : ℕ) (s : State) : State :=
  if slots.get s index = -1 then
    let (b, d) := s.disk.dataBlockAlloc
    slots.set (s.setDisk d) index b
  else
    s

/-- "Checking the remaining space to write in the block" -/
def writeInBlock (offset toWrite writen : ℕ) : ℕ :=
  if blockSize - offset % blockSize > toWrite - writen then toWrite - writen
  else blockSize - offset % blockSize

/-- A `for` loop of `tfs_write`; the first argument counts the slots that are left. -/
def writeLoop (slots : BlockSlots) (h : ℕ) (buffer : ℕ → Byte) (toWrite : ℕ) :
    ℕ → ℕ → ℕ → State → WriteEnd
  | 0, index, writen, s => .done index writen s
  | left + 1, index, writen, s =>
      if writen < toWrite then
        let offset := (s.openFileTable h).ofOffset
        let n := writeInBlock offset toWrite writen
        let s := allocSlot slots index s
        match dataBlockGet (slots.get s index) with
        | none => .noBlock writen s
        | some block =>
            let s := s.setData (memcpy s.disk.fsData (block + offset % blockSize)
              (fun k => buffer (writen + k)) n)
            -- the offset advances by the running total, not by the bytes of this turn
            let writen := writen + n
            let s := s.setEntry h { s.openFileTable h with ofOffset := sizeAdd offset writen }
            writeLoop slots h buffer toWrite left (index + 1) writen s
      else
        .done index writen s

/-- What `tfs_write` does once it has its i-node and the index of the first block. -/
def writeBlocks (h i : ℕ) (buffer : ℕ → Byte) (toWrite index : ℕ) (s : State) : ℤ × State :=
  match writeLoop (directSlots i) h buffer toWrite (directBlocksQuantity - index) index 0 s with
  | .noBlock writen s => (castLong writen, s)
  | .done index writen s =>
      match dataBlockGet (s.inodeTable i).iIndexBlock with
      | none => (-1, s)
      | some a =>
          let index := indirectIndex index
          match writeLoop (indexSlots a) h buffer toWrite (indexEntries - index) index writen s with
          | .noBlock writen s => (castLong writen, s)
          | .done _ writen s =>
              let offset := (s.openFileTable h).ofOffset
              if (s.inodeTable i).iSize < offset then
                (castLong writen, s.setInode i { s.inodeTable i with iSize := offset })
              else
                (castLong writen, s)

/-- A handle opened for appending writes at the end of the file. -/
def seekForAppend (h i : ℕ) (s : State) : State :=
  if (s.openFileTable h).ofAppendFlag = 1 then
    s.setEntry h { s.openFileTable h with ofOffset := (s.inodeTable i).iSize }
  else
    s

/-- `((int)offset) / BLOCK_SIZE` -/
def blockIndex (offset : ℕ) : ℤ :=
  (castInt offset).tdiv blockSize

def tfsWrite (fhandle : ℤ) (buffer : ℕ → Byte) (toWrite : ℕ) (s : State) : Option (ℤ × State) :=
  match getOpenFileEntry fhandle with
  | none => some (-1, s)
  | some h =>
      -- `(int)to_write < 0`, where `to_write` is a `size_t`
      if castInt toWrite < 0 then
        some (-1, s)
      else
        match inodeGet (s.openFileTable h).ofInumber with
        | none => some (-1, s)
        | some i =>
            let s := seekForAppend h i s
            let index := blockIndex (s.openFileTable h).ofOffset
            -- `i_data_block[index]` at a negative index
            if index < 0 ∧ 0 < toWrite then
              none
            else
              some (writeBlocks h i buffer toWrite index.toNat s)

/-! ## Read -/

/-- How a read loop ends; the bytes delivered so far, whose number is the counter `read`. -/
inductive ReadEnd
  | noBlock (out : List Byte) (s : State)
  | done (index : ℕ) (out : List Byte) (s : State)

/-- "Checking the remaining space to read in the block"; the bound is what differs in the two loops. -/
def readInBlock (offset bound : ℕ) : ℕ :=
  if blockSize - offset % blockSize > bound then bound else blockSize - offset % blockSize

/-- A `for` loop of `tfs_read`. -/
def readLoop (slots : BlockSlots) (bound : ℕ → ℕ) (h toRead : ℕ) :
    ℕ → ℕ → List Byte → State → ReadEnd
  | 0, index, out, s => .done index out s
  | left + 1, index, out, s =>
      if out.length < toRead then
        let offset := (s.openFileTable h).ofOffset
        let n := readInBlock offset (bound out.length)
        match dataBlockGet (slots.get s index) with
        | none => .noBlock out s
        | some block =>
            let out := out ++ memread s.disk.fsData (block + offset % blockSize) n
            -- here too the offset advances by the running total
            let s := s.setEntry h
              { s.openFileTable h with ofOffset := sizeAdd offset out.length }
            readLoop slots bound h toRead left (index + 1) out s
      else
        .done index out s

/-- What `tfs_read` does once it knows how many bytes to read and the index of the first block. -/
def readBlocks (h i toRead index : ℕ) (s : State) : ℤ × List Byte × State :=
  match readLoop (directSlots i) (fun read => toRead - read) h toRead
      (directBlocksQuantity - index) index [] s with
  | .noBlock out s => (castLong out.length, out, s)
  | .done index out s =>
      match dataBlockGet (s.inodeTable i).iIndexBlock with
      | none => (-1, out, s)
      | some a =>
          let index := indirectIndex index
          -- this loop limits a block by `to_read`, not by what is left of it
          match readLoop (indexSlots a) (fun _ => toRead) h toRead (indexEntries - index) index out s with
          | .noBlock out s => (castLong out.length, out, s)
          | .done _ out s => (castLong out.length, out, s)

/-- "Ensuring we are not reading stuff off the file" -/
def clampOffset (h i : ℕ) (s : State) : State :=
  if (s.inodeTable i).iSize < (s.openFileTable h).ofOffset then
    s.setEntry h { s.openFileTable h with ofOffset := (s.inodeTable i).iSize }
  else
    s

/-- "Determine how many bytes to read" -/
def readCount (size offset len : ℕ) : ℕ :=
  if len < sizeSub size offset then len else sizeSub size offset

/-- The result is the return value, the bytes stored in the caller's buffer, and the new state. -/
def tfsRead (fhandle : ℤ) (len : ℕ) (s : State) : Option (ℤ × List Byte × State) :=
  match getOpenFileEntry fhandle with
  | none => some (-1, [], s)
  | some h =>
      match inodeGet (s.openFileTable h).ofInumber with
      | none => some (-1, [], s)
      | some i =>
          let s := clampOffset h i s
          let toRead := readCount (s.inodeTable i).iSize (s.openFileTable h).ofOffset len
          let index := blockIndex (s.openFileTable h).ofOffset
          -- `i_data_block[index]` at a negative index
          if index < 0 ∧ 0 < toRead then
            none
          else
            some (readBlocks h i toRead index.toNat s)

/-! ## Runs -/

/-- A call of the file system. -/
inductive Call
  | open (name : Path) (flags : ℤ)
  | close (fhandle : ℤ)
  | write (fhandle : ℤ) (buffer : ℕ → Byte) (len : ℕ)
  | read (fhandle : ℤ) (len : ℕ)

/-- What a call gives back: its return value and the bytes it delivered. -/
structure Reply where
  ret : ℤ
  data : List Byte
  deriving DecidableEq

def exec : Call → State → Option (Reply × State)
  | .open name flags, s => (tfsOpen name flags s).map fun x => (⟨x.1, []⟩, x.2)
  | .close fhandle, s => some (⟨(tfsClose fhandle s).1, []⟩, (tfsClose fhandle s).2)
  | .write fhandle buffer len, s => (tfsWrite fhandle buffer len s).map fun x => (⟨x.1, []⟩, x.2)
  | .read fhandle len, s => (tfsRead fhandle len s).map fun x => (⟨x.1, x.2.1⟩, x.2.2)

def fileSystem : Machine State Call Reply where
  exec := exec

/-- The handle was returned by `tfs_open` and not closed since. -/
def HandleOpen (s : State) (fhandle : ℤ) : Prop :=
  ∃ h : ℕ, h < 20 ∧ fhandle = h ∧ s.freeOpenFileEntries h = .taken

/-- Reads and writes use open handles only. -/
def OnOpenHandle (s : State) : Call → Prop
  | .open _ _ => True
  | .close _ => True
  | .write fhandle _ _ => HandleOpen s fhandle
  | .read fhandle _ => HandleOpen s fhandle

instance (s : State) (fhandle : ℤ) : Decidable (HandleOpen s fhandle) :=
  inferInstanceAs (Decidable (∃ h : ℕ, h < 20 ∧ fhandle = h ∧ s.freeOpenFileEntries h = .taken))

instance (s : State) (a : Call) : Decidable (OnOpenHandle s a) :=
  match a with
  | .open _ _ => inferInstanceAs (Decidable True)
  | .close _ => inferInstanceAs (Decidable True)
  | .write fhandle _ _ => inferInstanceAs (Decidable (HandleOpen s fhandle))
  | .read fhandle _ => inferInstanceAs (Decidable (HandleOpen s fhandle))

/-- Runs from `tfs_init` whose reads and writes use open handles. -/
def properCalls : System State Call :=
  fileSystem.toSystem tfsInit.2 OnOpenHandle

end Tfs
end TecnicoFs
