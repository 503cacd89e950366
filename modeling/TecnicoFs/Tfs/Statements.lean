import TecnicoFs.Lib.Guarded
import TecnicoFs.Storage.Statements
import TecnicoFs.Tfs.Locks

/-!
# Statements — the library of `tfs`, one memory access and one lock call at a time

The functions of `state.c` and `operations.c` as programs that access one variable, one array element or one
byte in each statement, and that lock and unlock where the source does.  Two things are one statement though
they touch several words: the copy of an i-node that is passed by value, and the loop of `inode_create`
that empties the direct blocks of the new i-node.

Every program, run alone, does what the function of the same name does.
-/

namespace TecnicoFs
namespace Tfs

open Lib

namespace Statements

abbrev Program := Guarded LockName State

/-- A program on the data blocks. -/
def onDisk {ρ : Type} (c : Code Disk ρ) : Program ρ :=
  Guarded.plain (c.within State.disk fun d s => s.setDisk d)

def read {ρ : Type} (f : State → ρ) : Program ρ :=
  Guarded.plain (Code.read f)

def write (f : State → State) : Program Unit :=
  Guarded.plain (Code.write f)

def lock (l : Option LockName) : Program Unit :=
  Guarded.acquire l

def unlock (l : Option LockName) : Program Unit :=
  Guarded.release l

/-! ## Blocks -/

/-- The answer of a scan, as the functions return it. -/
def indexOrMinusOne (k : Option ℕ) : ℤ :=
  k.elim (-1) fun i => i

def dataBlockAlloc : Program ℤ := do
  let k ← Guarded.scan .freeBlocks
    (fun i => Code.read fun s : State => decide (s.disk.freeBlocks i = .free))
    (fun i => Code.write fun s => s.setDisk (s.disk.markBlock i .taken)) 0 dataBlocks
  pure (indexOrMinusOne k)

/-- The first address behind `fs_data`. -/
abbrev fsDataEnd : ℕ := blockSize * dataBlocks

/-- `memcpy` to `fs_data`. -/
def store (dst : ℕ) (src : ℕ → Byte) (n : ℕ) : Program Unit :=
  if dst + n > fsDataEnd then Guarded.undefined else onDisk (Disk.copyIn dst src n)

/-- `memcpy` from `fs_data`. -/
def load (src n : ℕ) : Program (List Byte) :=
  if src + n > fsDataEnd then Guarded.undefined else onDisk (Disk.copyOut src 0 n)

/-! ## I-nodes -/

/-- The loop of `inode_datablocks_erase` over `n` direct blocks from `k` on. -/
def freeDirect (node : Inode) : ℕ → ℕ → Code Disk ℤ
  | _, 0 => pure 0
  | k, n + 1 =>
      if node.iDataBlock k = -1 then
        freeDirect node (k + 1) n
      else do
        let r ← Disk.freeBlock (node.iDataBlock k)
        if r = -1 then pure (-1) else freeDirect node (k + 1) n

/-- Its loop over `n` entries from `k` on of the index block at address `a`. -/
def freeIndirect (a : ℕ) : ℕ → ℕ → Code Disk ℤ
  | _, 0 => pure 0
  | k, n + 1 => do
      let b ← Code.read fun d : Disk => indexEntry d.fsData a k
      if b = -1 then
        freeIndirect a (k + 1) n
      else do
        let b ← Code.read fun d : Disk => indexEntry d.fsData a k
        let r ← Disk.freeBlock b
        if r = -1 then
          pure (-1)
        else do
          Code.write fun d => d.setData (setIndexEntry d.fsData a k (-1))
          freeIndirect a (k + 1) n

def inodeDatablocksErase (node : Inode) : Code Disk ℤ := do
  let r ← freeDirect node 0 directBlocksQuantity
  if r = -1 then
    pure (-1)
  else
    match dataBlockGet node.iIndexBlock with
    | none => pure (-1)
    | some a => freeIndirect a 0 indexEntries

def setSize (i size : ℕ) : Program Unit :=
  write fun s => s.setInode i { s.inodeTable i with iSize := size }

/-- `inode_create` of a file behind its scan of `freeinode_ts`. -/
def createFile (i : ℕ) : Program ℤ := do
  write fun s => s.setInode i { s.inodeTable i with iNodeType := .file }
  setSize i 0
  write fun s => s.setInode i { s.inodeTable i with iDataBlock := fun _ => -1 }
  let b ← dataBlockAlloc
  write fun s => s.setInode i { s.inodeTable i with iIndexBlock := b }
  let b ← read fun s => (s.inodeTable i).iIndexBlock
  match dataBlockGet b with
  | none => pure (-1)
  | some a => do
      onDisk (Disk.copyIn a (fun k => (intBytes (-1)).getD (k % 4) 0) blockSize)
      pure (i : ℤ)

/-- `inode_create(T_FILE)` -/
def inodeCreate : Program ℤ := do
  let k ← Guarded.scan .freeinodeTs
    (fun i => Code.read fun s : State => decide (s.freeinodeTs i = .free))
    (fun i => Code.write fun s => s.markInode i .taken) 0 inodeTableSize
  match k with
  | none => pure (-1)
  | some i => createFile i

/-- `inode_delete` behind its check, up to its unlock. -/
def deleteTaken (inumber : ℤ) : Program ℤ := do
  write fun s => s.markInode inumber.toNat .free
  let node ← read fun s => s.inodeTable inumber.toNat
  let r ← onDisk (inodeDatablocksErase node)
  if r ≠ 0 then
    pure (-1)
  else do
    let b ← read fun s => (s.inodeTable inumber.toNat).iIndexBlock
    let r ← onDisk (Disk.freeBlock b)
    pure (if r ≠ 0 then -1 else 0)

def inodeDelete (inumber : ℤ) : Program ℤ := do
  lock (inodeLockGet inumber)
  if !validInumber inumber then do
    unlock (inodeLockGet inumber)
    pure (-1)
  else do
    let a ← read fun s => s.freeinodeTs inumber.toNat
    if a = .free then do
      unlock (inodeLockGet inumber)
      pure (-1)
    else do
      let r ← deleteTaken inumber
      unlock (inodeLockGet inumber)
      pure r

/-! ## Directory entries -/

/-- `add_dir_entry` behind its checks. -/
def insertEntry (inumber subInumber : ℤ) (name : CString) : Program ℤ := do
  lock (inodeLockGet inumber)
  let b ← read fun s => (s.inodeTable inumber.toNat).iDataBlock 0
  match dataBlockGet b with
  | none => do
      unlock (inodeLockGet inumber)
      pure (-1)
  | some dir => do
      let r ← onDisk (Disk.addEntry dir subInumber name)
      unlock (inodeLockGet inumber)
      pure r

def addDirEntry (inumber subInumber : ℤ) (subName : Option CString) : Program ℤ :=
  if !validInumber inumber || !validInumber subInumber then
    pure (-1)
  else do
    let nodeType ← read fun s => (s.inodeTable inumber.toNat).iNodeType
    if nodeType ≠ .directory then
      pure (-1)
    else
      match subName with
      | none => Guarded.undefined
      | some name => if name.strlen = 0 then pure (-1) else insertEntry inumber subInumber name

/-- `find_in_dir` behind its checks.  The number of the entry that was found is read after the unlock. -/
def lookUp (inumber : ℤ) (subName : CString) : Program ℤ := do
  lock (inodeLockGet inumber)
  let b ← read fun s => (s.inodeTable inumber.toNat).iDataBlock 0
  match dataBlockGet b with
  | none => pure (-1)
  | some dir => do
      let k ← onDisk (Disk.findEntry dir subName)
      unlock (inodeLockGet inumber)
      match k with
      | none => pure (-1)
      | some i => onDisk (Disk.inumberAt dir i)

def findInDir (inumber : ℤ) (subName : CString) : Program ℤ :=
  if !validInumber inumber then
    pure (-1)
  else do
    let nodeType ← read fun s => (s.inodeTable inumber.toNat).iNodeType
    if nodeType ≠ .directory then pure (-1) else lookUp inumber subName

/-! ## The open file table -/

def setOffset (h offset : ℕ) : Code State Unit :=
  Code.write fun s => s.setEntry h { s.openFileTable h with ofOffset := offset }

/-- The entry `i` of the open file table is taken and filled. -/
def fillHandle (inumber : ℤ) (offset : ℕ) (appendFlag : ℤ) (i : ℕ) : Code State Unit := do
  Code.write fun s => s.markHandle i .taken
  Code.write fun s => s.setEntry i { s.openFileTable i with ofInumber := inumber }
  setOffset i offset
  Code.write fun s => s.setEntry i { s.openFileTable i with ofAppendFlag := appendFlag }

def addToOpenFileTable (inumber : ℤ) (offset : ℕ) (appendFlag : ℤ) : Program ℤ := do
  let k ← Guarded.scan .openFileTable
    (fun i => Code.read fun s : State => decide (s.freeOpenFileEntries i = .free))
    (fillHandle inumber offset appendFlag) 0 maxOpenFiles
  pure (indexOrMinusOne k)

def removeFromOpenFileTable (fhandle : ℤ) : Program ℤ := do
  lock (some .openFileTable)
  if !validFileHandle fhandle then do
    unlock (some .openFileTable)
    pure (-1)
  else do
    let a ← read fun s => s.freeOpenFileEntries fhandle.toNat
    if a ≠ .taken then do
      unlock (some .openFileTable)
      pure (-1)
    else do
      write fun s => s.markHandle fhandle.toNat .free
      unlock (some .openFileTable)
      pure 0

/-! ## Open -/

def tfsLookup (name : Path) : Program ℤ :=
  match name with
  | none => pure (-1)
  | some p => if validPathname name then findInDir rootDirInum p.tail else pure (-1)

/-- "Truncate (if requested)" -/
def truncate (i : ℕ) (flags : ℤ) : Program ℤ :=
  if hasFlag flags tfsOTrunc then do
    let size ← read fun s => (s.inodeTable i).iSize
    if size > 0 then do
      let node ← read fun s => s.inodeTable i
      let r ← onDisk (inodeDatablocksErase node)
      if r = -1 then
        pure r
      else do
        setSize i 0
        pure r
    else
      pure 0
  else
    pure 0

/-- The branch of `tfs_open` for a name that was found. -/
def openExisting (inum flags : ℤ) : Program ℤ := do
  lock (inodeLockGet inum)
  match inodeGet inum with
  | none => pure (-1)
  | some i => do
      let r ← truncate i flags
      if r = -1 then do
        unlock (inodeLockGet inum)
        pure (-1)
      else if hasFlag flags tfsOAppend then do
        let offset ← read fun s => (s.inodeTable i).iSize
        unlock (inodeLockGet inum)
        addToOpenFileTable inum offset 1
      else do
        unlock (inodeLockGet inum)
        addToOpenFileTable inum 0 0

/-- The branch of `tfs_open` that creates the file.  `inode_delete` locks the i-node that is locked here. -/
def openCreate (name : Path) : Program ℤ := do
  let inum ← inodeCreate
  lock (inodeLockGet inum)
  if inum = -1 then
    pure (-1)
  else do
    let r ← addDirEntry rootDirInum inum (afterSlash name)
    if r = -1 then do
      let _ ← inodeDelete inum
      unlock (inodeLockGet inum)
      pure (-1)
    else do
      unlock (inodeLockGet inum)
      addToOpenFileTable inum 0 0

def tfsOpen (name : Path) (flags : ℤ) : Program ℤ :=
  if !validPathname name then
    pure (-1)
  else do
    let inum ← tfsLookup name
    if inum ≥ 0 then
      openExisting inum flags
    else if hasFlag flags tfsOCreat then
      openCreate name
    else
      pure (-1)

/-! ## Write -/

/-- How a loop over blocks ends: without a block, or with all bytes moved or all slots passed. -/
inductive LoopEnd (α : Type)
  | noBlock (moved : α)
  | done (index : ℕ) (moved : α)

/-- Allocate a block for an empty slot. -/
def allocSlot (slots : BlockSlots) (index : ℕ) : Program Unit := do
  let b ← read fun s => slots.get s index
  if b = -1 then do
    let b ← dataBlockAlloc
    write fun s => slots.set s index b
  else
    pure ()

/-- A `for` loop of `tfs_write`.  Each use of `file->of_offset` reads it again. -/
def writeLoop (slots : BlockSlots) (h : ℕ) (buffer : ℕ → Byte) (toWrite : ℕ) :
    ℕ → ℕ → ℕ → Program (LoopEnd ℕ)
  | 0, index, writen => pure (.done index writen)
  | left + 1, index, writen =>
      if writen < toWrite then do
        let offset ← read fun s => (s.openFileTable h).ofOffset
        allocSlot slots index
        let b ← read fun s => slots.get s index
        match dataBlockGet b with
        | none => pure (.noBlock writen)
        | some block => do
            let n := writeInBlock offset toWrite writen
            let offset ← read fun s => (s.openFileTable h).ofOffset
            store (block + offset % blockSize) (fun k => buffer (writen + k)) n
            let offset ← read fun s => (s.openFileTable h).ofOffset
            Guarded.plain (setOffset h (sizeAdd offset (writen + n)))
            writeLoop slots h buffer toWrite left (index + 1) (writen + n)
      else
        pure (.done index writen)

/-- "If we wrote a bigger file than what was previously written update the size" -/
def growFile (h i : ℕ) : Program Unit := do
  let size ← read fun s => (s.inodeTable i).iSize
  let offset ← read fun s => (s.openFileTable h).ofOffset
  if size < offset then do
    let offset ← read fun s => (s.openFileTable h).ofOffset
    setSize i offset
  else
    pure ()

/-- `tfs_write` under its lock, up to the unlock. -/
def writeBlocks (h i : ℕ) (buffer : ℕ → Byte) (toWrite index : ℕ) : Program ℤ := do
  let e ← writeLoop (directSlots i) h buffer toWrite (directBlocksQuantity - index) index 0
  match e with
  | .noBlock writen => pure (castLong writen)
  | .done index writen => do
      let b ← read fun s => (s.inodeTable i).iIndexBlock
      match dataBlockGet b with
      | none => pure (-1)
      | some a => do
          let e ← writeLoop (indexSlots a) h buffer toWrite (indexEntries - indirectIndex index)
            (indirectIndex index) writen
          match e with
          | .noBlock writen => pure (castLong writen)
          | .done _ writen => do
              growFile h i
              pure (castLong writen)

/-- A handle opened for appending writes at the end of the file, as it is before the lock. -/
def seekForAppend (h i : ℕ) : Program Unit := do
  let flag ← read fun s => (s.openFileTable h).ofAppendFlag
  if flag = 1 then do
    let size ← read fun s => (s.inodeTable i).iSize
    Guarded.plain (setOffset h size)
  else
    pure ()

def tfsWrite (fhandle : ℤ) (buffer : ℕ → Byte) (toWrite : ℕ) : Program ℤ :=
  match getOpenFileEntry fhandle with
  | none => pure (-1)
  | some h =>
      if castInt toWrite < 0 then
        pure (-1)
      else do
        let inumber ← read fun s => (s.openFileTable h).ofInumber
        match inodeGet inumber with
        | none => pure (-1)
        | some i => do
            seekForAppend h i
            let inumber ← read fun s => (s.openFileTable h).ofInumber
            lock (inodeLockGet inumber)
            let offset ← read fun s => (s.openFileTable h).ofOffset
            -- `i_data_block[index]` at a negative index
            if blockIndex offset < 0 ∧ 0 < toWrite then
              Guarded.undefined
            else do
              let r ← writeBlocks h i buffer toWrite (blockIndex offset).toNat
              unlock (inodeLockGet inumber)
              pure r

/-! ## Read -/

/-- A `for` loop of `tfs_read`. -/
def readLoop (slots : BlockSlots) (bound : ℕ → ℕ) (h toRead : ℕ) :
    ℕ → ℕ → List Byte → Program (LoopEnd (List Byte))
  | 0, index, out => pure (.done index out)
  | left + 1, index, out =>
      if out.length < toRead then do
        let offset ← read fun s => (s.openFileTable h).ofOffset
        let b ← read fun s => slots.get s index
        match dataBlockGet b with
        | none => pure (.noBlock out)
        | some block => do
            let n := readInBlock offset (bound out.length)
            let offset ← read fun s => (s.openFileTable h).ofOffset
            let bytes ← load (block + offset % blockSize) n
            let offset ← read fun s => (s.openFileTable h).ofOffset
            Guarded.plain (setOffset h (sizeAdd offset (out ++ bytes).length))
            readLoop slots bound h toRead left (index + 1) (out ++ bytes)
      else
        pure (.done index out)

/-- `tfs_read` under its lock, with the bytes to read and the first block known, up to the unlock. -/
def readBlocks (h i toRead index : ℕ) : Program (ℤ × List Byte) := do
  let e ← readLoop (directSlots i) (fun read => toRead - read) h toRead
    (directBlocksQuantity - index) index []
  match e with
  | .noBlock out => pure (castLong out.length, out)
  | .done index out => do
      let b ← read fun s => (s.inodeTable i).iIndexBlock
      match dataBlockGet b with
      | none => pure (-1, out)
      | some a => do
          let e ← readLoop (indexSlots a) (fun _ => toRead) h toRead (indexEntries - indirectIndex index)
            (indirectIndex index) out
          match e with
          | .noBlock out => pure (castLong out.length, out)
          | .done _ out => pure (castLong out.length, out)

/-- "Ensuring we are not reading stuff off the file" -/
def clampOffset (h i : ℕ) : Program Unit := do
  let size ← read fun s => (s.inodeTable i).iSize
  let offset ← read fun s => (s.openFileTable h).ofOffset
  if size < offset then do
    let size ← read fun s => (s.inodeTable i).iSize
    Guarded.plain (setOffset h size)
  else
    pure ()

def tfsRead (fhandle : ℤ) (len : ℕ) : Program (ℤ × List Byte) :=
  match getOpenFileEntry fhandle with
  | none => pure (-1, [])
  | some h => do
      let inumber ← read fun s => (s.openFileTable h).ofInumber
      match inodeGet inumber with
      | none => pure (-1, [])
      | some i => do
          let inumber ← read fun s => (s.openFileTable h).ofInumber
          lock (inodeLockGet inumber)
          clampOffset h i
          let size ← read fun s => (s.inodeTable i).iSize
          let offset ← read fun s => (s.openFileTable h).ofOffset
          let toRead := readCount size offset len
          let offset ← read fun s => (s.openFileTable h).ofOffset
          -- `i_data_block[index]` at a negative index
          if blockIndex offset < 0 ∧ 0 < toRead then
            Guarded.undefined
          else do
            let r ← readBlocks h i toRead (blockIndex offset).toNat
            unlock (inodeLockGet inumber)
            pure r

/-! ## The functions of the library -/

def body : Call → Program Reply
  | .open name flags => do
      let r ← tfsOpen name flags
      pure ⟨r, []⟩
  | .close fhandle => do
      let r ← removeFromOpenFileTable fhandle
      pure ⟨r, []⟩
  | .write fhandle buffer len => do
      let r ← tfsWrite fhandle buffer len
      pure ⟨r, []⟩
  | .read fhandle len => do
      let x ← tfsRead fhandle len
      pure ⟨x.1, x.2⟩

/-! ## Running alone -/

section Run

variable {s : State} {h i n : ℕ} {a : ℕ}

theorem run_onDisk {ρ : Type} {c : Code Disk ρ} :
    (onDisk c).run s = (c.run s.disk).map fun x => (x.1, s.setDisk x.2) := by
  rw [onDisk, Guarded.run_plain]
  exact Code.run_within (by intro d s; rfl) (by intro s; rfl) (by intro d d' s; rfl) s

@[simp] theorem run_read {ρ : Type} {f : State → ρ} : (read f).run s = some (f s, s) :=
  rfl

@[simp] theorem run_write {f : State → State} : (write f).run s = some ((), f s) :=
  rfl

@[simp] theorem run_lock {l : Option LockName} : (lock l).run s = some ((), s) :=
  rfl

@[simp] theorem run_unlock {l : Option LockName} : (unlock l).run s = some ((), s) :=
  rfl

@[simp] theorem run_setSize {size : ℕ} :
    (setSize i size).run s = some ((), s.setInode i { s.inodeTable i with iSize := size }) :=
  rfl

/-- The scan that the allocators share. -/
theorem run_scan_firstFree (l : LockName) (table : State → ℕ → AllocationState) {take : ℕ → Code State Unit} :
    (Guarded.scan l (fun i => Code.read fun s => decide (table s i = .free)) take 0 n).run s =
      (firstFree (table s) n).elim (some (none, s)) fun k => ((take k).run s).map fun x => (some k, x.2) := by
  rw [Guarded.run_scan (fun _ => Code.run_read), ← List.range_eq_range', firstFree]

theorem run_dataBlockAlloc :
    dataBlockAlloc.run s = some (s.disk.dataBlockAlloc.1, s.setDisk s.disk.dataBlockAlloc.2) := by
  unfold dataBlockAlloc Disk.dataBlockAlloc
  rw [Guarded.run_bind, run_scan_firstFree .freeBlocks fun s => s.disk.freeBlocks]
  rcases firstFree s.disk.freeBlocks dataBlocks with _ | i
  · rfl
  · rfl

theorem run_freeDirect (node : Inode) (n : ℕ) : ∀ (k : ℕ) (d : Disk),
    (freeDirect node k n).run d = some (Tfs.freeDirect node (List.range' k n) d) := by
  induction n with
  | zero => exact fun _ _ => rfl
  | succ n ih =>
      intro k d
      rw [List.range'_succ, freeDirect, Tfs.freeDirect]
      by_cases hempty : node.iDataBlock k = -1
      · rw [if_pos hempty, if_pos hempty, ih]
      · rw [if_neg hempty, if_neg hempty, Code.run_bind, Disk.run_freeBlock, Option.bind_some]
        rcases d.dataBlockFree (node.iDataBlock k) with ⟨r, d⟩
        by_cases hr : r = -1
        · simp [hr]
        · simp [hr, ih]

theorem run_freeIndirect (a n : ℕ) : ∀ (k : ℕ) (d : Disk),
    (freeIndirect a k n).run d = some (Tfs.freeIndirect a (List.range' k n) d) := by
  induction n with
  | zero => exact fun _ _ => rfl
  | succ n ih =>
      intro k d
      rw [List.range'_succ, freeIndirect, Tfs.freeIndirect, Code.run_bind, Code.run_read, Option.bind_some]
      by_cases hempty : indexEntry d.fsData a k = -1
      · rw [if_pos hempty, if_pos hempty, ih]
      · rw [if_neg hempty, if_neg hempty, Code.run_bind, Code.run_read, Option.bind_some, Code.run_bind,
          Disk.run_freeBlock, Option.bind_some]
        rcases d.dataBlockFree (indexEntry d.fsData a k) with ⟨r, d⟩
        by_cases hr : r = -1
        · simp [hr]
        · simp [hr, ih, Disk.setData]

theorem run_inodeDatablocksErase (node : Inode) (d : Disk) :
    (inodeDatablocksErase node).run d = some (Tfs.inodeDatablocksErase node d) := by
  unfold inodeDatablocksErase Tfs.inodeDatablocksErase
  rw [Code.run_bind, run_freeDirect, ← List.range_eq_range', Option.bind_some]
  rcases Tfs.freeDirect node (List.range directBlocksQuantity) d with ⟨r, d⟩
  by_cases hr : r = -1
  · simp [hr]
  · simp only [if_neg hr]
    rcases dataBlockGet node.iIndexBlock with _ | a
    · rfl
    · exact (run_freeIndirect a indexEntries 0 d).trans (by rw [← List.range_eq_range'])

theorem run_createFile :
    (createFile i).run s = some (
      let t := (s.setDisk s.disk.dataBlockAlloc.2).setInode i ⟨.file, 0, fun _ => -1, s.disk.dataBlockAlloc.1⟩
      match dataBlockGet s.disk.dataBlockAlloc.1 with
      | none => (-1, t)
      | some a => (↑i, t.setData (fillIndexBlock t.disk.fsData a))) := by
  simp only [createFile, Guarded.run_bind, run_write, run_setSize, run_dataBlockAlloc, run_read,
    Option.bind_some, State.setInode_disk]
  rcases s.disk.dataBlockAlloc with ⟨b, d⟩
  rcases hget : dataBlockGet b with _ | a
  · simp [State.setInode, State.setDisk, hget]
  · simp [State.setInode, State.setDisk, State.setData, hget, run_onDisk, Disk.run_copyIn, fillIndexBlock,
      Disk.setData]

theorem run_inodeCreate : inodeCreate.run s = some (Tfs.inodeCreate .file s) := by
  unfold inodeCreate Tfs.inodeCreate
  rw [Guarded.run_bind, run_scan_firstFree .freeinodeTs State.freeinodeTs]
  rcases firstFree s.freeinodeTs inodeTableSize with _ | i
  · rfl
  · -- the scan leaves the entry taken, and the i-node is filled behind it
    have hcreate := run_createFile (s := s.markInode i .taken) (i := i)
    simp only [Option.elim, Code.run_write, Option.map_some, Option.bind_some]
    refine hcreate.trans ?_
    rcases (s.markInode i .taken).disk.dataBlockAlloc with ⟨b, d⟩
    rfl

theorem run_deleteTaken (inumber : ℤ) : (deleteTaken inumber).run s = some (
    let t := s.markInode inumber.toNat .free
    let (r, d) := Tfs.inodeDatablocksErase (t.inodeTable inumber.toNat) t.disk
    if r ≠ 0 then
      (-1, t.setDisk d)
    else
      let (r, d) := d.dataBlockFree (t.inodeTable inumber.toNat).iIndexBlock
      (if r ≠ 0 then -1 else 0, t.setDisk d)) := by
  simp only [deleteTaken, Guarded.run_bind, run_write, run_read, Option.bind_some, run_onDisk,
    run_inodeDatablocksErase, Option.map_some]
  rcases Tfs.inodeDatablocksErase _ _ with ⟨r, d⟩
  by_cases hr : r = 0
  · simp [hr, run_onDisk, Disk.run_freeBlock, State.setDisk]
  · simp [hr]

theorem run_inodeDelete (inumber : ℤ) : (inodeDelete inumber).run s = some (Tfs.inodeDelete inumber s) := by
  unfold inodeDelete Tfs.inodeDelete
  rw [Guarded.run_bind, run_lock, Option.bind_some]
  by_cases hvalid : validInumber inumber = true
  · by_cases hfree : s.freeinodeTs inumber.toNat = .free
    · simp [hvalid, hfree]
    · simp [hvalid, hfree, run_deleteTaken]
  · simp [hvalid]

theorem run_insertEntry (inumber subInumber : ℤ) (name : CString) :
    (insertEntry inumber subInumber name).run s = some (
      match dataBlockGet ((s.inodeTable inumber.toNat).iDataBlock 0) with
      | none => (-1, s)
      | some dir =>
          match emptyEntry s.disk.fsData dir with
          | none => (-1, s)
          | some k => (0, s.setData (fillEntry s.disk.fsData dir k subInumber name))) := by
  simp only [insertEntry, Guarded.run_bind, run_lock, run_read, Option.bind_some]
  rcases dataBlockGet ((s.inodeTable inumber.toNat).iDataBlock 0) with _ | dir
  · rfl
  · simp only [Guarded.run_bind, run_onDisk, Disk.run_addEntry, Option.map_some, Option.bind_some]
    rcases emptyEntry s.disk.fsData dir with _ | k
    · rfl
    · rfl

theorem run_addDirEntry (inumber subInumber : ℤ) (subName : Option CString) :
    (addDirEntry inumber subInumber subName).run s = Tfs.addDirEntry inumber subInumber subName s := by
  unfold addDirEntry Tfs.addDirEntry
  by_cases hvalid : (!validInumber inumber || !validInumber subInumber) = true
  · rw [if_pos hvalid, if_pos hvalid]
    rfl
  rw [if_neg hvalid, if_neg hvalid, Guarded.run_bind, run_read, Option.bind_some]
  by_cases htype : (s.inodeTable inumber.toNat).iNodeType ≠ .directory
  · rw [if_pos htype, if_pos htype]
    rfl
  rw [if_neg htype, if_neg htype]
  rcases subName with _ | name
  · rfl
  by_cases hlen : name.strlen = 0
  · simp only [if_pos hlen]
    rfl
  simp only [if_neg hlen, run_insertEntry]
  rcases dataBlockGet ((s.inodeTable inumber.toNat).iDataBlock 0) with _ | dir
  · rfl
  · rcases hentry : emptyEntry s.disk.fsData dir with _ | k
    · simp [hentry]
    · simp [hentry]

theorem run_lookUp (inumber : ℤ) (subName : CString) :
    (lookUp inumber subName).run s = some (
      match dataBlockGet ((s.inodeTable inumber.toNat).iDataBlock 0) with
      | none => -1
      | some dir =>
          match searchEntry s.disk.fsData dir subName with
          | none => -1
          | some k => dInumber s.disk.fsData dir k, s) := by
  simp only [lookUp, Guarded.run_bind, run_lock, run_read, Option.bind_some]
  rcases dataBlockGet ((s.inodeTable inumber.toNat).iDataBlock 0) with _ | dir
  · rfl
  · simp only [Guarded.run_bind, run_onDisk, Disk.run_findEntry, Option.map_some, Option.bind_some, run_unlock]
    rcases searchEntry s.disk.fsData dir subName with _ | k
    · rfl
    · rfl

theorem run_findInDir (inumber : ℤ) (subName : CString) :
    (findInDir inumber subName).run s = some (Tfs.findInDir inumber subName s, s) := by
  unfold findInDir Tfs.findInDir
  by_cases hvalid : validInumber inumber = true
  · by_cases htype : (s.inodeTable inumber.toNat).iNodeType = .directory
    · -- the source tests the number and the type at once; the type is read behind the first test
      have hinvalid : ¬ (!validInumber inumber) = true := by simp [hvalid]
      have hcheck : ¬ (!validInumber inumber ||
          decide ((s.inodeTable inumber.toNat).iNodeType ≠ .directory)) = true := by
        simp [hvalid, htype]
      rw [if_neg hinvalid, Guarded.run_bind, run_read, Option.bind_some, if_neg (not_not.2 htype)]
      refine (run_lookUp inumber subName).trans ?_
      exact congrArg (fun z => some (z, s)) (if_neg hcheck).symm
    · simp [hvalid, htype]
  · simp [hvalid]

theorem run_addToOpenFileTable (inumber : ℤ) (offset : ℕ) (appendFlag : ℤ) :
    (addToOpenFileTable inumber offset appendFlag).run s =
      some (Tfs.addToOpenFileTable inumber offset appendFlag s) := by
  unfold addToOpenFileTable Tfs.addToOpenFileTable
  rw [Guarded.run_bind, run_scan_firstFree .openFileTable State.freeOpenFileEntries]
  rcases firstFree s.freeOpenFileEntries maxOpenFiles with _ | i
  · rfl
  · simp [fillHandle, setOffset, State.setEntry, State.markHandle, indexOrMinusOne]

theorem run_removeFromOpenFileTable (fhandle : ℤ) :
    (removeFromOpenFileTable fhandle).run s = some (Tfs.removeFromOpenFileTable fhandle s) := by
  unfold removeFromOpenFileTable Tfs.removeFromOpenFileTable
  by_cases hvalid : validFileHandle fhandle = true
  · by_cases htaken : s.freeOpenFileEntries fhandle.toNat = .taken
    · simp [hvalid, htaken]
    · simp [hvalid, htaken]
  · simp [hvalid]

/-! ### Open -/

theorem run_tfsLookup (name : Path) : (tfsLookup name).run s = some (Tfs.tfsLookup name s, s) := by
  rcases name with _ | p
  · rfl
  · by_cases hvalid : validPathname (some p) = true
    · simp [tfsLookup, Tfs.tfsLookup, hvalid, run_findInDir]
    · simp [tfsLookup, Tfs.tfsLookup, hvalid]

theorem run_truncate (flags : ℤ) : (truncate i flags).run s = some (truncateFile flags i s) := by
  unfold truncate truncateFile
  by_cases hflag : hasFlag flags tfsOTrunc = true
  · by_cases hsize : 0 < (s.inodeTable i).iSize
    · by_cases hr : (Tfs.inodeDatablocksErase (s.inodeTable i) s.disk).1 = -1
      · simp [hflag, hsize, run_onDisk, run_inodeDatablocksErase, hr]
      · simp [hflag, hsize, run_onDisk, run_inodeDatablocksErase, hr]
    · simp [hflag, hsize]
  · simp [hflag]

theorem run_openExisting (inum flags : ℤ) :
    (openExisting inum flags).run s = some (Tfs.openExisting inum flags s) := by
  unfold openExisting Tfs.openExisting
  rw [Guarded.run_bind, run_lock, Option.bind_some]
  rcases inodeGet inum with _ | i
  · rfl
  · -- the branch behind `inode_get`, with its first part named
    change _ = some (
      if (truncateFile flags i s).1 = -1 then
        (-1, (truncateFile flags i s).2)
      else if hasFlag flags tfsOAppend then
        Tfs.addToOpenFileTable inum ((truncateFile flags i s).2.inodeTable i).iSize 1 (truncateFile flags i s).2
      else
        Tfs.addToOpenFileTable inum 0 0 (truncateFile flags i s).2)
    simp only [Guarded.run_bind, run_truncate, Option.bind_some]
    rcases truncateFile flags i s with ⟨r, t⟩
    by_cases hr : r = -1
    · simp [hr]
    · by_cases happend : hasFlag flags tfsOAppend = true
      · simp [hr, happend, run_addToOpenFileTable]
      · simp [hr, happend, run_addToOpenFileTable]

theorem run_openCreate (name : Path) : (openCreate name).run s = Tfs.openCreate name s := by
  unfold openCreate Tfs.openCreate
  simp only [Guarded.run_bind, run_inodeCreate, Option.bind_some, run_lock]
  rcases Tfs.inodeCreate .file s with ⟨inum, t⟩
  by_cases hinum : inum = -1
  · simp [hinum]
  · simp only [if_neg hinum, Guarded.run_bind, run_addDirEntry]
    rcases Tfs.addDirEntry rootDirInum inum (afterSlash name) t with _ | ⟨r, u⟩
    · rfl
    · by_cases hr : r = -1
      · simp [hr, run_inodeDelete]
      · simp [hr, run_addToOpenFileTable]

theorem run_tfsOpen (name : Path) (flags : ℤ) : (tfsOpen name flags).run s = Tfs.tfsOpen name flags s := by
  unfold tfsOpen Tfs.tfsOpen
  by_cases hvalid : validPathname name = true
  · simp only [hvalid, Bool.not_true, Bool.false_eq_true, if_false, Guarded.run_bind, run_tfsLookup,
      Option.bind_some]
    by_cases hfound : Tfs.tfsLookup name s ≥ 0
    · simp only [if_pos hfound, run_openExisting]
    · by_cases hcreat : hasFlag flags tfsOCreat = true
      · simp only [if_neg hfound, if_pos hcreat, run_openCreate]
      · simp only [if_neg hfound, if_neg hcreat, Guarded.run_pure]
  · simp [hvalid]

/-! ### Write -/

/-- The end of a loop of `tfs_write`, and the state that it leaves. -/
def writeOutcome : WriteEnd → LoopEnd ℕ × State
  | .noBlock writen s => (.noBlock writen, s)
  | .done index writen s => (.done index writen, s)

/-- A row of block numbers outside the open file table. -/
def KeepsEntries (slots : BlockSlots) : Prop :=
  ∀ s k b, (slots.set s k b).openFileTable = s.openFileTable

theorem run_allocSlot (slots : BlockSlots) (index : ℕ) :
    (allocSlot slots index).run s = some ((), Tfs.allocSlot slots index s) := by
  unfold allocSlot Tfs.allocSlot
  by_cases hempty : slots.get s index = -1
  · simp [hempty, run_dataBlockAlloc]
  · simp [hempty]

theorem openFileTable_allocSlot {slots : BlockSlots} (hslots : KeepsEntries slots) (index : ℕ) :
    (Tfs.allocSlot slots index s).openFileTable = s.openFileTable := by
  unfold Tfs.allocSlot
  split
  · rcases s.disk.dataBlockAlloc with ⟨b, d⟩
    exact hslots (s.setDisk d) index b
  · rfl

/-- What a loop moves in one turn stays in its block, and so in `fs_data`. -/
theorem not_fsDataEnd_lt {block offset : ℕ} {b : ℤ} (hget : dataBlockGet b = some block)
    (hn : n ≤ blockSize - offset % blockSize) : ¬ block + offset % blockSize + n > fsDataEnd := by
  rcases dataBlockGet_eq_some_iff.1 hget with ⟨k, hk, _, rfl⟩
  have hmod : offset % blockSize < 1024 := Nat.mod_lt _ (by decide)
  have hend : fsDataEnd = 1024 * 1024 := rfl
  have hblock : blockSize = 1024 := rfl
  omega

theorem run_store {block offset : ℕ} {b : ℤ} {src : ℕ → Byte} (hget : dataBlockGet b = some block)
    (hn : n ≤ blockSize - offset % blockSize) : (store (block + offset % blockSize) src n).run s =
      some ((), s.setData (memcpy s.disk.fsData (block + offset % blockSize) src n)) := by
  rw [store, if_neg (not_fsDataEnd_lt hget hn), run_onDisk, Disk.run_copyIn]
  rfl

theorem writeInBlock_le {offset toWrite writen : ℕ} :
    writeInBlock offset toWrite writen ≤ blockSize - offset % blockSize := by
  unfold writeInBlock
  split
  · next h => exact Nat.le_of_lt h
  · exact Nat.le_refl _

theorem run_writeLoop {slots : BlockSlots} (hslots : KeepsEntries slots) (buffer : ℕ → Byte) (toWrite : ℕ)
    (left : ℕ) : ∀ (index writen : ℕ) (s : State),
    (writeLoop slots h buffer toWrite left index writen).run s =
      some (writeOutcome (Tfs.writeLoop slots h buffer toWrite left index writen s)) := by
  induction left with
  | zero => exact fun _ _ _ => rfl
  | succ left ih =>
      intro index writen s
      rw [writeLoop, Tfs.writeLoop]
      by_cases hmore : writen < toWrite
      · rw [if_pos hmore, if_pos hmore]
        simp only [Guarded.run_bind, run_read, Option.bind_some, run_allocSlot]
        -- the offset is read three times in a turn, and taking a block does not change it
        have htable := openFileTable_allocSlot (s := s) hslots index
        generalize Tfs.allocSlot slots index s = t at htable
        rcases hget : dataBlockGet (slots.get t index) with _ | block
        · rfl
        · simp only [Guarded.run_bind, run_read, Option.bind_some, htable,
            run_store hget writeInBlock_le, Guarded.run_plain, setOffset, Code.run_write, ih]
          simp [htable]
      · rw [if_neg hmore, if_neg hmore]
        rfl

theorem run_growFile : (growFile h i).run s = some ((),
    if (s.inodeTable i).iSize < (s.openFileTable h).ofOffset then
      s.setInode i { s.inodeTable i with iSize := (s.openFileTable h).ofOffset }
    else s) := by
  unfold growFile
  by_cases hgrow : (s.inodeTable i).iSize < (s.openFileTable h).ofOffset
  · simp [hgrow]
  · simp [hgrow]

theorem keepsEntries_directSlots : KeepsEntries (directSlots i) :=
  fun _ _ _ => rfl

theorem keepsEntries_indexSlots : KeepsEntries (indexSlots a) :=
  fun _ _ _ => rfl

theorem run_writeBlocks (buffer : ℕ → Byte) (toWrite index : ℕ) :
    (writeBlocks h i buffer toWrite index).run s = some (Tfs.writeBlocks h i buffer toWrite index s) := by
  unfold writeBlocks Tfs.writeBlocks
  rw [Guarded.run_bind, run_writeLoop keepsEntries_directSlots, Option.bind_some]
  rcases Tfs.writeLoop (directSlots i) h buffer toWrite (directBlocksQuantity - index) index 0 s with
    ⟨writen, t⟩ | ⟨index, writen, t⟩
  · rfl
  · simp only [writeOutcome, Guarded.run_bind, run_read, Option.bind_some]
    rcases dataBlockGet (t.inodeTable i).iIndexBlock with _ | a
    · rfl
    · simp only [Guarded.run_bind, run_writeLoop keepsEntries_indexSlots, Option.bind_some]
      rcases Tfs.writeLoop (indexSlots a) h buffer toWrite (indexEntries - indirectIndex index)
        (indirectIndex index) writen t with ⟨writen, u⟩ | ⟨_, writen, u⟩
      · rfl
      · simp only [writeOutcome, Guarded.run_bind, run_growFile, Option.bind_some, Guarded.run_pure]
        split
        · rfl
        · rfl

theorem run_seekForAppend : (seekForAppend h i).run s = some ((), Tfs.seekForAppend h i s) := by
  unfold seekForAppend Tfs.seekForAppend
  by_cases hflag : (s.openFileTable h).ofAppendFlag = 1
  · simp [hflag, setOffset]
  · simp [hflag]

theorem run_tfsWrite (fhandle : ℤ) (buffer : ℕ → Byte) (toWrite : ℕ) :
    (tfsWrite fhandle buffer toWrite).run s = Tfs.tfsWrite fhandle buffer toWrite s := by
  unfold tfsWrite Tfs.tfsWrite
  rcases getOpenFileEntry fhandle with _ | h
  · rfl
  by_cases hneg : castInt toWrite < 0
  · simp only [if_pos hneg]
    rfl
  simp only [if_neg hneg, Guarded.run_bind, run_read, Option.bind_some]
  rcases inodeGet (s.openFileTable h).ofInumber with _ | i
  · rfl
  simp only [Guarded.run_bind, run_seekForAppend, run_read, Option.bind_some, run_lock]
  generalize Tfs.seekForAppend h i s = t
  by_cases hindex : blockIndex (t.openFileTable h).ofOffset < 0 ∧ 0 < toWrite
  · simp only [if_pos hindex, Guarded.run_undefined]
  · simp only [if_neg hindex, Guarded.run_bind, run_writeBlocks, Option.bind_some, run_unlock,
      Guarded.run_pure]

/-! ### Read -/

/-- The end of a loop of `tfs_read`, and the state that it leaves. -/
def readOutcome : ReadEnd → LoopEnd (List Byte) × State
  | .noBlock out s => (.noBlock out, s)
  | .done index out s => (.done index out, s)

theorem run_load {block offset : ℕ} {b : ℤ} (hget : dataBlockGet b = some block)
    (hn : n ≤ blockSize - offset % blockSize) : (load (block + offset % blockSize) n).run s =
      some (memread s.disk.fsData (block + offset % blockSize) n, s) := by
  rw [load, if_neg (not_fsDataEnd_lt hget hn), run_onDisk, Disk.run_copyOut, Option.map_some, Nat.add_zero]
  rfl

theorem readInBlock_le {offset bound : ℕ} : readInBlock offset bound ≤ blockSize - offset % blockSize := by
  unfold readInBlock
  split
  · next h => exact Nat.le_of_lt h
  · exact Nat.le_refl _

theorem run_readLoop (slots : BlockSlots) (bound : ℕ → ℕ) (toRead left : ℕ) :
    ∀ (index : ℕ) (out : List Byte) (s : State),
    (readLoop slots bound h toRead left index out).run s =
      some (readOutcome (Tfs.readLoop slots bound h toRead left index out s)) := by
  induction left with
  | zero => exact fun _ _ _ => rfl
  | succ left ih =>
      intro index out s
      rw [readLoop, Tfs.readLoop]
      by_cases hmore : out.length < toRead
      · rw [if_pos hmore, if_pos hmore]
        simp only [Guarded.run_bind, run_read, Option.bind_some]
        rcases hget : dataBlockGet (slots.get s index) with _ | block
        · rfl
        · simp only [Guarded.run_bind, run_read, Option.bind_some, run_load hget readInBlock_le,
            Guarded.run_plain, setOffset, Code.run_write, ih]
      · rw [if_neg hmore, if_neg hmore]
        rfl

theorem run_readBlocks (toRead index : ℕ) : (readBlocks h i toRead index).run s =
    some (((Tfs.readBlocks h i toRead index s).1, (Tfs.readBlocks h i toRead index s).2.1),
      (Tfs.readBlocks h i toRead index s).2.2) := by
  unfold readBlocks Tfs.readBlocks
  rw [Guarded.run_bind, run_readLoop, Option.bind_some]
  rcases Tfs.readLoop (directSlots i) (fun read => toRead - read) h toRead (directBlocksQuantity - index)
    index [] s with ⟨out, t⟩ | ⟨index, out, t⟩
  · rfl
  · simp only [readOutcome, Guarded.run_bind, run_read, Option.bind_some]
    rcases dataBlockGet (t.inodeTable i).iIndexBlock with _ | a
    · rfl
    · simp only [Guarded.run_bind, run_readLoop, Option.bind_some]
      rcases Tfs.readLoop (indexSlots a) (fun _ => toRead) h toRead (indexEntries - indirectIndex index)
        (indirectIndex index) out t with ⟨out, u⟩ | ⟨_, out, u⟩
      · rfl
      · rfl

theorem run_clampOffset : (clampOffset h i).run s = some ((), Tfs.clampOffset h i s) := by
  unfold clampOffset Tfs.clampOffset
  by_cases hover : (s.inodeTable i).iSize < (s.openFileTable h).ofOffset
  · simp [hover, setOffset]
  · simp [hover]

theorem run_tfsRead (fhandle : ℤ) (len : ℕ) : (tfsRead fhandle len).run s =
    (Tfs.tfsRead fhandle len s).map fun x => ((x.1, x.2.1), x.2.2) := by
  unfold tfsRead Tfs.tfsRead
  rcases getOpenFileEntry fhandle with _ | h
  · rfl
  simp only [Guarded.run_bind, run_read, Option.bind_some]
  rcases inodeGet (s.openFileTable h).ofInumber with _ | i
  · rfl
  simp only [Guarded.run_bind, run_read, run_lock, run_clampOffset, Option.bind_some]
  generalize Tfs.clampOffset h i s = t
  generalize readCount (t.inodeTable i).iSize (t.openFileTable h).ofOffset len = toRead
  by_cases hindex : blockIndex (t.openFileTable h).ofOffset < 0 ∧ 0 < toRead
  · simp only [if_pos hindex, Guarded.run_undefined, Option.map_none]
  · simp only [if_neg hindex, Guarded.run_bind, run_readBlocks, Option.bind_some, run_unlock,
      Guarded.run_pure, Option.map_some]

/-- A call that runs alone does what the library of calls made one after the other does. -/
theorem run_body (c : Call) : (body c).run s = exec c s := by
  cases c with
  | «open» name flags =>
      simp only [body, exec, Guarded.run_bind, run_tfsOpen]
      rcases Tfs.tfsOpen name flags s with _ | x
      · rfl
      · rfl
  | close fhandle =>
      simp only [body, exec, Guarded.run_bind, run_removeFromOpenFileTable]
      rfl
  | write fhandle buffer len =>
      simp only [body, exec, Guarded.run_bind, run_tfsWrite]
      rcases Tfs.tfsWrite fhandle buffer len s with _ | x
      · rfl
      · rfl
  | read fhandle len =>
      simp only [body, exec, Guarded.run_bind, run_tfsRead]
      rcases Tfs.tfsRead fhandle len s with _ | x
      · rfl
      · rfl

end Run

end Statements

end Tfs
end TecnicoFs
