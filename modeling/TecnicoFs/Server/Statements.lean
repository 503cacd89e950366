import TecnicoFs.Lib.Critical
import TecnicoFs.Server.Operations
import TecnicoFs.Storage.Statements

/-!
# Statements — the library of the server, one memory access at a time

The functions of `state.c` and `operations.c` as programs whose statements access one variable, one array
element or one byte each; what they do to blocks is in `Storage.Statements`.  A loop over a table looks at one
entry in each round.  The local variables of a function are bound names.

Every program, run alone, does what the function of the same name does.
-/

namespace TecnicoFs
namespace Server

open Lib

namespace Statements

/-! ## Blocks -/

/-- A program on the data blocks. -/
def onDisk {ρ : Type} (c : Code Disk ρ) : Code State ρ :=
  c.within State.disk fun d s => s.setDisk d

def dataBlockAlloc : Code State ℤ :=
  Code.search
    (fun i => Code.read fun s => decide (s.disk.freeBlocks i = .free))
    (fun i => do
      Code.write fun s => s.setDisk (s.disk.markBlock i .taken)
      pure (i : ℤ))
    (pure (-1)) 0 dataBlocks

def dataBlockFree (blockNumber : ℤ) : Code State ℤ :=
  onDisk (Disk.freeBlock blockNumber)

/-! ## I-nodes -/

def setSize (i size : ℕ) : Code State Unit :=
  Code.write fun s => s.setInode i { s.inodeTable i with iSize := size }

def setDataBlock (i : ℕ) (b : ℤ) : Code State Unit :=
  Code.write fun s => s.setInode i { s.inodeTable i with iDataBlock := b }

/-- The branch of `inode_create` for a directory, whose i-node `i` has its type. -/
def createDirectory (i : ℕ) : Code State ℤ := do
  let b ← dataBlockAlloc
  if b = -1 then do
    Code.write fun s => s.markInode i .free
    pure (-1)
  else do
    setSize i blockSize
    setDataBlock i b
    match dataBlockGet b with
    | none => do
        Code.write fun s => s.markInode i .free
        pure (-1)
    | some dir => do
        onDisk (Code.forEach (fun k => Disk.setInumber dir k (-1)) 0 maxDirEntries)
        pure (i : ℤ)

/-- The branch of `inode_create` for a file. -/
def createFile (i : ℕ) : Code State ℤ := do
  setSize i 0
  setDataBlock i (-1)
  pure (i : ℤ)

def inodeCreate (nType : InodeType) : Code State ℤ :=
  Code.search
    (fun i => Code.read fun s => decide (s.freeinodeTs i = .free))
    (fun i => do
      Code.write fun s => s.markInode i .taken
      Code.write fun s => s.setInode i { s.inodeTable i with iNodeType := nType }
      match nType with
      | .directory => createDirectory i
      | .file => createFile i)
    (pure (-1)) 0 inodeTableSize

def inodeDelete (inumber : ℤ) : Code State ℤ :=
  if !validInumber inumber then
    pure (-1)
  else do
    let a ← Code.read fun s => s.freeinodeTs inumber.toNat
    if a = .free then
      pure (-1)
    else do
      Code.write fun s => s.markInode inumber.toNat .free
      let node ← Code.read fun s => s.inodeTable inumber.toNat
      if node.iSize > 0 then do
        let r ← dataBlockFree node.iDataBlock
        pure (if r = -1 then -1 else 0)
      else
        pure 0

/-! ## Directory entries -/

def addDirEntry (inumber subInumber : ℤ) (subName : Option CString) : Code State ℤ :=
  if !validInumber inumber || !validInumber subInumber then
    pure (-1)
  else do
    let node ← Code.read fun s => s.inodeTable inumber.toNat
    if node.iNodeType ≠ .directory then
      pure (-1)
    else
      match subName with
      | none => Code.undefined
      | some name =>
          if name.strlen = 0 then
            pure (-1)
          else
            match dataBlockGet node.iDataBlock with
            | none => pure (-1)
            | some dir => onDisk (Disk.addEntry dir subInumber name)

def findInDir (inumber : ℤ) (subName : CString) : Code State ℤ :=
  if !validInumber inumber then
    pure (-1)
  else do
    let node ← Code.read fun s => s.inodeTable inumber.toNat
    if node.iNodeType ≠ .directory then
      pure (-1)
    else
      match dataBlockGet node.iDataBlock with
      | none => pure (-1)
      | some dir => do
          let k ← onDisk (Disk.findEntry dir subName)
          match k with
          | none => pure (-1)
          | some i => onDisk (Disk.inumberAt dir i)

/-! ## The open file table -/

def setOffset (h offset : ℕ) : Code State Unit :=
  Code.write fun s => s.setEntry h { s.openFileTable h with ofOffset := offset }

def addToOpenFileTable (inumber : ℤ) (offset : ℕ) : Code State ℤ :=
  Code.search
    (fun i => Code.read fun s => decide (s.freeOpenFileEntries i = .free))
    (fun i => do
      Code.write fun s => s.markHandle i .taken
      Code.write fun s => s.setEntry i { s.openFileTable i with ofInumber := inumber }
      setOffset i offset
      Code.write fun s => { s with openFilesNumber := s.openFilesNumber + 1 }
      pure (i : ℤ))
    (pure (-1)) 0 maxOpenFiles

def removeFromOpenFileTable (fhandle : ℤ) : Code State ℤ :=
  if !validFileHandle fhandle then
    pure (-1)
  else do
    let a ← Code.read fun s => s.freeOpenFileEntries fhandle.toNat
    if a ≠ .taken then
      pure (-1)
    else do
      Code.write fun s => s.markHandle fhandle.toNat .free
      Code.write fun s => { s with openFilesNumber := s.openFilesNumber - 1 }
      pure 0

/-! ## Operations -/

def tfsLookupUnsynchronized (name : Path) : Code State ℤ :=
  match name with
  | none => pure (-1)
  | some p => if validPathname name then findInDir rootDirInum p.tail else pure (-1)

/-- "Truncate (if requested)" -/
def truncate (i : ℕ) (flags : ℤ) : Code State ℤ :=
  if hasFlag flags tfsOTrunc then do
    let node ← Code.read fun s => s.inodeTable i
    if node.iSize > 0 then do
      let r ← dataBlockFree node.iDataBlock
      if r = -1 then
        pure r
      else do
        setSize i 0
        pure r
    else
      pure 0
  else
    pure 0

/-- The branch of `_tfs_open_unsynchronized` for a name that was found. -/
def openExisting (inum flags : ℤ) : Code State ℤ :=
  match inodeGet inum with
  | none => pure (-1)
  | some i => do
      let r ← truncate i flags
      if r = -1 then
        pure (-1)
      else if hasFlag flags tfsOAppend then do
        let offset ← Code.read fun s => (s.inodeTable i).iSize
        addToOpenFileTable inum offset
      else
        addToOpenFileTable inum 0

/-- The branch of `_tfs_open_unsynchronized` that creates the file. -/
def openCreate (name : Path) : Code State ℤ := do
  let inum ← inodeCreate .file
  if inum = -1 then
    pure (-1)
  else do
    let r ← addDirEntry rootDirInum inum (afterSlash name)
    if r = -1 then do
      let _ ← inodeDelete inum
      pure (-1)
    else
      addToOpenFileTable inum 0

def tfsOpenUnsynchronized (name : Path) (flags : ℤ) : Code State ℤ := do
  let inum ← tfsLookupUnsynchronized name
  if inum ≥ 0 then
    openExisting inum flags
  else if hasFlag flags tfsOCreat then
    openCreate name
  else
    pure (-1)

/-- The body of `tfs_close`; the signal to a thread that waits to destroy the file system changes no
variable. -/
def tfsClose (fhandle : ℤ) : Code State ℤ := do
  let r ← removeFromOpenFileTable fhandle
  let _ ← Code.read getOpenFilesNumber
  pure r

/-- "If empty file, allocate new block" -/
def allocIfEmpty (i : ℕ) : Code State Unit := do
  let size ← Code.read fun s => (s.inodeTable i).iSize
  if size = 0 then do
    let b ← dataBlockAlloc
    setDataBlock i b
  else
    pure ()

/-- The copy of `_tfs_write_unsynchronized`, and its updates of offset and size. -/
def storeBytes (h i block : ℕ) (buffer : ℕ → Byte) (toWrite : ℕ) : Code State Unit := do
  let offset ← Code.read fun s => (s.openFileTable h).ofOffset
  onDisk (Disk.copyIn (block + offset) buffer toWrite)
  setOffset h (sizeAdd offset toWrite)
  let size ← Code.read fun s => (s.inodeTable i).iSize
  if sizeAdd offset toWrite > size then
    setSize i (sizeAdd offset toWrite)
  else
    pure ()

def tfsWriteUnsynchronized (fhandle : ℤ) (buffer : ℕ → Byte) (toWrite : ℕ) : Code State ℤ :=
  match getOpenFileEntry fhandle with
  | none => pure (-1)
  | some h => do
      let inumber ← Code.read fun s => (s.openFileTable h).ofInumber
      match inodeGet inumber with
      | none => pure (-1)
      | some i => do
          let offset ← Code.read fun s => (s.openFileTable h).ofOffset
          if writeCount offset toWrite > 0 then do
            allocIfEmpty i
            let b ← Code.read fun s => (s.inodeTable i).iDataBlock
            match dataBlockGet b with
            | none => pure (-1)
            | some block =>
                -- the `memcpy` would leave `fs_data`
                if block + offset + writeCount offset toWrite > fsDataSize then
                  Code.undefined
                else do
                  storeBytes h i block buffer (writeCount offset toWrite)
                  pure (castLong (writeCount offset toWrite))
          else
            pure (castLong (writeCount offset toWrite))

def tfsReadUnsynchronized (fhandle : ℤ) (len : ℕ) : Code State (ℤ × List Byte) :=
  match getOpenFileEntry fhandle with
  | none => pure (-1, [])
  | some h => do
      let inumber ← Code.read fun s => (s.openFileTable h).ofInumber
      match inodeGet inumber with
      | none => pure (-1, [])
      | some i => do
          let size ← Code.read fun s => (s.inodeTable i).iSize
          let offset ← Code.read fun s => (s.openFileTable h).ofOffset
          if readCount size offset len > 0 then do
            let b ← Code.read fun s => (s.inodeTable i).iDataBlock
            match dataBlockGet b with
            | none => pure (-1, [])
            | some block =>
                -- the `memcpy` would leave `fs_data`
                if block + offset + readCount size offset len > fsDataSize then
                  Code.undefined
                else do
                  let bytes ← onDisk (Disk.copyOut (block + offset) 0 (readCount size offset len))
                  setOffset h (sizeAdd offset (readCount size offset len))
                  pure (castLong (readCount size offset len), bytes)
          else
            pure (castLong (readCount size offset len), [])

/-! ## The functions of the library -/

/-- `tfs_open` reads `state_closing` before it takes the lock. -/
def early : Call → State → Option Reply
  | .open _ _, s => if stateClosingStatus s then some ⟨-1, []⟩ else none
  | _, _ => none

def body : Call → Code State Reply
  | .open name flags => do
      let r ← tfsOpenUnsynchronized name flags
      pure ⟨r, []⟩
  | .close fhandle => do
      let r ← tfsClose fhandle
      pure ⟨r, []⟩
  | .write fhandle buffer len => do
      let r ← tfsWriteUnsynchronized fhandle buffer len
      pure ⟨r, []⟩
  | .read fhandle len => do
      let x ← tfsReadUnsynchronized fhandle len
      pure ⟨x.1, x.2⟩

/-- `single_global_lock` and the functions that take it. -/
def lockedLibrary : Locked State Call Reply where
  early := early
  body := body

/-! ## Running alone -/

section Run

variable {s t : State} {r : ℤ} {dst a b i h n k : ℕ} {src : ℕ → Byte}

theorem run_onDisk {ρ : Type} {c : Code Disk ρ} :
    (onDisk c).run s = (c.run s.disk).map fun x => (x.1, s.setDisk x.2) :=
  Code.run_within (by intro d s; rfl) (by intro s; rfl) (by intro d d' s; rfl) s

theorem run_copyIn : (onDisk (Disk.copyIn dst src n)).run s =
    some ((), s.setData (memcpy s.disk.fsData dst src n)) := by
  rw [run_onDisk, Disk.run_copyIn]
  rfl

theorem run_copyOut : (onDisk (Disk.copyOut a 0 n)).run s = some (memread s.disk.fsData a n, s) := by
  rw [run_onDisk, Disk.run_copyOut, Nat.add_zero]
  rfl

/-- The loop that the allocators share. -/
theorem run_search_firstFree (table : State → ℕ → AllocationState) {found : ℕ → Code State ℤ}
    {missing : Code State ℤ} :
    (Code.search (fun i => Code.read fun s => decide (table s i = .free)) found missing 0 n).run s =
      (firstFree (table s) n).elim (missing.run s) fun i => (found i).run s := by
  rw [Code.run_search (fun _ => Code.run_read), ← List.range_eq_range', firstFree]

theorem run_dataBlockAlloc :
    dataBlockAlloc.run s = some (s.disk.dataBlockAlloc.1, s.setDisk s.disk.dataBlockAlloc.2) := by
  unfold dataBlockAlloc Disk.dataBlockAlloc
  rw [run_search_firstFree fun s => s.disk.freeBlocks]
  rcases firstFree s.disk.freeBlocks dataBlocks with _ | i
  · rfl
  · rfl

theorem run_dataBlockFree (z : ℤ) : (dataBlockFree z).run s =
    some ((s.disk.dataBlockFree z).1, s.setDisk (s.disk.dataBlockFree z).2) := by
  rw [dataBlockFree, run_onDisk, Disk.run_freeBlock]
  rfl

theorem run_createFile :
    (createFile i).run s = some
      (↑i, s.setInode i { s.inodeTable i with iSize := 0, iDataBlock := -1 }) := by
  simp [createFile, setSize, setDataBlock, State.setInode]

theorem run_clearEntries (dir : ℕ) :
    (onDisk (Code.forEach (fun k => Disk.setInumber dir k (-1)) 0 n)).run s =
      some ((), s.setData (clearEntries s.disk.fsData dir n)) := by
  rw [run_onDisk, Disk.run_clearEntries]
  rfl

theorem run_createDirectory : (createDirectory i).run s = some (
    if s.disk.dataBlockAlloc.1 = -1 then
      (-1, (s.setDisk s.disk.dataBlockAlloc.2).markInode i .free)
    else
      let t := (s.setDisk s.disk.dataBlockAlloc.2).setInode i
        { s.inodeTable i with iSize := blockSize, iDataBlock := s.disk.dataBlockAlloc.1 }
      match dataBlockGet s.disk.dataBlockAlloc.1 with
      | none => (-1, t.markInode i .free)
      | some dir => (↑i, t.setData (clearEntries t.disk.fsData dir maxDirEntries))) := by
  unfold createDirectory
  rw [Code.run_bind, run_dataBlockAlloc, Option.bind_some]
  split
  · rfl
  · simp only [Code.run_bind, setSize, setDataBlock, Code.run_write, Option.bind_some]
    rcases dataBlockGet s.disk.dataBlockAlloc.1 with _ | dir
    · simp [State.setInode]
    · simp only [Code.run_bind, run_clearEntries, Option.bind_some, Code.run_pure]
      simp [State.setInode]

theorem run_inodeCreate (nType : InodeType) :
    (inodeCreate nType).run s = some (Server.inodeCreate nType s) := by
  unfold inodeCreate Server.inodeCreate
  rw [run_search_firstFree State.freeinodeTs]
  rcases firstFree s.freeinodeTs inodeTableSize with _ | i
  · rfl
  · cases nType with
    | file => simp [run_createFile]
    | directory =>
        simp only [Option.elim, Code.run_bind, Code.run_write, Option.bind_some, run_createDirectory]
        generalize (s.markInode i .taken).setInode i
          { (s.markInode i .taken).inodeTable i with iNodeType := .directory } = u
        rcases u.disk.dataBlockAlloc with ⟨b, d⟩
        rfl

theorem run_inodeDelete (inumber : ℤ) :
    (inodeDelete inumber).run s = some (Server.inodeDelete inumber s) := by
  unfold inodeDelete Server.inodeDelete
  by_cases hvalid : validInumber inumber = true
  · by_cases hfree : s.freeinodeTs inumber.toNat = .free
    · simp [hvalid, hfree]
    · by_cases hsize : 0 < (s.inodeTable inumber.toNat).iSize
      · simp [hvalid, hfree, hsize, run_dataBlockFree]
      · simp [hvalid, hfree, hsize]
  · simp [hvalid]

theorem run_addDirEntry (inumber subInumber : ℤ) (subName : Option CString) :
    (addDirEntry inumber subInumber subName).run s = Server.addDirEntry inumber subInumber subName s := by
  unfold addDirEntry Server.addDirEntry
  by_cases hvalid : (!validInumber inumber || !validInumber subInumber) = true
  · rw [if_pos hvalid, if_pos hvalid]
    rfl
  rw [if_neg hvalid, if_neg hvalid, Code.run_bind, Code.run_read, Option.bind_some]
  by_cases htype : (s.inodeTable inumber.toNat).iNodeType ≠ .directory
  · rw [if_pos htype, if_pos htype]
    rfl
  rw [if_neg htype, if_neg htype]
  rcases subName with _ | name
  · rfl
  by_cases hlen : name.strlen = 0
  · simp only [if_pos hlen]
    rfl
  simp only [if_neg hlen]
  rcases dataBlockGet (s.inodeTable inumber.toNat).iDataBlock with _ | dir
  · rfl
  simp only [run_onDisk, Disk.run_addEntry, Option.map_some]
  rcases emptyEntry s.disk.fsData dir with _ | i
  · rfl
  · rfl

theorem run_findInDir (inumber : ℤ) (subName : CString) :
    (findInDir inumber subName).run s = some (Server.findInDir inumber subName s, s) := by
  unfold findInDir Server.findInDir
  by_cases hvalid : validInumber inumber = true
  · by_cases htype : (s.inodeTable inumber.toNat).iNodeType = .directory
    · rcases hdir : dataBlockGet (s.inodeTable inumber.toNat).iDataBlock with _ | dir
      · simp [hvalid, htype, hdir]
      · simp only [hvalid, Bool.not_true, Bool.false_eq_true, if_false, Code.run_bind, Code.run_read,
          Option.bind_some, htype, not_true_eq_false, ne_eq, decide_false, Bool.or_false, hdir, run_onDisk,
          Disk.run_findEntry, Option.map_some]
        rcases searchEntry s.disk.fsData dir subName with _ | i
        · rfl
        · rfl
    · simp [hvalid, htype]
  · simp [hvalid]

theorem run_addToOpenFileTable (inumber : ℤ) (offset : ℕ) :
    (addToOpenFileTable inumber offset).run s = some (Server.addToOpenFileTable inumber offset s) := by
  unfold addToOpenFileTable Server.addToOpenFileTable
  rw [run_search_firstFree State.freeOpenFileEntries]
  rcases firstFree s.freeOpenFileEntries maxOpenFiles with _ | i
  · rfl
  · simp [setOffset, State.setEntry, State.markHandle]

theorem run_removeFromOpenFileTable (fhandle : ℤ) :
    (removeFromOpenFileTable fhandle).run s = some (Server.removeFromOpenFileTable fhandle s) := by
  unfold removeFromOpenFileTable Server.removeFromOpenFileTable
  by_cases hvalid : validFileHandle fhandle = true
  · by_cases htaken : s.freeOpenFileEntries fhandle.toNat = .taken
    · simp [hvalid, htaken]
    · simp [hvalid, htaken]
  · simp [hvalid]

theorem run_tfsLookupUnsynchronized (name : Path) :
    (tfsLookupUnsynchronized name).run s = some (Server.tfsLookupUnsynchronized name s, s) := by
  rcases name with _ | p
  · rfl
  · by_cases hvalid : validPathname (some p) = true
    · simp [tfsLookupUnsynchronized, Server.tfsLookupUnsynchronized, hvalid, run_findInDir]
    · simp [tfsLookupUnsynchronized, Server.tfsLookupUnsynchronized, hvalid]

theorem run_truncate (flags : ℤ) : (truncate i flags).run s = some (truncateFile flags i s) := by
  unfold truncate truncateFile
  by_cases hflag : hasFlag flags tfsOTrunc = true
  · by_cases hsize : 0 < (s.inodeTable i).iSize
    · by_cases hr : (s.disk.dataBlockFree (s.inodeTable i).iDataBlock).1 = -1
      · simp [hflag, hsize, run_dataBlockFree, hr]
      · simp [hflag, hsize, run_dataBlockFree, hr, setSize]
    · simp [hflag, hsize]
  · simp [hflag]

theorem run_openExisting (inum flags : ℤ) :
    (openExisting inum flags).run s = some (Server.openExisting inum flags s) := by
  unfold openExisting Server.openExisting
  rcases inodeGet inum with _ | i
  · rfl
  · change _ = some (
      if (truncateFile flags i s).1 = -1 then
        (-1, (truncateFile flags i s).2)
      else
        Server.addToOpenFileTable inum
          (if hasFlag flags tfsOAppend then ((truncateFile flags i s).2.inodeTable i).iSize else 0)
          (truncateFile flags i s).2)
    rw [Code.run_bind, run_truncate, Option.bind_some]
    rcases truncateFile flags i s with ⟨r, t⟩
    by_cases hr : r = -1
    · simp [hr]
    · by_cases happend : hasFlag flags tfsOAppend = true
      · simp [hr, happend, run_addToOpenFileTable]
      · simp [hr, happend, run_addToOpenFileTable]

theorem run_openCreate (name : Path) : (openCreate name).run s = Server.openCreate name s := by
  unfold openCreate Server.openCreate
  rw [Code.run_bind, run_inodeCreate, Option.bind_some]
  rcases Server.inodeCreate .file s with ⟨inum, t⟩
  by_cases hinum : inum = -1
  · simp [hinum]
  · simp only [if_neg hinum, Code.run_bind, run_addDirEntry]
    rcases Server.addDirEntry rootDirInum inum (afterSlash name) t with _ | ⟨r, u⟩
    · rfl
    · by_cases hr : r = -1
      · simp [hr, run_inodeDelete]
      · simp [hr, run_addToOpenFileTable]

theorem run_tfsOpenUnsynchronized (name : Path) (flags : ℤ) :
    (tfsOpenUnsynchronized name flags).run s = Server.tfsOpenUnsynchronized name flags s := by
  unfold tfsOpenUnsynchronized Server.tfsOpenUnsynchronized
  rw [Code.run_bind, run_tfsLookupUnsynchronized, Option.bind_some]
  by_cases hfound : Server.tfsLookupUnsynchronized name s ≥ 0
  · simp only [if_pos hfound, run_openExisting]
  · by_cases hcreat : hasFlag flags tfsOCreat = true
    · simp only [if_neg hfound, if_pos hcreat, run_openCreate]
    · simp only [if_neg hfound, if_neg hcreat, Code.run_pure]

theorem run_allocIfEmpty : (allocIfEmpty i).run s = some ((), Server.allocIfEmpty i s) := by
  unfold allocIfEmpty Server.allocIfEmpty
  by_cases hsize : (s.inodeTable i).iSize = 0
  · simp [hsize, run_dataBlockAlloc, setDataBlock]
  · simp [hsize]

theorem run_storeBytes (block : ℕ) :
    (storeBytes h i block src n).run s = some ((), Server.storeBytes h i block src n s) := by
  unfold storeBytes Server.storeBytes
  simp only [Code.run_bind, Code.run_read, Option.bind_some, run_copyIn, setOffset, Code.run_write]
  by_cases hgrow : (s.inodeTable i).iSize < sizeAdd (s.openFileTable h).ofOffset n
  · simp [hgrow, setSize]
  · simp [hgrow]

theorem run_tfsWriteUnsynchronized (fhandle : ℤ) (buffer : ℕ → Byte) (toWrite : ℕ) :
    (tfsWriteUnsynchronized fhandle buffer toWrite).run s =
      Server.tfsWriteUnsynchronized fhandle buffer toWrite s := by
  unfold tfsWriteUnsynchronized Server.tfsWriteUnsynchronized
  rcases getOpenFileEntry fhandle with _ | h
  · rfl
  simp only [Code.run_bind, Code.run_read, Option.bind_some]
  rcases inodeGet (s.openFileTable h).ofInumber with _ | i
  · rfl
  simp only [Code.run_bind, Code.run_read, Option.bind_some]
  by_cases hsome : writeCount (s.openFileTable h).ofOffset toWrite > 0
  · simp only [if_pos hsome, Code.run_bind, run_allocIfEmpty, Code.run_read, Option.bind_some]
    rcases dataBlockGet ((Server.allocIfEmpty i s).inodeTable i).iDataBlock with _ | block
    · rfl
    · by_cases hout : block + (s.openFileTable h).ofOffset +
          writeCount (s.openFileTable h).ofOffset toWrite > fsDataSize
      · simp only [if_pos hout, Code.run_undefined]
      · simp only [if_neg hout, Code.run_bind, run_storeBytes, Option.bind_some, Code.run_pure]
  · simp only [if_neg hsome, Code.run_pure]

theorem run_tfsReadUnsynchronized (fhandle : ℤ) (len : ℕ) :
    (tfsReadUnsynchronized fhandle len).run s =
      (Server.tfsReadUnsynchronized fhandle len s).map fun x => ((x.1, x.2.1), x.2.2) := by
  unfold tfsReadUnsynchronized Server.tfsReadUnsynchronized
  rcases getOpenFileEntry fhandle with _ | h
  · rfl
  simp only [Code.run_bind, Code.run_read, Option.bind_some]
  rcases inodeGet (s.openFileTable h).ofInumber with _ | i
  · rfl
  simp only [Code.run_bind, Code.run_read, Option.bind_some]
  generalize hcount : readCount (s.inodeTable i).iSize (s.openFileTable h).ofOffset len = n
  by_cases hsome : n > 0
  · simp only [if_pos hsome, Code.run_bind, Code.run_read, Option.bind_some]
    rcases dataBlockGet (s.inodeTable i).iDataBlock with _ | block
    · rfl
    · by_cases hout : block + (s.openFileTable h).ofOffset + n > fsDataSize
      · simp only [if_pos hout, Code.run_undefined, Option.map_none]
      · simp only [if_neg hout, Code.run_bind, run_copyOut, Option.bind_some, setOffset, Code.run_write,
          Code.run_pure, Option.map_some]
  · simp only [if_neg hsome, Code.run_pure, Option.map_some]

end Run

end Statements

end Server
end TecnicoFs
