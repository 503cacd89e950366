import TecnicoFs.Tfs.Ownership

/-!
# Multi-block threads — `tfs_open` as a sequence of atomic steps

Threads that open files at the same time share the tables. A call is cut where its locks cut it: the
search of `find_in_dir`, the section under the lock of the i-node found, each test-and-set of
`inode_create` and `data_block_alloc`, the insertion of `add_dir_entry`, the two halves of
`inode_delete`, and each test-and-set of `add_to_open_file_table`. What a step does to its own fresh
i-node and index block, which no other thread can reach, is part of the step.
-/

namespace TecnicoFs
namespace Tfs
namespace Threads

open Lib

/-! ## Threads -/

/-- Where a thread stands in `tfs_open`. -/
inductive Pc
  | idle
  | search (path : CString) (flags : ℤ)
  | reuse (path : CString) (flags inum : ℤ)
  | takeInode (path : CString) (k : ℕ)
  | takeBlock (path : CString) (inum k : ℕ)
  | insert (path : CString) (inum : ℕ)
  | deleteInode (path : CString) (inum : ℕ)
  | deleteBlocks (path : CString) (inum : ℕ)
  | register (path : CString) (inum : ℤ) (offset : ℕ) (appendFlag : ℤ) (k : ℕ)

/-- How a step ends: the thread goes on, or the call on a path returns. -/
inductive Next
  | goto (pc : Pc)
  | ret (path : CString) (r : ℤ)

/-! ## The steps -/

/-- `find_in_dir`, and the branch on its result. -/
def searchStep (path : CString) (flags : ℤ) (s : State) : Next × State :=
  let inum := tfsLookup (some path) s
  if inum ≥ 0 then
    (.goto (.reuse path flags inum), s)
  else if hasFlag flags tfsOCreat then
    (.goto (.takeInode path 0), s)
  else
    (.ret path (-1), s)

/-- The section under the lock of an i-node that was found. -/
def reuseStep (path : CString) (flags inum : ℤ) (s : State) : Next × State :=
  match inodeGet inum with
  | none => (.ret path (-1), s)
  | some i =>
      let (r, s) := truncateFile flags i s
      if r = -1 then
        (.ret path (-1), s)
      else if hasFlag flags tfsOAppend then
        (.goto (.register path inum (s.inodeTable i).iSize 1 0), s)
      else
        (.goto (.register path inum 0 0 0), s)

/-- The test-and-set of `freeinode_ts[k]`, and the fields of the i-node taken. -/
def takeInodeStep (path : CString) (k : ℕ) (s : State) : Next × State :=
  if k < inodeTableSize then
    if s.freeinodeTs k = .free then
      (.goto (.takeBlock path k 0),
        (s.markInode k .taken).setInode k
          { s.inodeTable k with iNodeType := .file, iSize := 0, iDataBlock := fun _ => -1 })
    else
      (.goto (.takeInode path (k + 1)), s)
  else
    (.ret path (-1), s)

/-- The test-and-set of `free_blocks[k]`, and the index block. -/
def takeBlockStep (path : CString) (inum k : ℕ) (s : State) : Next × State :=
  if k < dataBlocks then
    if s.disk.freeBlocks k = .free then
      let s := s.setDisk (s.disk.markBlock k .taken)
      let s := s.setInode inum { s.inodeTable inum with iIndexBlock := k }
      (.goto (.insert path inum), s.setData (fillIndexBlock s.disk.fsData (k * blockSize)))
    else
      (.goto (.takeBlock path inum (k + 1)), s)
  else
    (.ret path (-1), s.setInode inum { s.inodeTable inum with iIndexBlock := -1 })

/-- `add_dir_entry` -/
def insertStep (path : CString) (inum : ℕ) (s : State) : Option (Next × State) :=
  (addDirEntry rootDirInum inum (afterSlash (some path)) s).map fun x =>
    if x.1 = -1 then (.goto (.deleteInode path inum), x.2)
    else (.goto (.register path inum 0 0 0), x.2)

/-- `inode_delete` up to `freeinode_ts[inumber] = FREE`; from there on the i-node can be taken. -/
def deleteInodeStep (path : CString) (inum : ℕ) (s : State) : Next × State :=
  if !validInumber inum || s.freeinodeTs inum = .free then
    (.ret path (-1), s)
  else
    (.goto (.deleteBlocks path inum), s.markInode inum .free)

/-- The rest of `inode_delete`. -/
def deleteBlocksStep (path : CString) (inum : ℕ) (s : State) : Next × State :=
  let (r, d) := inodeDatablocksErase (s.inodeTable inum) s.disk
  if r ≠ 0 then
    (.ret path (-1), s.setDisk d)
  else
    (.ret path (-1), s.setDisk (d.dataBlockFree (s.inodeTable inum).iIndexBlock).2)

/-- The test-and-set of `free_open_file_entries[k]`, and the entry. -/
def registerStep (path : CString) (inum : ℤ) (offset : ℕ) (appendFlag : ℤ) (k : ℕ) (s : State) :
    Next × State :=
  if k < maxOpenFiles then
    if s.freeOpenFileEntries k = .free then
      (.ret path k, (s.markHandle k .taken).setEntry k ⟨inum, offset, appendFlag⟩)
    else
      (.goto (.register path inum offset appendFlag (k + 1)), s)
  else
    (.ret path (-1), s)

/-- The next step of a thread; an idle thread has none. -/
def advance : Pc → State → Option (Next × State)
  | .idle, _ => none
  | .search path flags, s => some (searchStep path flags s)
  | .reuse path flags inum, s => some (reuseStep path flags inum s)
  | .takeInode path k, s => some (takeInodeStep path k s)
  | .takeBlock path inum k, s => some (takeBlockStep path inum k s)
  | .insert path inum, s => insertStep path inum s
  | .deleteInode path inum, s => some (deleteInodeStep path inum s)
  | .deleteBlocks path inum, s => some (deleteBlocksStep path inum s)
  | .register path inum offset appendFlag k, s =>
      some (registerStep path inum offset appendFlag k s)

/-! ## Interleavings -/

/-- The tables, each thread's position, and every path with the result of its call. -/
structure World where
  lib : State
  pc : ℕ → Pc
  returned : List (CString × ℤ)

def World.start (s : State) : World where
  lib := s
  pc := fun _ => .idle
  returned := []

/-- The world after a step of thread `t`. -/
def World.after (w : World) (t : ℕ) : Next × State → World
  | (.goto pc, s) => ⟨s, Function.update w.pc t pc, w.returned⟩
  | (.ret path r, s) => ⟨s, Function.update w.pc t .idle, (path, r) :: w.returned⟩

inductive Label
  | call (t : ℕ) (path : CString) (flags : ℤ)
  | step (t : ℕ)

def perform : Label → World → Option World
  | .call t path flags, w =>
      match w.pc t with
      | .idle =>
          if validPathname (some path) then some (w.after t (.goto (.search path flags), w.lib))
          else some (w.after t (.ret path (-1), w.lib))
      | _ => none
  | .step t, w => (advance (w.pc t) w.lib).map (w.after t)

/-- A valid path with fewer than `MAX_FILE_NAME` bytes after the slash. -/
def ProperPath (path : CString) : Prop :=
  validPathname (some path) = true ∧ path.tail.strlen < maxFileName

instance (path : CString) : Decidable (ProperPath path) :=
  inferInstanceAs (Decidable (_ ∧ _))

/-- Any number of threads open files, in any interleaving of their steps. -/
def openers : System World Label where
  init w := w = World.start tfsInit.2
  step w a w' := (∀ t path flags, a = .call t path flags → ProperPath path) ∧ perform a w = some w'

/-! ## The law, and the condition under which it holds -/

/-- Every file is created once: no name is twice in the root directory, and calls on one path that
return handles return them on one i-node. -/
structure CreatedOnce (w : World) : Prop where
  names : ∀ j < 23, ∀ k < 23, EntryUsed w.lib.disk.fsData 0 j → EntryUsed w.lib.disk.fsData 0 k →
    entryName w.lib.disk.fsData 0 j = entryName w.lib.disk.fsData 0 k → j = k
  handles : ∀ x ∈ w.returned, ∀ y ∈ w.returned, x.1 = y.1 → 0 ≤ x.2 → 0 ≤ y.2 →
    (w.lib.openFileTable x.2.toNat).ofInumber = (w.lib.openFileTable y.2.toNat).ofInumber

/-- The name that the thread is creating: it has not been found, and is not in the directory yet. -/
def Pc.creates : Pc → Option CString
  | .takeInode path _ => some path.tail
  | .takeBlock path _ _ => some path.tail
  | .insert path _ => some path.tail
  | _ => none

/-- A search that starts a creation meets no other thread that is creating the same name. -/
def Undisturbed (w : World) : Label → Prop
  | .call _ _ _ => True
  | .step t =>
      ∀ path flags, w.pc t = .search path flags → hasFlag flags tfsOCreat = true →
        tfsLookup (some path) w.lib < 0 → ∀ u, u ≠ t → (w.pc u).creates ≠ some path.tail

end Threads
end Tfs
end TecnicoFs
