import TecnicoFs.Lib.Locks
import TecnicoFs.Tfs.Shape

/-!
# Locks — the lock calls in `tfs`

Each i-node has a lock, and the tables of i-nodes, blocks and handles have one mutex each.  For each function
that locks, its lock operations in order are a function of the state it is called in, with the branches
of the function.  The bodies themselves are those of `Tfs.State` and `Tfs.Operations`.
-/

namespace TecnicoFs
namespace Tfs

open Lib

/-! ## The locks -/

inductive LockName
  /-- `inode_rwlock_table[inumber]` -/
  | inode (inumber : ℕ)
  | freeinodeTs
  | freeBlocks
  | openFileTable
  deriving DecidableEq

abbrev LockOps := List (LockOp LockName)

def inodeLockGet (inumber : ℤ) : Option LockName :=
  if validInumber inumber then some (.inode inumber.toNat) else none

/-! ## Functions of `state.c` -/

/-- A scan for a free element locks the mutex for each element that it looks at. -/
def scanLocks (mutex : LockName) (table : ℕ → AllocationState) (n : ℕ) : LockOps :=
  let looked := match firstFree table n with
    | none => n
    | some i => i + 1
  (List.replicate looked [.lock (some mutex), .unlock (some mutex)]).flatten

def dataBlockAllocLocks (d : Disk) : LockOps :=
  scanLocks .freeBlocks d.freeBlocks dataBlocks

/-- `inode_create`, for i-nodes of both types. -/
def inodeCreateLocks (s : State) : LockOps :=
  scanLocks .freeinodeTs s.freeinodeTs inodeTableSize ++
    match firstFree s.freeinodeTs inodeTableSize with
    | none => []
    | some _ => dataBlockAllocLocks s.disk

/-- `inode_delete`, on each of its paths. -/
def inodeDeleteLocks (inumber : ℤ) : LockOps :=
  [.lock (inodeLockGet inumber), .unlock (inodeLockGet inumber)]

def addDirEntryLocks (inumber subInumber : ℤ) (subName : Option CString) (s : State) :
    Option LockOps :=
  if !validInumber inumber || !validInumber subInumber then
    some []
  else if (s.inodeTable inumber.toNat).iNodeType ≠ .directory then
    some []
  else
    match subName with
    | none => none
    | some name =>
        if name.strlen = 0 then some []
        else some [.lock (inodeLockGet inumber), .unlock (inodeLockGet inumber)]

/-- `find_in_dir` returns without unlocking if the directory has no block. -/
def findInDirLocks (inumber : ℤ) (s : State) : LockOps :=
  if !validInumber inumber || (s.inodeTable inumber.toNat).iNodeType ≠ .directory then
    []
  else
    match dataBlockGet ((s.inodeTable inumber.toNat).iDataBlock 0) with
    | none => [.lock (inodeLockGet inumber)]
    | some _ => [.lock (inodeLockGet inumber), .unlock (inodeLockGet inumber)]

def addToOpenFileTableLocks (s : State) : LockOps :=
  scanLocks .openFileTable s.freeOpenFileEntries maxOpenFiles

def removeFromOpenFileTableLocks : LockOps :=
  [.lock (some .openFileTable), .unlock (some .openFileTable)]

/-! ## Functions of `operations.c` -/

def tfsLookupLocks (name : Path) (s : State) : LockOps :=
  if validPathname name then findInDirLocks rootDirInum s else []

/-- The branch of `tfs_open` for a name that was found. -/
def openExistingLocks (inum flags : ℤ) (s : State) : LockOps :=
  .lock (inodeLockGet inum) ::
    match inodeGet inum with
    | none => []
    | some i =>
        if hasFlag flags tfsOTrunc ∧ (s.inodeTable i).iSize > 0 ∧
            (inodeDatablocksErase (s.inodeTable i) s.disk).1 = -1 then
          [.unlock (inodeLockGet inum)]
        else
          .unlock (inodeLockGet inum) :: addToOpenFileTableLocks s

/-- The branch of `tfs_open` that creates the file.  The i-node is locked before it is known that there is
one, and `inode_delete` locks it again. -/
def openCreateLocks (name : Path) (s : State) : Option LockOps :=
  let (inum, t) := inodeCreate .file s
  let before := inodeCreateLocks s ++ [.lock (inodeLockGet inum)]
  if inum = -1 then
    some before
  else
    match addDirEntryLocks rootDirInum inum (afterSlash name) t,
        addDirEntry rootDirInum inum (afterSlash name) t with
    | some ops, some (r, t) =>
        if r = -1 then
          some (before ++ ops ++ inodeDeleteLocks inum ++ [.unlock (inodeLockGet inum)])
        else
          some (before ++ ops ++ [.unlock (inodeLockGet inum)] ++ addToOpenFileTableLocks t)
    | _, _ => none

def tfsOpenLocks (name : Path) (flags : ℤ) (s : State) : Option LockOps :=
  if !validPathname name then
    some []
  else
    let inum := tfsLookup name s
    if inum ≥ 0 then
      some (tfsLookupLocks name s ++ openExistingLocks inum flags s)
    else if hasFlag flags tfsOCreat then
      (openCreateLocks name s).map (tfsLookupLocks name s ++ ·)
    else
      some (tfsLookupLocks name s)

/-- A `for` loop of `tfs_write` allocates a block for each empty slot. -/
def writeLoopLocks (slots : BlockSlots) (h : ℕ) (buffer : ℕ → Byte) (toWrite : ℕ) :
    ℕ → ℕ → ℕ → State → LockOps
  | 0, _, _, _ => []
  | left + 1, index, writen, s =>
      if writen < toWrite then
        let offset := (s.openFileTable h).ofOffset
        let n := writeInBlock offset toWrite writen
        let alloc := if slots.get s index = -1 then dataBlockAllocLocks s.disk else []
        let s := allocSlot slots index s
        match dataBlockGet (slots.get s index) with
        | none => alloc
        | some block =>
            let s := s.setData (memcpy s.disk.fsData (block + offset % blockSize)
              (fun k => buffer (writen + k)) n)
            let writen := writen + n
            let s := s.setEntry h { s.openFileTable h with ofOffset := sizeAdd offset writen }
            alloc ++ writeLoopLocks slots h buffer toWrite left (index + 1) writen s
      else
        []

/-- `tfs_write` behind the lock of the i-node; each path ends with the unlock. -/
def writeBlocksLocks (lock : Option LockName) (h i : ℕ) (buffer : ℕ → Byte) (toWrite index : ℕ)
    (s : State) : LockOps :=
  writeLoopLocks (directSlots i) h buffer toWrite (directBlocksQuantity - index) index 0 s ++
    match writeLoop (directSlots i) h buffer toWrite (directBlocksQuantity - index) index 0 s with
    | .noBlock _ _ => [.unlock lock]
    | .done index writen s =>
        match dataBlockGet (s.inodeTable i).iIndexBlock with
        | none => [.unlock lock]
        | some a =>
            let index := indirectIndex index
            writeLoopLocks (indexSlots a) h buffer toWrite (indexEntries - index) index writen s ++
              [.unlock lock]

def tfsWriteLocks (fhandle : ℤ) (buffer : ℕ → Byte) (toWrite : ℕ) (s : State) : Option LockOps :=
  match getOpenFileEntry fhandle with
  | none => some []
  | some h =>
      if castInt toWrite < 0 then
        some []
      else
        match inodeGet (s.openFileTable h).ofInumber with
        | none => some []
        | some i =>
            let s := seekForAppend h i s
            let lock := inodeLockGet (s.openFileTable h).ofInumber
            let index := blockIndex (s.openFileTable h).ofOffset
            if index < 0 ∧ 0 < toWrite then
              none
            else
              some (.lock lock :: writeBlocksLocks lock h i buffer toWrite index.toNat s)

/-- The loops of `tfs_read` lock nothing, and each path behind the lock ends with the unlock. -/
def tfsReadLocks (fhandle : ℤ) (len : ℕ) (s : State) : Option LockOps :=
  match getOpenFileEntry fhandle with
  | none => some []
  | some h =>
      match inodeGet (s.openFileTable h).ofInumber with
      | none => some []
      | some i =>
          let lock := inodeLockGet (s.openFileTable h).ofInumber
          let s := clampOffset h i s
          let toRead := readCount (s.inodeTable i).iSize (s.openFileTable h).ofOffset len
          let index := blockIndex (s.openFileTable h).ofOffset
          if index < 0 ∧ 0 < toRead then
            none
          else
            some [.lock lock, .unlock lock]

/-- The lock operations of a call, or `none` where the call has no defined outcome. -/
def callLocks : Call → State → Option LockOps
  | .open name flags, s => tfsOpenLocks name flags s
  | .close _, _ => some removeFromOpenFileTableLocks
  | .write fhandle buffer len, s => tfsWriteLocks fhandle buffer len s
  | .read fhandle len, s => tfsReadLocks fhandle len s

/-! ## Calls that always keep the discipline -/

section Keeping

variable {s t : State} {held : Finset LockName} {h i toWrite : ℕ} {buffer : ℕ → Byte} {slots : BlockSlots}

theorem inodeLockGet_natCast (hi : i < 50) : inodeLockGet i = some (.inode i) := by
  have hvalid : validInumber (i : ℤ) = true := validInumber_natCast.2 hi
  simp [inodeLockGet, hvalid]

theorem keeps_scanLocks {mutex : LockName} (hm : mutex ∉ held) (table : ℕ → AllocationState) (n : ℕ) :
    KeepsHeld (scanLocks mutex table n) held :=
  KeepsHeld.pairs hm _

theorem keeps_inodeCreateLocks (hnodes : .freeinodeTs ∉ held) (hblocks : .freeBlocks ∉ held) (s : State) :
    KeepsHeld (inodeCreateLocks s) held := by
  apply (keeps_scanLocks hnodes _ _).append
  split
  · exact KeepsHeld.nil held
  · exact keeps_scanLocks hblocks _ _

/-- A write loop, by induction on the slots that are left. -/
theorem keeps_writeLoopLocks (hblocks : .freeBlocks ∉ held) (left : ℕ) : ∀ (index writen : ℕ) (s : State),
    KeepsHeld (writeLoopLocks slots h buffer toWrite left index writen s) held := by
  induction left with
  | zero =>
      intro index writen s
      exact KeepsHeld.nil held
  | succ left ih =>
      intro index writen s
      have halloc : KeepsHeld (if slots.get s index = -1 then dataBlockAllocLocks s.disk else []) held := by
        split
        · exact keeps_scanLocks hblocks _ _
        · exact KeepsHeld.nil held
      rw [writeLoopLocks]
      split
      · rcases hget : dataBlockGet (slots.get (allocSlot slots index s) index) with _ | block
        · simp only [hget]
          exact halloc
        · simp only [hget]
          exact halloc.append (ih _ _ _)
      · exact KeepsHeld.nil held

/-- Behind the lock, a write allocates blocks and then unlocks. -/
theorem writeBlocksLocks_cases (lock : Option LockName) (hblocks : .freeBlocks ∉ held) (index : ℕ) :
    ∃ ops, writeBlocksLocks lock h i buffer toWrite index s = ops ++ [.unlock lock] ∧ KeepsHeld ops held := by
  have hdirect : KeepsHeld (writeLoopLocks (directSlots i) h buffer toWrite (directBlocksQuantity - index) index 0 s)
      held := keeps_writeLoopLocks hblocks _ _ _ _
  unfold writeBlocksLocks
  rcases writeLoop (directSlots i) h buffer toWrite (directBlocksQuantity - index) index 0 s with
    ⟨w, t⟩ | ⟨index₁, w, t⟩
  · exact ⟨_, rfl, hdirect⟩
  · simp only
    rcases dataBlockGet (t.inodeTable i).iIndexBlock with _ | a
    · exact ⟨_, rfl, hdirect⟩
    · exact ⟨_, (List.append_assoc _ _ _).symm, hdirect.append (keeps_writeLoopLocks hblocks _ _ _ _)⟩

theorem disciplined_tfsWriteLocks (hs : Shape s) (fhandle : ℤ) (buffer : ℕ → Byte) (toWrite : ℕ) :
    ∃ ops, tfsWriteLocks fhandle buffer toWrite s = some ops ∧ Disciplined ops := by
  unfold tfsWriteLocks
  rcases getOpenFileEntry fhandle with _ | h
  · exact ⟨[], rfl, KeepsHeld.nil ∅⟩
  rcases hs.inumbers h with ⟨i, hi, hnum⟩
  simp only
  split
  · exact ⟨[], rfl, KeepsHeld.nil ∅⟩
  have hseek := moved_seekForAppend h i s
  have hbound : (if (s.openFileTable h).ofAppendFlag = 1 then (s.inodeTable i).iSize
      else (s.openFileTable h).ofOffset) ≤ 272384 * 267 := by
    split
    · exact hs.sizes i
    · exact hs.offsets h
  have hoff := (hseek.shape hs hbound).offsets h
  have hnum₁ : ((seekForAppend h i s).openFileTable h).ofInumber = i := by
    rw [hseek.sameHandles.inumber, hnum]
  simp only [hnum, inodeGet_natCast hi, hnum₁, inodeLockGet_natCast hi]
  rw [blockIndex_of_lt (by omega), if_neg (by omega)]
  have hblocks : LockName.freeBlocks ∉ insert (LockName.inode i) (∅ : Finset LockName) := by simp
  rcases writeBlocksLocks_cases (some (.inode i)) hblocks _ with ⟨ops, hEq, hkeeps⟩
  exact ⟨_, rfl, by rw [hEq]; exact KeepsHeld.bracket (by simp) hkeeps⟩

theorem disciplined_pair (l : LockName) : Disciplined [.lock (some l), .unlock (some l)] :=
  KeepsHeld.bracket (by simp) (KeepsHeld.nil _)

theorem disciplined_tfsReadLocks (hs : Shape s) (fhandle : ℤ) (len : ℕ) :
    ∃ ops, tfsReadLocks fhandle len s = some ops ∧ Disciplined ops := by
  unfold tfsReadLocks
  rcases getOpenFileEntry fhandle with _ | h
  · exact ⟨[], rfl, KeepsHeld.nil ∅⟩
  rcases hs.inumbers h with ⟨i, hi, hnum⟩
  simp only [hnum, inodeGet_natCast hi, inodeLockGet_natCast hi]
  have hoff : ((clampOffset h i s).openFileTable h).ofOffset ≤ 272384 * 267 := by
    rw [clampOffset_eq]
    simpa using Or.inl (hs.offsets h)
  rw [blockIndex_of_lt (by omega), if_neg (by omega)]
  exact ⟨_, rfl, disciplined_pair _⟩

/-- The root directory always has its block. -/
theorem findInDirLocks_root (hs : Shape s) : findInDirLocks rootDirInum s =
    [.lock (some (.inode 0)), .unlock (some (.inode 0))] := by
  have hvalid : validInumber (rootDirInum : ℤ) = true := by decide
  have htype : (s.inodeTable (rootDirInum : ℤ).toNat).iNodeType = .directory := hs.root.iNodeType
  have hblock : (s.inodeTable (rootDirInum : ℤ).toNat).iDataBlock 0 = 0 := hs.root.firstBlock
  have hget : dataBlockGet 0 = some 0 := by decide
  have hlock : inodeLockGet (rootDirInum : ℤ) = some (.inode 0) := by decide
  unfold findInDirLocks
  simp only [hvalid, htype, hblock, hget, hlock, Bool.not_true, ne_eq, not_true_eq_false, decide_false,
    Bool.or_self, Bool.false_eq_true, if_false]

theorem keeps_tfsLookupLocks (hs : Shape s) (name : Path) (hroot : .inode 0 ∉ held) :
    KeepsHeld (tfsLookupLocks name s) held := by
  unfold tfsLookupLocks
  split
  · rw [findInDirLocks_root hs]
    exact KeepsHeld.bracket hroot (KeepsHeld.nil _)
  · exact KeepsHeld.nil held

end Keeping

/-! ## Opens -/

/-- There is an i-node, a block and a directory entry for a new file.  A directory whose block is marked as
free is emptied when the new file gets this block. -/
def RoomForFile (s : State) : Prop :=
  (∃ i < inodeTableSize, s.freeinodeTs i = .free) ∧
    ∃ b, firstFree s.disk.freeBlocks dataBlocks = some b ∧
      (b = 0 ∨ ∃ k < maxDirEntries, ¬ EntryUsed s.disk.fsData 0 k)

/-- An open finds an i-number of the table, or has room for the file that it creates. -/
def KeepsLocks (s : State) : Call → Prop
  | .open name flags => validPathname name = true →
      (0 ≤ tfsLookup name s → tfsLookup name s < inodeTableSize) ∧
        (tfsLookup name s < 0 → hasFlag flags tfsOCreat = true → RoomForFile s)
  | .close _ => True
  | .write _ _ _ => True
  | .read _ _ => True

section Opens

variable {s t : State} {i b : ℕ} {name : Path}

/-- Without a free block the new i-node is lost. -/
theorem inodeCreate_file_none (hb : firstFree s.disk.freeBlocks dataBlocks = none) :
    (inodeCreate .file s).1 = -1 := by
  rcases inodeCreate_file_cases s with ⟨_, hEq⟩ | ⟨i, _, _, ⟨_, hEq⟩ | ⟨b, hlt, hfree, _⟩⟩
  · rw [hEq]
  · rw [hEq]
  · have htaken := firstFree_eq_none.1 hb b hlt
    simp [hfree] at htaken

/-- The directory has an empty entry once block `b` holds the index of the new file. -/
theorem emptyEntry_createdFile : emptyEntry (createdFile s i b).disk.fsData 0 ≠ none ↔
    b = 0 ∨ ∃ k < maxDirEntries, ¬ EntryUsed s.disk.fsData 0 k := by
  have hentries : maxDirEntries = 23 := rfl
  rw [ne_eq, emptyEntry_eq_none]
  push Not
  by_cases hzero : b = 0
  · -- the first entry is now a part of the index block
    subst hzero
    refine ⟨fun _ => Or.inl rfl, fun _ => ⟨0, by omega, ?_⟩⟩
    intro hused
    exact hused (indexEntry_fillIndexBlock (a := 0) (k := 10) (by omega))
  · have hsame : SameBlock s.disk.fsData (createdFile s i b).disk.fsData 0 := by
      have hne : (0 : ℕ) ≠ b := Ne.symm hzero
      have hfill := sameBlock_fillIndexBlock (m := s.disk.fsData) hne
      rw [Nat.zero_mul] at hfill
      exact hfill
    simp only [hzero, false_or]
    constructor
    · rintro ⟨k, hk, hunused⟩
      exact ⟨k, hk, fun hused => hunused ((hsame.entryUsed_iff hk).2 hused)⟩
    · rintro ⟨k, hk, hunused⟩
      exact ⟨k, hk, fun hused => hunused ((hsame.entryUsed_iff hk).1 hused)⟩

theorem addDirEntryLocks_root (hs : Shape s) (hi : i < 50) {sub : CString} (hlen : sub.strlen ≠ 0) :
    addDirEntryLocks rootDirInum i (some sub) s =
      some [.lock (some (.inode 0)), .unlock (some (.inode 0))] := by
  have hroot : validInumber (rootDirInum : ℤ) = true := by decide
  have hnum : validInumber (i : ℤ) = true := validInumber_natCast.2 hi
  have htype : (s.inodeTable (rootDirInum : ℤ).toNat).iNodeType = .directory := hs.root.iNodeType
  have hlock : inodeLockGet (rootDirInum : ℤ) = some (.inode 0) := by decide
  unfold addDirEntryLocks
  simp only [hroot, hnum, htype, hlock, Bool.not_true, Bool.or_self, Bool.false_eq_true, if_false, ne_eq,
    not_true_eq_false, if_neg hlen]

/-- The creating branch keeps the discipline iff it creates the file. -/
theorem openCreateLocks_iff (hs : Shape s) (hvalid : validPathname name = true) :
    ∃ ops, openCreateLocks name s = some ops ∧ (Disciplined ops ↔ RoomForFile s) := by
  have hcreate : KeepsHeld (inodeCreateLocks s) ∅ := keeps_inodeCreateLocks (by simp) (by simp) s
  have hnull : ¬ Disciplined (inodeCreateLocks s ++ [.lock (inodeLockGet (-1))]) := by
    have hrun : heldAfter (inodeCreateLocks s ++ [.lock (inodeLockGet (-1))]) ∅ = none :=
      hcreate.heldAfter_append _
    intro hdisciplined
    rw [Disciplined, KeepsHeld, hrun] at hdisciplined
    cases hdisciplined
  have hfail : (inodeCreate .file s).1 = -1 → ¬ RoomForFile s →
      ∃ ops, openCreateLocks name s = some ops ∧ (Disciplined ops ↔ RoomForFile s) := by
    intro hminus hroom
    unfold openCreateLocks
    simp only [hminus, if_true]
    exact ⟨_, rfl, iff_of_false hnull hroom⟩
  rcases hnodes : firstFree s.freeinodeTs inodeTableSize with _ | i
  · apply hfail
    · unfold inodeCreate
      rw [hnodes]
    · rintro ⟨⟨i, hi, hfree⟩, _⟩
      simp [firstFree_eq_none.1 hnodes i hi] at hfree
  rcases hblocks : firstFree s.disk.freeBlocks dataBlocks with _ | b
  · apply hfail (inodeCreate_file_none hblocks)
    rintro ⟨_, b, hb, _⟩
    rw [hblocks] at hb
    cases hb
  rcases firstFree_eq_some.1 hnodes with ⟨hi, hfree, _⟩
  have hpos : 0 < i := hs.pos_of_free hfree
  have hroom : RoomForFile s ↔ emptyEntry (createdFile s i b).disk.fsData 0 ≠ none := by
    rw [emptyEntry_createdFile]
    constructor
    · rintro ⟨_, c, hc, hentry⟩
      rw [hblocks] at hc
      cases hc
      exact hentry
    · intro hentry
      exact ⟨⟨i, hi, hfree⟩, b, hblocks, hentry⟩
  rcases afterSlash_of_valid hvalid with ⟨p, _, hsub, hlen⟩
  have hnum : ¬ (i : ℤ) = -1 := by omega
  have hundisturbed : Undisturbed s (createdFile s i b) := by
    have hne : (0 : ℕ) ≠ i := by omega
    exact Undisturbed.of_newNode (n := ⟨.file, 0, fun _ => -1, b⟩) hpos rfl rfl rfl rfl
      (by simp [createdFile, preparedFile, hne])
  have hshape := hundisturbed.shape hs
  have hlocked : heldAfter (inodeCreateLocks s ++ [.lock (some (.inode i))]) ∅ = some {.inode i} :=
    hcreate.heldAfter_append _
  -- the lock of the root directory is taken while that of the new file is held
  have hdir : KeepsHeld [.lock (some (.inode 0)), .unlock (some (.inode 0))] {LockName.inode i} :=
    KeepsHeld.bracket (by simp; omega) (KeepsHeld.nil _)
  have hentered : heldAfter (inodeCreateLocks s ++ [.lock (some (.inode i))] ++
      [.lock (some (.inode 0)), .unlock (some (.inode 0))]) ∅ = some {.inode i} := by
    rw [heldAfter_append, hlocked, Option.bind_some]
    exact hdir
  rw [hroom]
  unfold openCreateLocks
  simp only [inodeCreate_file_some hnodes hblocks, if_neg hnum, hsub, inodeLockGet_natCast hi,
    addDirEntryLocks_root hshape hi hlen, addDirEntry_root hshape.root hi, Option.bind_some, if_neg hlen]
  rcases hempty : emptyEntry (createdFile s i b).disk.fsData 0 with _ | k
  · -- `inode_delete` locks the new file again
    refine ⟨_, rfl, iff_of_false ?_ (by simp)⟩
    have hrelock : heldAfter (inodeDeleteLocks i) {LockName.inode i} = none := by
      rw [inodeDeleteLocks, inodeLockGet_natCast hi]
      exact heldAfter_relock (Finset.mem_singleton_self _)
    intro hdisciplined
    rw [Disciplined, KeepsHeld, heldAfter_append, heldAfter_append, hentered, Option.bind_some,
        hrelock] at hdisciplined
    cases hdisciplined
  · refine ⟨_, rfl, iff_of_true ?_ (by simp)⟩
    have hrelease : heldAfter [.unlock (some (.inode i))] {LockName.inode i} = some ∅ := by
      simp [heldAfter, LockOp.next]
    have htable : KeepsHeld (addToOpenFileTableLocks (namedFile (createdFile s i b) k i p.tail)) ∅ :=
      keeps_scanLocks (by simp) _ _
    calc heldAfter _ ∅
        = (heldAfter (inodeCreateLocks s ++ [.lock (some (.inode i))] ++
            [.lock (some (.inode 0)), .unlock (some (.inode 0))] ++ [.unlock (some (.inode i))]) ∅).bind
            (heldAfter (addToOpenFileTableLocks (namedFile (createdFile s i b) k i p.tail))) :=
          heldAfter_append _ _ _
      _ = heldAfter (addToOpenFileTableLocks (namedFile (createdFile s i b) k i p.tail)) ∅ := by
          rw [heldAfter_append, hentered, Option.bind_some, hrelease, Option.bind_some]
      _ = some ∅ := htable

theorem openExistingLocks_iff (s : State) (flags : ℤ) {inum : ℤ} (hinum : 0 ≤ inum) :
    Disciplined (openExistingLocks inum flags s) ↔ inum < inodeTableSize := by
  rcases Int.eq_ofNat_of_zero_le hinum with ⟨i, rfl⟩
  by_cases hi : i < 50
  · have hin : ((i : ℕ) : ℤ) < inodeTableSize := by
      have hsize : ((inodeTableSize : ℕ) : ℤ) = 50 := rfl
      omega
    refine iff_of_true ?_ hin
    have hrelease : KeepsHeld [.lock (some (LockName.inode i)), .unlock (some (LockName.inode i))] ∅ :=
        disciplined_pair _
    unfold openExistingLocks
    rw [inodeLockGet_natCast hi, inodeGet_natCast hi]
    simp only
    split
    · exact hrelease
    · exact hrelease.append (keeps_scanLocks (by simp) _ _)
  · have hout : ¬ ((i : ℕ) : ℤ) < inodeTableSize := by
      have hsize : ((inodeTableSize : ℕ) : ℤ) = 50 := rfl
      omega
    -- beyond the table the lock is NULL
    have hinvalid : ¬ validInumber (i : ℤ) = true := fun hvalid => hi (validInumber_natCast.1 hvalid)
    refine iff_of_false ?_ hout
    intro hdisciplined
    unfold openExistingLocks at hdisciplined
    rw [inodeLockGet, if_neg hinvalid] at hdisciplined
    cases hdisciplined

end Opens

/-! ## The law -/

theorem tfsOpenLocks_iff {s : State} (hs : Shape s) (name : Path) (flags : ℤ) :
    ∃ ops, tfsOpenLocks name flags s = some ops ∧ (Disciplined ops ↔ KeepsLocks s (.open name flags)) := by
  have hlookup : KeepsHeld (tfsLookupLocks name s) ∅ := keeps_tfsLookupLocks hs name (by simp)
  unfold tfsOpenLocks KeepsLocks
  by_cases hvalid : validPathname name = true
  · simp only [hvalid, Bool.not_true, Bool.false_eq_true, if_false, true_implies]
    by_cases hfound : tfsLookup name s ≥ 0
    · rw [if_pos hfound]
      refine ⟨_, rfl, ?_⟩
      -- the file exists, and only its own lock is taken after the lookup
      have hneg : ¬ tfsLookup name s < 0 := by omega
      rw [hlookup.disciplined_append_iff, openExistingLocks_iff s flags hfound]
      exact ⟨fun hlt => ⟨fun _ => hlt, fun hminus => absurd hminus hneg⟩, fun hkeep => hkeep.1 hfound⟩
    · have hminus : tfsLookup name s < 0 := by omega
      rw [if_neg hfound]
      by_cases hcreat : hasFlag flags tfsOCreat = true
      · rcases openCreateLocks_iff hs hvalid with ⟨ops, hEq, hiff⟩
        simp only [hcreat, if_true, hEq, Option.map_some]
        refine ⟨_, rfl, ?_⟩
        rw [hlookup.disciplined_append_iff, hiff]
        exact ⟨fun hroom => ⟨fun h => absurd h hfound, fun _ _ => hroom⟩, fun hkeep => hkeep.2 hminus trivial⟩
      · rw [if_neg hcreat]
        exact ⟨_, rfl, iff_of_true hlookup ⟨fun h => absurd h hfound, fun _ h => absurd h hcreat⟩⟩
  · simp only [hvalid, Bool.not_false, if_true]
    exact ⟨[], rfl, iff_of_true (KeepsHeld.nil ∅) (fun h => absurd h (by simp))⟩

/-- A lookup keeps the lock discipline, and any other call does iff it is no open that finds a number outside
the table or has no room for its file. -/
theorem disciplined_iff_keepsLocks {hist : List (State × Call)} {s : State} (he : anyCalls.Execution hist s) :
    (∀ name, Disciplined (tfsLookupLocks name s)) ∧
      ∀ a, ∃ ops, callLocks a s = some ops ∧ (Disciplined ops ↔ KeepsLocks s a) := by
  have hs := shape_of_execution he
  refine ⟨fun name => keeps_tfsLookupLocks hs name (by simp), ?_⟩
  intro a
  cases a with
  | «open» name flags => exact tfsOpenLocks_iff hs name flags
  | close fhandle => exact ⟨_, rfl, iff_of_true (disciplined_pair _) trivial⟩
  | write fhandle buffer len =>
      rcases disciplined_tfsWriteLocks hs fhandle buffer len with ⟨ops, hEq, hops⟩
      exact ⟨ops, hEq, iff_of_true hops trivial⟩
  | read fhandle len =>
      rcases disciplined_tfsReadLocks hs fhandle len with ⟨ops, hEq, hops⟩
      exact ⟨ops, hEq, iff_of_true hops trivial⟩

theorem disciplined_iff_keepsLocks_tfsInit :
    ∃ ops, callLocks (.open (some slashA) tfsOCreat) tfsInit.2 = some ops ∧ Disciplined ops := by
  have he : anyCalls.Execution [] tfsInit.2 := System.Execution.start rfl
  rcases (disciplined_iff_keepsLocks he).2 (.open (some slashA) tfsOCreat) with ⟨ops, hEq, hiff⟩
  refine ⟨ops, hEq, hiff.2 ?_⟩
  have hlookup : 0 ≤ tfsLookup (some slashA) tfsInit.2 → tfsLookup (some slashA) tfsInit.2 < inodeTableSize := by
    rw [tfsInit_eq]
    decide +kernel
  have hblock : firstFree tfsInit.2.disk.freeBlocks dataBlocks = some 1 := by
    rw [tfsInit_eq]
    decide +kernel
  have hentry : ¬ EntryUsed tfsInit.2.disk.fsData 0 0 := by
    rw [tfsInit_eq]
    decide +kernel
  exact fun _ => ⟨hlookup, fun _ _ => ⟨tfsInit_room.1, 1, hblock, Or.inr ⟨0, by decide, hentry⟩⟩⟩

theorem letters_ne_zero : ∀ c ∈ (List.range maxDirEntries).map fun k => UInt8.ofNat (0x61 + k), c ≠ 0 := by
  decide +kernel

/-- Create `MAX_DIR_ENTRIES` files, `/a`, `/b` and so on. -/
def fillDirectory : List Call :=
  (((List.range maxDirEntries).map fun k => UInt8.ofNat (0x61 + k)).pmap slash letters_ne_zero).map
    fun path => .open (some path) tfsOCreat

/-- The root directory is full and has no `/x`; there are free i-nodes and blocks. -/
structure FullDirectory (s : State) : Prop where
  absent : tfsLookup (some (slash 0x78 (by decide))) s = -1
  inode : firstFree s.freeinodeTs inodeTableSize = some 24
  block : firstFree s.disk.freeBlocks dataBlocks = some 24
  entries : ∀ k < maxDirEntries, EntryUsed s.disk.fsData 0 k

theorem performAll_fillDirectory :
    (System.performAll (fileSystem.record fun _ _ => True) fillDirectory ([], tfsInit.2)).any
      (fun x => tfsLookup (some (slash 0x78 (by decide))) x.2 = -1 ∧
        firstFree x.2.freeinodeTs inodeTableSize = some 24 ∧ firstFree x.2.disk.freeBlocks dataBlocks =
            some 24 ∧
        ∀ k < maxDirEntries, EntryUsed x.2.disk.fsData 0 k) = true := by
  rw [tfsInit_eq]
  decide +kernel

theorem exists_fullDirectory : ∃ hist s, anyCalls.Execution hist s ∧
    hist.map Prod.snd = fillDirectory.reverse ∧ FullDirectory s := by
  rcases Machine.execution_of_any performAll_fillDirectory with
      ⟨hist, s, he, hlabels, habsent, hinode, hblock, hused⟩
  exact ⟨hist, s, he, hlabels, habsent, hinode, hblock, hused⟩

/-- With a full directory, `tfs_open` locks the new i-node twice. -/
theorem fullDirectory_locks_twice : ∃ hist s ops, anyCalls.Execution hist s ∧
    hist.map Prod.snd = fillDirectory.reverse ∧
    callLocks (.open (some (slash 0x78 (by decide))) tfsOCreat) s = some ops ∧ ¬ Disciplined ops := by
  rcases exists_fullDirectory with ⟨hist, s, he, hlabels, hfull⟩
  rcases tfsOpenLocks_iff (shape_of_execution he) (some (slash 0x78 (by decide))) tfsOCreat with
      ⟨ops, hEq, hiff⟩
  refine ⟨hist, s, ops, he, hlabels, hEq, ?_⟩
  intro hdisciplined
  rcases (hiff.1 hdisciplined (by decide)).2 (by rw [hfull.absent]; omega) (by decide) with ⟨_, b, hb, hentry⟩
  rw [hfull.block] at hb
  cases hb
  rcases hentry with hzero | ⟨k, hk, hunused⟩
  · omega
  · exact hunused (hfull.entries k hk)

end Tfs
end TecnicoFs
