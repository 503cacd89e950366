import TecnicoFs.Lib.LockOrder
import TecnicoFs.Tfs.Ownership
import TecnicoFs.Tfs.Statements

/-!
# Lock order — threads that call `tfs` do not block each other

`tfs_open` locks the root directory with the lock of the new i-node in hand, and `tfs_write` the mutex of the
blocks with that of its i-node; nothing else is locked with a lock in hand.  So the i-nodes of files come
first, then the root directory, then the mutexes.

A thread goes astray only in `tfs_open`: at `inode_lock_get(-1)` after a failed `inode_create`, at the lock of
an i-node that a damaged directory names, and in `inode_delete`, whose caller holds the lock.
-/

namespace TecnicoFs
namespace Tfs

open Lib Statements

/-- The place of a lock in the order. -/
def LockName.rank : LockName → ℕ
  | inode i => if i = rootDirInum then 1 else 0
  | freeinodeTs => 2
  | freeBlocks => 2
  | openFileTable => 2

theorem LockName.rank_le (l : LockName) : l.rank ≤ 2 := by
  rcases l with i | _ | _ | _
  · rw [rank]
    split
    · exact Nat.le_succ 1
    · exact Nat.zero_le 2
  · exact le_rfl
  · exact le_rfl
  · exact le_rfl

/-- An i-node is locked below the mutexes. -/
theorem rank_inode_lt {n : ℕ} : ∀ k ∈ ({.inode n} : Set LockName), k.rank < 2 := by
  rintro k rfl
  rw [LockName.rank]
  split
  · exact Nat.one_lt_two
  · exact Nat.zero_lt_two

/-- The calls that may go astray at a lock. -/
def Call.Opens : Call → Prop
  | .open _ _ => True
  | _ => False

/-- What every statement keeps, whatever the data blocks hold: the i-node of the root directory is taken and
has its block, and the open file table names i-nodes. -/
structure Grounded (s : State) : Prop where
  rootTaken : s.freeinodeTs rootDirInum = .taken
  rootDirectory : (s.inodeTable rootDirInum).iNodeType = .directory
  rootBlock : validBlockNumber ((s.inodeTable rootDirInum).iDataBlock 0) = true
  entries : ∀ h, validInumber (s.openFileTable h).ofInumber = true

/-- The program keeps `Grounded` and the order of the locks. -/
abbrev InOrder {ρ : Type} (slips : Prop) (c : Program ρ) (held : Set LockName)
    (Q : ρ → Set LockName → Prop) : Prop :=
  c.Obeys LockName.rank Grounded slips held Q

/-! ## What keeps the root directory -/

section Grounded

variable {s : State} {i h : ℕ} {n : Inode} {e : OpenFileEntry}

theorem Grounded.setDisk (hs : Grounded s) (d : Disk) : Grounded (s.setDisk d) :=
  ⟨hs.rootTaken, hs.rootDirectory, hs.rootBlock, hs.entries⟩

theorem Grounded.markTaken (hs : Grounded s) (i : ℕ) : Grounded (s.markInode i .taken) where
  rootTaken := by
    change Function.update s.freeinodeTs i .taken rootDirInum = _
    rw [Function.update_apply]
    split
    · rfl
    · exact hs.rootTaken
  rootDirectory := hs.rootDirectory
  rootBlock := hs.rootBlock
  entries := hs.entries

theorem Grounded.setInode (hs : Grounded s)
    (hroot : i = rootDirInum → n.iNodeType = .directory ∧ validBlockNumber (n.iDataBlock 0) = true) :
    Grounded (s.setInode i n) where
  rootTaken := hs.rootTaken
  rootDirectory := by
    change (Function.update s.inodeTable i n rootDirInum).iNodeType = _
    rw [Function.update_apply]
    split
    · next hi => exact (hroot hi.symm).1
    · exact hs.rootDirectory
  rootBlock := by
    change validBlockNumber ((Function.update s.inodeTable i n rootDirInum).iDataBlock 0) = true
    rw [Function.update_apply]
    split
    · next hi => exact (hroot hi.symm).2
    · exact hs.rootBlock
  entries := hs.entries

theorem Grounded.setSize (hs : Grounded s) (i size : ℕ) :
    Grounded (s.setInode i { s.inodeTable i with iSize := size }) := by
  refine hs.setInode ?_
  rintro rfl
  exact ⟨hs.rootDirectory, hs.rootBlock⟩

theorem Grounded.setEntry (hs : Grounded s) (hentry : validInumber e.ofInumber = true) :
    Grounded (s.setEntry h e) where
  rootTaken := hs.rootTaken
  rootDirectory := hs.rootDirectory
  rootBlock := hs.rootBlock
  entries j := by
    change validInumber (Function.update s.openFileTable h e j).ofInumber = true
    rw [Function.update_apply]
    split
    · exact hentry
    · exact hs.entries j

theorem Grounded.markHandle (hs : Grounded s) (a : AllocationState) : Grounded (s.markHandle h a) :=
  ⟨hs.rootTaken, hs.rootDirectory, hs.rootBlock, hs.entries⟩

theorem grounded_tfsInit : Grounded tfsInit.2 := by
  rw [tfsInit_eq]
  constructor
  · rfl
  · rfl
  · rfl
  · intro h
    rfl

end Grounded

/-! ## The statements -/

section Statements

variable {ρ : Type} {slips : Prop} {held : Set LockName} {h i n : ℕ} {z : ℤ}

theorem inOrder_read {f : State → ρ} {Q : ρ → Set LockName → Prop} (hQ : ∀ s, Grounded s → Q (f s) held) :
    InOrder slips (read f) held Q :=
  Guarded.obeys_plain (Code.obeys_read hQ) fun _ h => h

theorem inOrder_write {f : State → State} {Q : Unit → Set LockName → Prop}
    (hf : ∀ s, Grounded s → Grounded (f s)) (hQ : Q () held) : InOrder slips (write f) held Q :=
  Guarded.obeys_plain (Q := fun _ => True) (Code.obeys_write hf trivial) fun _ _ => hQ

theorem inOrder_onDisk {c : Code Disk ρ} {Q : ρ → Set LockName → Prop} (hQ : ∀ r, Q r held) :
    InOrder slips (onDisk c) held Q :=
  Guarded.obeys_plain (Code.obeys_within (fun d _ hs => hs.setDisk d) c) fun r _ => hQ r

theorem inOrder_setSize {size : ℕ} {Q : Unit → Set LockName → Prop} (hQ : Q () held) :
    InOrder slips (setSize i size) held Q :=
  inOrder_write (fun _ hs => hs.setSize i size) hQ

theorem obeys_setOffset {offset : ℕ} {Q : Unit → Prop} (hQ : Q ()) :
    (setOffset h offset).Obeys Grounded Q :=
  Code.obeys_write (fun _ hs => hs.setEntry (hs.entries h)) hQ

theorem inOrder_setOffset {offset : ℕ} {Q : Unit → Set LockName → Prop} (hQ : Q () held) :
    InOrder slips (Guarded.plain (setOffset h offset)) held Q :=
  Guarded.obeys_plain (Q := fun _ => True) (obeys_setOffset trivial) fun _ _ => hQ

/-- A mutex is above the locks of all i-nodes. -/
theorem inOrder_dataBlockAlloc {Q : ℤ → Set LockName → Prop} (hrank : ∀ k ∈ held, k.rank < 2)
    (hQ : ∀ r, Q r held) : InOrder slips dataBlockAlloc held Q := by
  unfold dataBlockAlloc
  rw [InOrder, Guarded.obeys_bind]
  refine Guarded.obeys_scan (S := fun _ => True) hrank (fun i => ?_) (fun i _ => ?_) (hQ _) dataBlocks 0
  · exact Code.obeys_read fun _ _ _ => trivial
  · exact Code.obeys_write (fun s hs => hs.setDisk _) (hQ _)

theorem inOrder_lock {Q : Unit → Set LockName → Prop} (hz : validInumber z = true)
    (hrank : ∀ k ∈ held, k.rank < (LockName.inode z.toNat).rank)
    (hQ : Q () (insert (.inode z.toNat) held)) : InOrder slips (lock (inodeLockGet z)) held Q := by
  rw [inodeLockGet, if_pos hz]
  exact Guarded.obeys_acquire hrank hQ

/-- The first lock of a call that may slip. -/
theorem inOrder_firstLock {Q : Unit → Set LockName → Prop} (hslips : slips)
    (hQ : validInumber z = true → Q () {.inode z.toNat}) : InOrder slips (lock (inodeLockGet z)) ∅ Q := by
  by_cases hz : validInumber z = true
  · refine inOrder_lock hz (fun _ h => False.elim h) ?_
    have hheld := hQ hz
    rw [← insert_empty_eq] at hheld
    exact hheld
  · rw [inodeLockGet, if_neg hz]
    exact hslips

theorem inOrder_unlock {Q : Unit → Set LockName → Prop} (hz : validInumber z = true)
    (hl : .inode z.toNat ∈ held) (hQ : Q () (held \ {.inode z.toNat})) :
    InOrder slips (unlock (inodeLockGet z)) held Q := by
  rw [inodeLockGet, if_pos hz]
  exact Guarded.obeys_release hl hQ

/-- The unlock of the only lock that is held. -/
theorem inOrder_lastUnlock {Q : Unit → Set LockName → Prop} (hz : validInumber z = true) (hQ : Q () ∅) :
    InOrder slips (unlock (inodeLockGet z)) {.inode z.toNat} Q := by
  refine inOrder_unlock hz (Set.mem_singleton _) ?_
  rw [Set.sdiff_self]
  exact hQ

/-! ### `tfs_open` -/

theorem inOrder_createFile {Q : ℤ → Set LockName → Prop} (hi : i ≠ rootDirInum)
    (hrank : ∀ k ∈ held, k.rank < 2) (hQ : ∀ r : ℤ, r = -1 ∨ r = (i : ℤ) → Q r held) :
    InOrder slips (createFile i) held Q := by
  have hkeeps : ∀ n s, Grounded s → Grounded (s.setInode i n) :=
    fun n s hs => hs.setInode fun hroot => absurd hroot hi
  unfold createFile
  simp only [InOrder, Guarded.obeys_bind]
  refine inOrder_write (fun s hs => hkeeps _ s hs) ?_
  refine inOrder_setSize ?_
  refine inOrder_write (fun s hs => hkeeps _ s hs) ?_
  refine inOrder_dataBlockAlloc hrank fun b => ?_
  refine inOrder_write (fun s hs => hkeeps _ s hs) ?_
  refine inOrder_read fun s _ => ?_
  rcases dataBlockGet (s.inodeTable i).iIndexBlock with _ | a
  · exact hQ _ (Or.inl rfl)
  · simp only [Guarded.obeys_bind]
    exact inOrder_onDisk fun _ => hQ _ (Or.inr rfl)

/-- A new i-node is not that of the root directory, which is taken. -/
theorem inOrder_inodeCreate {Q : ℤ → Set LockName → Prop} (hrank : ∀ k ∈ held, k.rank < 2)
    (hQ : ∀ r : ℤ, r ≠ (rootDirInum : ℤ) → Q r held) : InOrder slips Statements.inodeCreate held Q := by
  unfold Statements.inodeCreate
  simp only [InOrder, Guarded.obeys_bind]
  refine Guarded.obeys_scan (S := fun i => i ≠ rootDirInum) hrank (fun i => ?_) (fun i hi => ?_) ?_
    inodeTableSize 0
  · -- the scan passes over the root directory, whose entry is taken
    refine Code.obeys_read fun s hs hfree => ?_
    rintro rfl
    rw [hs.rootTaken] at hfree
    exact absurd (of_decide_eq_true hfree) (by decide)
  · refine Code.obeys_write (fun s hs => hs.markTaken i) ?_
    refine inOrder_createFile hi hrank ?_
    rintro r (rfl | rfl)
    · exact hQ _ (by decide)
    · exact hQ _ (by simpa using hi)
  · exact hQ _ (by decide)

/-- The i-node is locked by the caller, so that the thread does not get behind the lock. -/
theorem inOrder_inodeDelete {Q : ℤ → Set LockName → Prop} (hslips : slips) (hz : validInumber z = true)
    (hl : .inode z.toNat ∈ held) : InOrder slips (Statements.inodeDelete z) held Q := by
  unfold Statements.inodeDelete
  rw [InOrder, Guarded.obeys_bind, inodeLockGet, if_pos hz]
  exact ⟨fun _ => hslips, fun hn => absurd hl hn⟩

/-- The root directory is locked below the lock of the file. -/
theorem inOrder_insertEntry {name : CString} {Q : ℤ → Set LockName → Prop}
    (hrank : ∀ k ∈ held, k.rank < 1) (hQ : ∀ r, Q r held) :
    InOrder slips (insertEntry rootDirInum z name) held Q := by
  have hroot : validInumber ((rootDirInum : ℕ) : ℤ) = true := by decide
  have hnot : LockName.inode rootDirInum ∉ held := fun h => absurd (hrank _ h) (Nat.lt_irrefl _)
  have hunlock : ∀ r : ℤ, InOrder slips (unlock (inodeLockGet rootDirInum))
      (insert (.inode rootDirInum) held) fun _ held => Q r held := by
    intro r
    refine inOrder_unlock hroot (Set.mem_insert _ _) ?_
    rw [Int.toNat_natCast, Set.insert_sdiff_self_of_notMem hnot]
    exact hQ r
  unfold insertEntry
  simp only [InOrder, Guarded.obeys_bind]
  refine inOrder_lock hroot hrank ?_
  refine inOrder_read fun s _ => ?_
  rcases dataBlockGet ((s.inodeTable (rootDirInum : ℤ).toNat).iDataBlock 0) with _ | dir
  · simp only [Guarded.obeys_bind]
    exact hunlock (-1)
  · simp only [Guarded.obeys_bind]
    exact inOrder_onDisk fun r => hunlock r

theorem inOrder_addDirEntry {subName : Option CString} {Q : ℤ → Set LockName → Prop}
    (hrank : ∀ k ∈ held, k.rank < 1) (hQ : ∀ r, Q r held) :
    InOrder slips (Statements.addDirEntry rootDirInum z subName) held Q := by
  unfold Statements.addDirEntry
  refine .ite (fun _ => hQ _) fun _ => ?_
  rw [Guarded.obeys_bind]
  refine inOrder_read fun s _ => .ite (fun _ => hQ _) fun _ => ?_
  rcases subName with _ | name
  · trivial
  · exact .ite (fun _ => hQ _) fun _ => inOrder_insertEntry hrank hQ

/-- The root directory has its block, so that its lock is given back. -/
theorem inOrder_lookUp {subName : CString} {Q : ℤ → Set LockName → Prop} (hQ : ∀ r, Q r ∅) :
    InOrder slips (lookUp rootDirInum subName) ∅ Q := by
  have hroot : validInumber ((rootDirInum : ℕ) : ℤ) = true := by decide
  unfold lookUp
  simp only [InOrder, Guarded.obeys_bind]
  refine inOrder_lock hroot (fun _ h => False.elim h) ?_
  refine inOrder_read fun s hs => ?_
  have hblock : validBlockNumber ((s.inodeTable (rootDirInum : ℤ).toNat).iDataBlock 0) = true := hs.rootBlock
  rw [dataBlockGet, if_pos hblock]
  simp only [Guarded.obeys_bind]
  refine inOrder_onDisk fun k => ?_
  rw [insert_empty_eq]
  refine inOrder_lastUnlock hroot ?_
  rcases k with _ | i
  · exact hQ _
  · exact inOrder_onDisk fun r => hQ r

theorem inOrder_tfsLookup {name : Path} {Q : ℤ → Set LockName → Prop} (hQ : ∀ r, Q r ∅) :
    InOrder slips (Statements.tfsLookup name) ∅ Q := by
  rcases name with _ | p
  · exact hQ _
  · refine .ite (fun _ => ?_) fun _ => hQ _
    refine .ite (fun _ => hQ _) fun _ => ?_
    rw [Guarded.obeys_bind]
    exact inOrder_read fun s _ => .ite (fun _ => hQ _) fun _ => inOrder_lookUp hQ

theorem obeys_fillHandle {offset : ℕ} {appendFlag : ℤ} {Q : Unit → Prop} (hz : validInumber z = true)
    (hQ : Q ()) : (fillHandle z offset appendFlag i).Obeys Grounded Q := by
  unfold fillHandle
  simp only [Code.obeys_bind]
  refine Code.obeys_write (fun s hs => hs.markHandle _) ?_
  refine Code.obeys_write (fun s hs => hs.setEntry hz) ?_
  refine obeys_setOffset ?_
  exact Code.obeys_write (fun s hs => hs.setEntry (hs.entries i)) hQ

theorem inOrder_addToOpenFileTable {offset : ℕ} {appendFlag : ℤ} {Q : ℤ → Set LockName → Prop}
    (hz : validInumber z = true) (hQ : ∀ r, Q r ∅) :
    InOrder slips (Statements.addToOpenFileTable z offset appendFlag) ∅ Q := by
  unfold Statements.addToOpenFileTable
  rw [InOrder, Guarded.obeys_bind]
  refine Guarded.obeys_scan (S := fun _ => True) (fun _ h => False.elim h) (fun i => ?_) (fun i _ => ?_) (hQ _)
    maxOpenFiles 0
  · exact Code.obeys_read fun _ _ _ => trivial
  · exact obeys_fillHandle hz (hQ _)

theorem inOrder_truncate {flags : ℤ} {Q : ℤ → Set LockName → Prop} (hQ : ∀ r, Q r held) :
    InOrder slips (truncate i flags) held Q := by
  unfold truncate
  refine .ite (fun _ => ?_) fun _ => hQ _
  rw [Guarded.obeys_bind]
  refine inOrder_read fun s _ => .ite (fun _ => ?_) fun _ => hQ _
  simp only [Guarded.obeys_bind]
  refine inOrder_read fun s _ => inOrder_onDisk fun r => .ite (fun _ => hQ _) fun _ => ?_
  rw [Guarded.obeys_bind]
  exact inOrder_setSize (hQ _)

theorem inOrder_openExisting {flags : ℤ} {Q : ℤ → Set LockName → Prop} (hslips : slips)
    (hQ : ∀ r, Q r ∅) : InOrder slips (Statements.openExisting z flags) ∅ Q := by
  unfold Statements.openExisting
  rw [InOrder, Guarded.obeys_bind]
  refine inOrder_firstLock hslips fun hz => ?_
  rw [inodeGet, if_pos hz]
  simp only [Guarded.obeys_bind]
  refine inOrder_truncate fun r => .ite (fun _ => ?_) fun _ => .ite (fun _ => ?_) fun _ => ?_
  · rw [Guarded.obeys_bind]
    exact inOrder_lastUnlock hz (hQ _)
  · simp only [Guarded.obeys_bind]
    refine inOrder_read fun s _ => inOrder_lastUnlock hz ?_
    exact inOrder_addToOpenFileTable hz hQ
  · rw [Guarded.obeys_bind]
    exact inOrder_lastUnlock hz (inOrder_addToOpenFileTable hz hQ)

theorem inOrder_openCreate {name : Path} {Q : ℤ → Set LockName → Prop} (hslips : slips)
    (hQ : ∀ r, Q r ∅) : InOrder slips (Statements.openCreate name) ∅ Q := by
  unfold Statements.openCreate
  simp only [InOrder, Guarded.obeys_bind]
  refine inOrder_inodeCreate (fun _ h => False.elim h) fun z hroot => ?_
  refine inOrder_firstLock hslips fun hz => ?_
  -- the new i-node comes before the root directory
  have hrank : ∀ k ∈ ({.inode z.toNat} : Set LockName), k.rank < 1 := by
    rintro k rfl
    have hne : z.toNat ≠ rootDirInum := by
      have hrange := validInumber_iff.1 hz
      have hzero : z ≠ 0 := hroot
      change z.toNat ≠ 0
      omega
    rw [LockName.rank, if_neg hne]
    exact Nat.zero_lt_one
  refine .ite (fun hfailed => ?_) fun _ => ?_
  · -- after a failed `inode_create` the lock is that of the null pointer
    rw [hfailed] at hz
    exact absurd hz (by decide)
  · rw [Guarded.obeys_bind]
    refine inOrder_addDirEntry hrank fun r => .ite (fun _ => ?_) fun _ => ?_
    · -- the directory is full: `inode_delete` with the i-node in hand
      rw [Guarded.obeys_bind]
      exact inOrder_inodeDelete hslips hz (Set.mem_singleton _)
    · rw [Guarded.obeys_bind]
      exact inOrder_lastUnlock hz (inOrder_addToOpenFileTable hz hQ)

theorem inOrder_tfsOpen {name : Path} {flags : ℤ} {Q : ℤ → Set LockName → Prop} (hslips : slips)
    (hQ : ∀ r, Q r ∅) : InOrder slips (Statements.tfsOpen name flags) ∅ Q := by
  unfold Statements.tfsOpen
  refine .ite (fun _ => hQ _) fun _ => ?_
  rw [Guarded.obeys_bind]
  refine inOrder_tfsLookup fun inum => .ite (fun _ => ?_) fun _ => .ite (fun _ => ?_) fun _ => hQ _
  · exact inOrder_openExisting hslips hQ
  · exact inOrder_openCreate hslips hQ

/-! ### `tfs_write` and `tfs_read` -/

/-- A row of block numbers in which no statement empties the block of the root directory: the slot that holds
it is never empty. -/
def SafeSlots (slots : BlockSlots) : Prop :=
  ∀ k, (∀ s, Grounded s → slots.get s k ≠ -1) ∨ ∀ s b, Grounded s → Grounded (slots.set s k b)

theorem safeSlots_directSlots : SafeSlots (directSlots i) := by
  intro k
  by_cases hroot : i = rootDirInum ∧ k = 0
  · left
    rcases hroot with ⟨rfl, rfl⟩
    intro s hs hempty
    have hblock : validBlockNumber ((s.inodeTable rootDirInum).iDataBlock 0) = true := hs.rootBlock
    rw [show (s.inodeTable rootDirInum).iDataBlock 0 = -1 from hempty] at hblock
    exact absurd hblock (by decide)
  · right
    intro s b hs
    refine hs.setInode ?_
    rintro rfl
    refine ⟨hs.rootDirectory, ?_⟩
    have hk : (0 : ℕ) ≠ k := fun h => hroot ⟨rfl, h.symm⟩
    change validBlockNumber (Function.update (s.inodeTable rootDirInum).iDataBlock k b 0) = true
    rw [Function.update_of_ne hk]
    exact hs.rootBlock

theorem safeSlots_indexSlots {a : ℕ} : SafeSlots (indexSlots a) :=
  fun _ => Or.inr fun _ _ hs => hs.setDisk _

theorem inOrder_allocSlot {slots : BlockSlots} {k : ℕ} {Q : Unit → Set LockName → Prop}
    (hslots : SafeSlots slots) (hrank : ∀ k ∈ held, k.rank < 2) (hQ : Q () held) :
    InOrder slips (Statements.allocSlot slots k) held Q := by
  unfold Statements.allocSlot
  rw [InOrder, Guarded.obeys_bind]
  refine inOrder_read fun s hs => .ite (fun hempty => ?_) fun _ => hQ
  rcases hslots k with hfull | hset
  · exact absurd hempty (hfull s hs)
  · rw [Guarded.obeys_bind]
    exact inOrder_dataBlockAlloc hrank fun b => inOrder_write (fun s hs => hset s b hs) hQ

theorem inOrder_store {dst : ℕ} {src : ℕ → Byte} {Q : Unit → Set LockName → Prop} (hQ : Q () held) :
    InOrder slips (store dst src n) held Q :=
  .ite (fun _ => trivial) fun _ => inOrder_onDisk fun _ => hQ

theorem inOrder_load {src : ℕ} {Q : List Byte → Set LockName → Prop} (hQ : ∀ r, Q r held) :
    InOrder slips (load src n) held Q :=
  .ite (fun _ => trivial) fun _ => inOrder_onDisk hQ

theorem inOrder_writeLoop {slots : BlockSlots} {buffer : ℕ → Byte} {toWrite : ℕ}
    {Q : LoopEnd ℕ → Set LockName → Prop} (hslots : SafeSlots slots) (hrank : ∀ k ∈ held, k.rank < 2)
    (hQ : ∀ r, Q r held) (left : ℕ) : ∀ index writen,
      InOrder slips (Statements.writeLoop slots h buffer toWrite left index writen) held Q := by
  induction left with
  | zero => exact fun _ _ => hQ _
  | succ left ih =>
      intro index writen
      unfold Statements.writeLoop
      refine .ite (fun _ => ?_) fun _ => hQ _
      simp only [Guarded.obeys_bind]
      refine inOrder_read fun s _ => inOrder_allocSlot hslots hrank ?_
      refine inOrder_read fun t _ => ?_
      rcases dataBlockGet (slots.get t index) with _ | block
      · exact hQ _
      · simp only [Guarded.obeys_bind]
        refine inOrder_read fun _ _ => inOrder_store ?_
        exact inOrder_read fun _ _ => inOrder_setOffset (ih _ _)

theorem inOrder_growFile {Q : Unit → Set LockName → Prop} (hQ : Q () held) :
    InOrder slips (Statements.growFile h i) held Q := by
  unfold Statements.growFile
  simp only [InOrder, Guarded.obeys_bind]
  refine inOrder_read fun _ _ => inOrder_read fun _ _ => .ite (fun _ => ?_) fun _ => hQ
  rw [Guarded.obeys_bind]
  exact inOrder_read fun _ _ => inOrder_setSize hQ

theorem inOrder_writeBlocks {buffer : ℕ → Byte} {toWrite index : ℕ} {Q : ℤ → Set LockName → Prop}
    (hrank : ∀ k ∈ held, k.rank < 2) (hQ : ∀ r, Q r held) :
    InOrder slips (Statements.writeBlocks h i buffer toWrite index) held Q := by
  unfold Statements.writeBlocks
  rw [InOrder, Guarded.obeys_bind]
  refine inOrder_writeLoop safeSlots_directSlots hrank ?_ _ _ _
  rintro (writen | ⟨index, writen⟩)
  · exact hQ _
  · simp only [Guarded.obeys_bind]
    refine inOrder_read fun s _ => ?_
    rcases dataBlockGet (s.inodeTable i).iIndexBlock with _ | a
    · exact hQ _
    · simp only [Guarded.obeys_bind]
      refine inOrder_writeLoop safeSlots_indexSlots hrank ?_ _ _ _
      rintro (writen | ⟨_, writen⟩)
      · exact hQ _
      · rw [Guarded.obeys_bind]
        exact inOrder_growFile (hQ _)

theorem inOrder_seekForAppend {Q : Unit → Set LockName → Prop} (hQ : Q () held) :
    InOrder slips (Statements.seekForAppend h i) held Q := by
  unfold Statements.seekForAppend
  rw [InOrder, Guarded.obeys_bind]
  refine inOrder_read fun _ _ => .ite (fun _ => ?_) fun _ => hQ
  rw [Guarded.obeys_bind]
  exact inOrder_read fun _ _ => inOrder_setOffset hQ

/-- The lock of an i-node that the open file table names. -/
theorem inOrder_entryLock {Q : Unit → Set LockName → Prop} (hz : validInumber z = true)
    (hQ : Q () {.inode z.toNat}) : InOrder slips (lock (inodeLockGet z)) ∅ Q := by
  refine inOrder_lock hz (fun _ h => False.elim h) ?_
  rw [insert_empty_eq]
  exact hQ

theorem inOrder_tfsWrite {fhandle : ℤ} {buffer : ℕ → Byte} {toWrite : ℕ} {Q : ℤ → Set LockName → Prop}
    (hQ : ∀ r, Q r ∅) : InOrder slips (Statements.tfsWrite fhandle buffer toWrite) ∅ Q := by
  unfold Statements.tfsWrite
  rcases getOpenFileEntry fhandle with _ | h
  · exact hQ _
  refine .ite (fun _ => hQ _) fun _ => ?_
  rw [Guarded.obeys_bind]
  refine inOrder_read fun s _ => ?_
  rcases inodeGet (s.openFileTable h).ofInumber with _ | i
  · exact hQ _
  simp only [Guarded.obeys_bind]
  refine inOrder_seekForAppend ?_
  refine inOrder_read fun t ht => inOrder_entryLock (ht.entries h) ?_
  refine inOrder_read fun u _ => .ite (fun _ => trivial) fun _ => ?_
  simp only [Guarded.obeys_bind]
  refine inOrder_writeBlocks rank_inode_lt fun r => ?_
  exact inOrder_lastUnlock (ht.entries h) (hQ r)

theorem inOrder_readLoop {slots : BlockSlots} {bound : ℕ → ℕ} {toRead : ℕ}
    {Q : LoopEnd (List Byte) → Set LockName → Prop} (hQ : ∀ r, Q r held) (left : ℕ) : ∀ index out,
      InOrder slips (Statements.readLoop slots bound h toRead left index out) held Q := by
  induction left with
  | zero => exact fun _ _ => hQ _
  | succ left ih =>
      intro index out
      unfold Statements.readLoop
      refine .ite (fun _ => ?_) fun _ => hQ _
      simp only [Guarded.obeys_bind]
      refine inOrder_read fun _ _ => inOrder_read fun t _ => ?_
      rcases dataBlockGet (slots.get t index) with _ | block
      · exact hQ _
      · simp only [Guarded.obeys_bind]
        refine inOrder_read fun _ _ => inOrder_load fun bytes => ?_
        exact inOrder_read fun _ _ => inOrder_setOffset (ih _ _)

theorem inOrder_readBlocks {toRead index : ℕ} {Q : ℤ × List Byte → Set LockName → Prop}
    (hQ : ∀ r, Q r held) : InOrder slips (Statements.readBlocks h i toRead index) held Q := by
  unfold Statements.readBlocks
  rw [InOrder, Guarded.obeys_bind]
  refine inOrder_readLoop ?_ _ _ _
  rintro (out | ⟨index, out⟩)
  · exact hQ _
  · simp only [Guarded.obeys_bind]
    refine inOrder_read fun s _ => ?_
    rcases dataBlockGet (s.inodeTable i).iIndexBlock with _ | a
    · exact hQ _
    · simp only [Guarded.obeys_bind]
      refine inOrder_readLoop ?_ _ _ _
      rintro (out | ⟨_, out⟩)
      · exact hQ _
      · exact hQ _

theorem inOrder_clampOffset {Q : Unit → Set LockName → Prop} (hQ : Q () held) :
    InOrder slips (Statements.clampOffset h i) held Q := by
  unfold Statements.clampOffset
  simp only [InOrder, Guarded.obeys_bind]
  refine inOrder_read fun _ _ => inOrder_read fun _ _ => .ite (fun _ => ?_) fun _ => hQ
  rw [Guarded.obeys_bind]
  exact inOrder_read fun _ _ => inOrder_setOffset hQ

theorem inOrder_tfsRead {fhandle : ℤ} {len : ℕ} {Q : ℤ × List Byte → Set LockName → Prop}
    (hQ : ∀ r, Q r ∅) : InOrder slips (Statements.tfsRead fhandle len) ∅ Q := by
  unfold Statements.tfsRead
  rcases getOpenFileEntry fhandle with _ | h
  · exact hQ _
  rw [InOrder, Guarded.obeys_bind]
  refine inOrder_read fun s _ => ?_
  rcases inodeGet (s.openFileTable h).ofInumber with _ | i
  · exact hQ _
  simp only [Guarded.obeys_bind]
  refine inOrder_read fun t ht => inOrder_entryLock (ht.entries h) ?_
  refine inOrder_clampOffset ?_
  refine inOrder_read fun _ _ => inOrder_read fun _ _ => inOrder_read fun _ _ => ?_
  refine .ite (fun _ => trivial) fun _ => ?_
  simp only [Guarded.obeys_bind]
  exact inOrder_readBlocks fun r => inOrder_lastUnlock (ht.entries h) (hQ r)

theorem inOrder_removeFromOpenFileTable {Q : ℤ → Set LockName → Prop} (hQ : ∀ r, Q r ∅) :
    InOrder slips (Statements.removeFromOpenFileTable z) ∅ Q := by
  have hunlock : ∀ r : ℤ, InOrder slips (unlock (some .openFileTable)) (insert .openFileTable ∅)
      fun _ held => Q r held := by
    intro r
    refine Guarded.obeys_release (Set.mem_insert _ _) ?_
    rw [Set.insert_sdiff_self_of_notMem (Set.notMem_empty _)]
    exact hQ r
  unfold Statements.removeFromOpenFileTable
  rw [InOrder, Guarded.obeys_bind]
  refine Guarded.obeys_acquire (fun _ h => False.elim h) (.ite (fun _ => ?_) fun _ => ?_)
  · rw [Guarded.obeys_bind]
    exact hunlock (-1)
  · rw [Guarded.obeys_bind]
    refine inOrder_read fun s _ => .ite (fun _ => ?_) fun _ => ?_
    · rw [Guarded.obeys_bind]
      exact hunlock (-1)
    · simp only [Guarded.obeys_bind]
      exact inOrder_write (fun s hs => hs.markHandle _) (hunlock 0)

/-- Every call of the library keeps the order of the locks, and gives back what it locks. -/
theorem inOrder_body (c : Call) : InOrder c.Opens (body c) ∅ fun _ held => held = ∅ := by
  cases c with
  | «open» name flags =>
      rw [InOrder, body, Guarded.obeys_bind]
      exact inOrder_tfsOpen trivial fun _ => rfl
  | close fhandle =>
      rw [InOrder, body, Guarded.obeys_bind]
      exact inOrder_removeFromOpenFileTable fun _ => rfl
  | write fhandle buffer len =>
      rw [InOrder, body, Guarded.obeys_bind]
      exact inOrder_tfsWrite fun _ => rfl
  | read fhandle len =>
      rw [InOrder, body, Guarded.obeys_bind]
      exact inOrder_tfsRead fun _ => rfl

end Statements

/-! ## The threads -/

section Threads

variable {ι : Type} [DecidableEq ι]

/-- The threads `ι` call the library after `tfs_init`. -/
def callers (ι : Type) [DecidableEq ι] :
    System (Guarded.World LockName State Call Reply ι) (Guarded.Label Call ι) :=
  Guarded.threads body ι tfsInit.2

/-- **No deadlock.** In every run of threads that call the library, the calls that have returned hold no lock;
while a call is under way some thread can go on, unless one has come to an access without a meaning or has
gone astray at a lock in `tfs_open`; and the calls under way come to an end, however the threads take
turns. -/
theorem deadlockFree [Fintype ι] {w : Guarded.World LockName State Call Reply ι}
    (hr : (callers ι).Reachable w) :
    (∀ i, w.thread i = none → ∀ l, w.owner l ≠ some i) ∧
      ((∃ i, w.thread i ≠ none) →
        (∃ i w', w.advance i = some w') ∨ ∃ i, w.Astray Call.Opens i) ∧
      ∀ f : ℕ → Guarded.World LockName State Call Reply ι, f 0 = w →
        ∃ n, ∀ i, (f n).advance i ≠ some (f (n + 1)) := by
  have hw : Guarded.Fits LockName.rank Grounded Call.Opens w :=
    Guarded.fits_of_reachable grounded_tfsInit inOrder_body hr
  refine ⟨?_, ?_, ?_⟩
  · intro i hi l howner
    have hmem : l ∈ w.held i := howner
    rw [hw.idle i hi] at hmem
    exact hmem
  · rintro ⟨i, hi⟩
    exact hw.goesOn LockName.rank_le hi
  · -- a schedule that never stops would have no world with the least left to do
    intro f _
    rcases Guarded.wellFounded_advance.has_min (Set.range f) ⟨f 0, Set.mem_range_self 0⟩ with
      ⟨_, ⟨n, rfl⟩, hmin⟩
    exact ⟨n, fun i hstep => hmin (f (n + 1)) (Set.mem_range_self _) ⟨i, hstep⟩⟩

/-- Thread `true` looks for a file while thread `false` has the root directory locked. -/
def lookingUp : List (Guarded.Label Call Bool) :=
  [.call false (.open (some slashA) 0), .advance false, .advance false,
    .call true (.open (some slashA) 0), .advance true, .advance false]

theorem performAll_lookingUp :
    (System.performAll (System.record (Guarded.perform body)) lookingUp
      ([], Guarded.World.start LockName Call Reply Bool tfsInit.2)).any
        (fun x => ((x.2.thread true).isSome && (x.2.advance true).isNone) = true) = true := by
  rw [tfsInit_eq]
  decide +kernel

theorem deadlockFree_lookingUp : ∃ w : Guarded.World LockName State Call Reply Bool,
    (callers Bool).Reachable w ∧ w.advance true = none ∧
      ((∃ i w', w.advance i = some w') ∨ ∃ i, w.Astray Call.Opens i) := by
  have hinit : (callers Bool).init (Guarded.World.start LockName Call Reply Bool tfsInit.2) := by
    rw [callers, Guarded.threads]
  rcases System.execution_of_any (Guarded.perform body) (fun _ _ _ hst => hst) hinit performAll_lookingUp with
    ⟨h, w, he, _, hw⟩
  rcases Bool.and_eq_true_iff.1 hw with ⟨hsome, hnone⟩
  have hbusy : ∃ i, w.thread i ≠ none := ⟨true, Option.isSome_iff_ne_none.1 hsome⟩
  exact ⟨w, ⟨h, he⟩, Option.isNone_iff_eq_none.1 hnone, (deadlockFree ⟨h, he⟩).2.1 hbusy⟩

end Threads

end Tfs
end TecnicoFs
