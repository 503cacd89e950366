import TecnicoFs.Lib.Transition
import TecnicoFs.Tfs.State

/-!
# Multi-block allocators — threads that take and release numbers at the same time

`inode_create`, `data_block_alloc` and `add_to_open_file_table` scan a table and lock it anew for each
entry. A call is cut at these locks: each test-and-set of an entry is a step, with the fields of the entry
for the open file table, and the return of the number that it takes. `data_block_free` and
`remove_from_open_file_table` are one step each. `inode_create` calls `data_block_alloc` between taking the
i-node and filling it. A thread that runs alone computes what the functions of `state.c` compute.
-/

namespace TecnicoFs
namespace Tfs
namespace Allocators

open Lib

/-! ## Tables, calls and what others can see of them -/

inductive Table
  | inodes
  | blocks
  | handles
  deriving DecidableEq

def Table.size : Table → ℕ
  | .inodes => inodeTableSize
  | .blocks => dataBlocks
  | .handles => maxOpenFiles

/-- `freeinode_ts`, `free_blocks` and `free_open_file_entries` -/
def Table.marks : Table → State → ℕ → AllocationState
  | .inodes, s => s.freeinodeTs
  | .blocks, s => s.disk.freeBlocks
  | .handles, s => s.freeOpenFileEntries

inductive Call
  | inodeCreate (nType : InodeType)
  | dataBlockAlloc
  | dataBlockFree (blockNumber : ℤ)
  | addToOpenFileTable (inumber : ℤ) (offset : ℕ) (appendFlag : ℤ)
  | removeFromOpenFileTable (fhandle : ℤ)

/-- What a step makes known: a number is returned to the caller, -1 is returned at the end of a scan, or an
entry is released. -/
inductive Event
  | returned (T : Table) (k : ℕ)
  | exhausted (T : Table)
  | released (T : Table) (k : ℕ)
  deriving DecidableEq

/-! ## Steps of a thread -/

/-- Where a thread stands in its call; `inodeBlock` is the scan of `data_block_alloc` for the i-node
`inumber`, and `fillInode` has the block number that it returned. -/
inductive Pc
  | idle
  | takeInode (nType : InodeType) (k : ℕ)
  | initInode (nType : InodeType) (inumber : ℕ)
  | inodeBlock (nType : InodeType) (inumber k : ℕ)
  | fillInode (nType : InodeType) (inumber : ℕ) (b : ℤ)
  | takeBlock (k : ℕ)
  | freeBlock (blockNumber : ℤ)
  | takeEntry (inumber : ℤ) (offset : ℕ) (appendFlag : ℤ) (k : ℕ)
  | freeEntry (fhandle : ℤ)

structure Outcome where
  pc : Pc
  lib : State
  event : Option Event

/-- The look at entry `k`, under the lock of the table: a free entry is taken. -/
def look (T : Table) (k : ℕ) (s : State) (found : Outcome) (next full : Pc) : Outcome :=
  if k < T.size then
    if T.marks s k = .free then found else ⟨next, s, none⟩
  else
    ⟨full, s, some (.exhausted T)⟩

def takeInodeStep (nType : InodeType) (k : ℕ) (s : State) : Outcome :=
  look .inodes k s ⟨.initInode nType k, s.markInode k .taken, none⟩ (.takeInode nType (k + 1)) .idle

/-- The fields that `inode_create` sets before it calls `data_block_alloc`. -/
def initInodeStep (nType : InodeType) (inumber : ℕ) (s : State) : Outcome :=
  match nType with
  | .directory =>
      ⟨.inodeBlock .directory inumber 0, s.setInode inumber (emptyDirectory (s.inodeTable inumber)), none⟩
  | .file =>
      ⟨.inodeBlock .file inumber 0,
        s.setInode inumber { s.inodeTable inumber with
          iNodeType := .file
          iSize := 0
          iDataBlock := fun _ => -1 }, none⟩

def inodeBlockStep (nType : InodeType) (inumber k : ℕ) (s : State) : Outcome :=
  look .blocks k s
    ⟨.fillInode nType inumber k, s.setDisk (s.disk.markBlock k .taken), some (.returned .blocks k)⟩
    (.inodeBlock nType inumber (k + 1)) (.fillInode nType inumber (-1))

/-- The i-node of a new directory with its block. -/
def setDirectoryBlock (inumber : ℕ) (b : ℤ) (s : State) : State :=
  s.setInode inumber { s.inodeTable inumber with
    iSize := blockSize
    iDataBlock := Function.update (s.inodeTable inumber).iDataBlock 0 b
    iIndexBlock := -1 }

def setIndexBlock (inumber : ℕ) (b : ℤ) (s : State) : State :=
  s.setInode inumber { s.inodeTable inumber with iIndexBlock := b }

/-- The rest of `inode_create`, with the result of `data_block_alloc`. -/
def fillInodeStep (nType : InodeType) (inumber : ℕ) (b : ℤ) (s : State) : Outcome :=
  match nType with
  | .directory =>
      if b = -1 then
        -- without the lock
        ⟨.idle, s.markInode inumber .free, some (.released .inodes inumber)⟩
      else
        let s := setDirectoryBlock inumber b s
        match dataBlockGet b with
        | none => ⟨.idle, s.markInode inumber .free, some (.released .inodes inumber)⟩
        | some dir =>
            ⟨.idle, s.setData (clearEntries s.disk.fsData dir maxDirEntries), some (.returned .inodes inumber)⟩
  | .file =>
      let s := setIndexBlock inumber b s
      match dataBlockGet b with
      -- -1 is returned, and the i-node stays taken
      | none => ⟨.idle, s, none⟩
      | some a => ⟨.idle, s.setData (fillIndexBlock s.disk.fsData a), some (.returned .inodes inumber)⟩

def takeBlockStep (k : ℕ) (s : State) : Outcome :=
  look .blocks k s ⟨.idle, s.setDisk (s.disk.markBlock k .taken), some (.returned .blocks k)⟩
    (.takeBlock (k + 1)) .idle

def freeBlockStep (blockNumber : ℤ) (s : State) : Outcome :=
  let (r, d) := s.disk.dataBlockFree blockNumber
  ⟨.idle, s.setDisk d, if r = -1 then none else some (.released .blocks blockNumber.toNat)⟩

def takeEntryStep (inumber : ℤ) (offset : ℕ) (appendFlag : ℤ) (k : ℕ) (s : State) : Outcome :=
  look .handles k s
    ⟨.idle, (s.markHandle k .taken).setEntry k ⟨inumber, offset, appendFlag⟩, some (.returned .handles k)⟩
    (.takeEntry inumber offset appendFlag (k + 1)) .idle

def freeEntryStep (fhandle : ℤ) (s : State) : Outcome :=
  let (r, s) := removeFromOpenFileTable fhandle s
  ⟨.idle, s, if r = -1 then none else some (.released .handles fhandle.toNat)⟩

/-- The next step of a thread; an idle thread has none. -/
def advance : Pc → State → Option Outcome
  | .idle, _ => none
  | .takeInode nType k, s => some (takeInodeStep nType k s)
  | .initInode nType inumber, s => some (initInodeStep nType inumber s)
  | .inodeBlock nType inumber k, s => some (inodeBlockStep nType inumber k s)
  | .fillInode nType inumber b, s => some (fillInodeStep nType inumber b s)
  | .takeBlock k, s => some (takeBlockStep k s)
  | .freeBlock blockNumber, s => some (freeBlockStep blockNumber s)
  | .takeEntry inumber offset appendFlag k, s => some (takeEntryStep inumber offset appendFlag k s)
  | .freeEntry fhandle, s => some (freeEntryStep fhandle s)

/-- The first step of a call. -/
def Call.entry : Call → Pc
  | .inodeCreate nType => .takeInode nType 0
  | .dataBlockAlloc => .takeBlock 0
  | .dataBlockFree blockNumber => .freeBlock blockNumber
  | .addToOpenFileTable inumber offset appendFlag => .takeEntry inumber offset appendFlag 0
  | .removeFromOpenFileTable fhandle => .freeEntry fhandle

/-! ## Interleavings -/

structure World where
  lib : State
  pc : ℕ → Pc

def World.start (s : State) : World where
  lib := s
  pc := fun _ => .idle

namespace World

variable (w : World) (t : ℕ)

def goto (pc : Pc) : World :=
  { w with pc := Function.update w.pc t pc }

def after (o : Outcome) : World :=
  ⟨o.lib, Function.update w.pc t o.pc⟩

end World

inductive Label
  | call (t : ℕ) (c : Call)
  | step (t : ℕ)

def perform : Label → World → Option World
  | .call t c, w =>
      match w.pc t with
      | .idle => some (w.goto t c.entry)
      | _ => none
  | .step t, w => (advance (w.pc t) w.lib).map (w.after t)

/-- What a step makes known. -/
def event (w : World) : Label → Option Event
  | .call _ _ => none
  | .step t => (advance (w.pc t) w.lib).bind Outcome.event

/-- Any number of threads call these functions, from the tables of `s₀` on. -/
def allocators (s₀ : State) : System World Label where
  init w := w = World.start s₀
  step w a w' := perform a w = some w'

/-! ## What the steps do -/

/-- A look finds the entry free, finds it taken, or finds the end of the table. -/
theorem look_cases (T : Table) (k : ℕ) (s : State) (found : Outcome) (next full : Pc) :
    (k < T.size ∧ T.marks s k = .free ∧ look T k s found next full = found) ∨
    (k < T.size ∧ T.marks s k = .taken ∧ look T k s found next full = ⟨next, s, none⟩) ∨
    (T.size ≤ k ∧ look T k s found next full = ⟨full, s, some (.exhausted T)⟩) := by
  unfold look
  by_cases hlt : k < T.size
  · by_cases hfree : T.marks s k = .free
    · exact Or.inl ⟨hlt, hfree, by rw [if_pos hlt, if_pos hfree]⟩
    · exact Or.inr (Or.inl ⟨hlt, AllocationState.ne_free.1 hfree, by rw [if_pos hlt, if_neg hfree]⟩)
  · exact Or.inr (Or.inr ⟨Nat.not_lt.1 hlt, by rw [if_neg hlt]⟩)

/-- All marks and the open file table stay. -/
structure SameTables (s s' : State) : Prop where
  marks : ∀ T : Table, T.marks s' = T.marks s
  entries : s'.openFileTable = s.openFileTable

section Steps

variable {s s' : State}

theorem sameTables_of (hinodes : s'.freeinodeTs = s.freeinodeTs)
    (hblocks : s'.disk.freeBlocks = s.disk.freeBlocks)
    (hhandles : s'.freeOpenFileEntries = s.freeOpenFileEntries)
    (hentries : s'.openFileTable = s.openFileTable) : SameTables s s' := by
  refine ⟨?_, hentries⟩
  intro T
  cases T with
  | inodes => exact hinodes
  | blocks => exact hblocks
  | handles => exact hhandles

theorem initInodeStep_cases (nType : InodeType) (i : ℕ) (s : State) :
    ∃ s', initInodeStep nType i s = ⟨.inodeBlock nType i 0, s', none⟩ ∧ SameTables s s' := by
  cases nType with
  | file => exact ⟨_, rfl, sameTables_of rfl rfl rfl rfl⟩
  | directory => exact ⟨_, rfl, sameTables_of rfl rfl rfl rfl⟩

/-- `inode_create` returns its i-node, or releases it, or returns -1 and keeps it taken. -/
theorem fillInodeStep_cases (nType : InodeType) (i : ℕ) (b : ℤ) (s : State) :
    ∃ s', SameTables s s' ∧
      (fillInodeStep nType i b s = ⟨.idle, s', some (.returned .inodes i)⟩ ∨
        fillInodeStep nType i b s = ⟨.idle, s'.markInode i .free, some (.released .inodes i)⟩ ∨
        fillInodeStep nType i b s = ⟨.idle, s', none⟩) := by
  cases nType with
  | file =>
      rcases hget : dataBlockGet b with _ | a
      · refine ⟨setIndexBlock i b s, sameTables_of rfl rfl rfl rfl, Or.inr (Or.inr ?_)⟩
        simp only [fillInodeStep, hget]
      · refine ⟨(setIndexBlock i b s).setData (fillIndexBlock s.disk.fsData a),
          sameTables_of rfl rfl rfl rfl, Or.inl ?_⟩
        simp only [fillInodeStep, hget]
        rfl
  | directory =>
      -- a directory gives its i-node back, with or without a block
      by_cases hb : b = -1
      · refine ⟨s, sameTables_of rfl rfl rfl rfl, Or.inr (Or.inl ?_)⟩
        simp only [fillInodeStep, hb, if_true]
      · rcases hget : dataBlockGet b with _ | dir
        · refine ⟨setDirectoryBlock i b s, sameTables_of rfl rfl rfl rfl, Or.inr (Or.inl ?_)⟩
          simp only [fillInodeStep, hb, if_false, hget]
        · refine ⟨(setDirectoryBlock i b s).setData (clearEntries s.disk.fsData dir maxDirEntries),
            sameTables_of rfl rfl rfl rfl, Or.inl ?_⟩
          simp only [fillInodeStep, hb, if_false, hget]
          rfl

theorem freeBlockStep_cases (b : ℤ) (s : State) :
    (∃ k < 1024, freeBlockStep b s =
      ⟨.idle, s.setDisk (s.disk.markBlock k .free), some (.released .blocks k)⟩) ∨
      freeBlockStep b s = ⟨.idle, s, none⟩ := by
  by_cases hb : 0 ≤ b ∧ b < 1024
  · left
    obtain ⟨k, rfl⟩ := Int.eq_ofNat_of_zero_le hb.1
    refine ⟨k, by omega, ?_⟩
    simp [freeBlockStep, Disk.dataBlockFree_of_valid (show k < 1024 by omega)]
  · right
    simp [freeBlockStep, Disk.dataBlockFree_of_not_valid hb, State.setDisk]

theorem freeEntryStep_cases (fhandle : ℤ) (s : State) :
    (∃ k < 20, s.freeOpenFileEntries k = .taken ∧ freeEntryStep fhandle s =
      ⟨.idle, s.markHandle k .free, some (.released .handles k)⟩) ∨
      freeEntryStep fhandle s = ⟨.idle, s, none⟩ := by
  by_cases hv : validFileHandle fhandle = true
  · rcases validFileHandle_iff.1 hv with ⟨hlo, hhi⟩
    obtain ⟨k, rfl⟩ := Int.eq_ofNat_of_zero_le hlo
    by_cases htaken : s.freeOpenFileEntries k = .taken
    · exact Or.inl ⟨k, by omega, htaken, by simp [freeEntryStep, removeFromOpenFileTable, hv, htaken]⟩
    · exact Or.inr (by simp [freeEntryStep, removeFromOpenFileTable, htaken])
  · exact Or.inr (by simp [freeEntryStep, removeFromOpenFileTable, hv])

end Steps

/-- A scan of the table stands at entry `k`; `next` looks at the entry behind it, and `full` is where the scan
goes on that finds no entry. -/
inductive Scans : Table → ℕ → Pc → Pc → Pc → Prop
  | takeInode (nType : InodeType) (k : ℕ) : Scans .inodes k (.takeInode nType k) (.takeInode nType (k + 1)) .idle
  | inodeBlock (nType : InodeType) (i k : ℕ) :
      Scans .blocks k (.inodeBlock nType i k) (.inodeBlock nType i (k + 1)) (.fillInode nType i (-1))
  | takeBlock (k : ℕ) : Scans .blocks k (.takeBlock k) (.takeBlock (k + 1)) .idle
  | takeEntry (inumber : ℤ) (offset : ℕ) (appendFlag : ℤ) (k : ℕ) :
      Scans .handles k (.takeEntry inumber offset appendFlag k) (.takeEntry inumber offset appendFlag (k + 1)) .idle

/-- All that a step can do. -/
inductive Moves (s : State) : Pc → Outcome → Prop
  | pass {T : Table} {k : ℕ} {pc next full : Pc} : Scans T k pc next full → Moves s pc ⟨next, s, none⟩
  | giveUp {T : Table} {k : ℕ} {pc next full : Pc} :
      Scans T k pc next full → T.size ≤ k → Moves s pc ⟨full, s, some (.exhausted T)⟩
  | takeInode {nType : InodeType} {k : ℕ} :
      s.freeinodeTs k = .free → Moves s (.takeInode nType k) ⟨.initInode nType k, s.markInode k .taken, none⟩
  | inodeBlock {nType : InodeType} {i k : ℕ} : k < dataBlocks → s.disk.freeBlocks k = .free →
      Moves s (.inodeBlock nType i k)
        ⟨.fillInode nType i k, s.setDisk (s.disk.markBlock k .taken), some (.returned .blocks k)⟩
  | takeBlock {k : ℕ} : k < dataBlocks → s.disk.freeBlocks k = .free →
      Moves s (.takeBlock k) ⟨.idle, s.setDisk (s.disk.markBlock k .taken), some (.returned .blocks k)⟩
  | takeEntry {inumber appendFlag : ℤ} {offset k : ℕ} : k < maxOpenFiles → s.freeOpenFileEntries k = .free →
      Moves s (.takeEntry inumber offset appendFlag k)
        ⟨.idle, (s.markHandle k .taken).setEntry k ⟨inumber, offset, appendFlag⟩, some (.returned .handles k)⟩
  | initInode {nType : InodeType} {i : ℕ} {s' : State} :
      SameTables s s' → Moves s (.initInode nType i) ⟨.inodeBlock nType i 0, s', none⟩
  | returned {nType : InodeType} {i : ℕ} {b : ℤ} {s' : State} :
      SameTables s s' → Moves s (.fillInode nType i b) ⟨.idle, s', some (.returned .inodes i)⟩
  | released {nType : InodeType} {i : ℕ} {b : ℤ} {s' : State} : SameTables s s' →
      Moves s (.fillInode nType i b) ⟨.idle, s'.markInode i .free, some (.released .inodes i)⟩
  | kept {nType : InodeType} {i : ℕ} {b : ℤ} {s' : State} :
      SameTables s s' → Moves s (.fillInode nType i b) ⟨.idle, s', none⟩
  | freeBlock {b : ℤ} {k : ℕ} :
      Moves s (.freeBlock b) ⟨.idle, s.setDisk (s.disk.markBlock k .free), some (.released .blocks k)⟩
  | freeEntry {fhandle : ℤ} {k : ℕ} :
      Moves s (.freeEntry fhandle) ⟨.idle, s.markHandle k .free, some (.released .handles k)⟩
  | refused {pc : Pc} : (∃ b, pc = .freeBlock b) ∨ (∃ fhandle, pc = .freeEntry fhandle) →
      Moves s pc ⟨.idle, s, none⟩

theorem Moves.look {T : Table} {k : ℕ} {s : State} {pc next full : Pc} {found : Outcome}
    (hscan : Scans T k pc next full) (hfound : k < T.size → T.marks s k = .free → Moves s pc found) :
    Moves s pc (look T k s found next full) := by
  rcases look_cases T k s found next full with ⟨hlt, hfree, hEq⟩ | ⟨_, _, hEq⟩ | ⟨hend, hEq⟩
  · rw [hEq]
    exact hfound hlt hfree
  · rw [hEq]
    exact .pass hscan
  · rw [hEq]
    exact .giveUp hscan hend

theorem moves_of_advance {s : State} {pc : Pc} {o : Outcome} (h : advance pc s = some o) : Moves s pc o := by
  cases pc with
  | idle => cases h
  | takeInode nType k =>
      cases h
      exact .look (.takeInode nType k) fun _ hfree => .takeInode hfree
  | initInode nType i =>
      rcases initInodeStep_cases nType i s with ⟨s', hEq, hsame⟩
      rw [advance, hEq] at h
      cases h
      exact .initInode hsame
  | inodeBlock nType i k =>
      cases h
      exact .look (.inodeBlock nType i k) .inodeBlock
  | fillInode nType i b =>
      rw [advance] at h
      -- the i-node is filled, or it has no block: a directory is released then, a file is kept
      rcases fillInodeStep_cases nType i b s with ⟨s', hsame, hEq | hEq | hEq⟩
      · rw [hEq] at h
        cases h
        exact .returned hsame
      · rw [hEq] at h
        cases h
        exact .released hsame
      · rw [hEq] at h
        cases h
        exact .kept hsame
  | takeBlock k =>
      cases h
      exact .look (.takeBlock k) .takeBlock
  | freeBlock b =>
      rw [advance] at h
      rcases freeBlockStep_cases b s with ⟨k, _, hEq⟩ | hEq
      · rw [hEq] at h
        cases h
        exact .freeBlock
      · rw [hEq] at h
        cases h
        exact .refused (Or.inl ⟨b, rfl⟩)
  | takeEntry inumber offset appendFlag k =>
      cases h
      exact .look (.takeEntry inumber offset appendFlag k) .takeEntry
  | freeEntry fhandle =>
      rw [advance] at h
      rcases freeEntryStep_cases fhandle s with ⟨k, _, _, hEq⟩ | hEq
      · rw [hEq] at h
        cases h
        exact .freeEntry
      · rw [hEq] at h
        cases h
        exact .refused (Or.inr ⟨fhandle, rfl⟩)

/-! ## A thread alone -/

/-- Without steps of other threads, the call goes on from `pc` in `s` and returns in `s'`, with what its last
step makes known. -/
inductive Alone : Pc → State → Option Event → State → Prop
  | last {pc : Pc} {s : State} {o : Outcome} :
      advance pc s = some o → o.pc = .idle → Alone pc s o.event o.lib
  | next {pc : Pc} {s s' : State} {o : Outcome} {e : Option Event} :
      advance pc s = some o → Alone o.pc o.lib e s' → Alone pc s e s'

/-- The result of a scan, as its last step makes it known. -/
def scanned (T : Table) (r : ℤ) : Event :=
  if r = -1 then .exhausted T else .returned T r.toNat

section Alone

variable {s s' : State} {T : Table} {scan : ℕ → Pc} {found : ℕ → Outcome} {full : Pc} {e : Option Event}

/-- A scan passes the entries that are TAKEN. -/
theorem alone_pass (hscan : ∀ k, advance (scan k) s = some (look T k s (found k) (scan (k + 1)) full)) {m : ℕ}
    (hm : m ≤ T.size) (htaken : ∀ k < m, T.marks s k = .taken) (hrest : Alone (scan m) s e s') :
    Alone (scan 0) s e s' := by
  induction m with
  | zero => exact hrest
  | succ m ih =>
      -- entry `m` is TAKEN, and the scan goes on behind it
      have hpass : look T m s (found m) (scan (m + 1)) full = ⟨scan (m + 1), s, none⟩ := by
        rcases look_cases T m s (found m) (scan (m + 1)) full with ⟨_, hfree, _⟩ | ⟨_, _, hEq⟩ | ⟨hend, _⟩
        · rw [htaken m (Nat.lt_succ_self m)] at hfree
          cases hfree
        · exact hEq
        · omega
      have hstep := hscan m
      rw [hpass] at hstep
      exact ih (by omega) (fun k hk => htaken k (by omega)) (.next hstep hrest)

/-- A scan takes the first free entry. -/
theorem alone_found (hscan : ∀ k, advance (scan k) s = some (look T k s (found k) (scan (k + 1)) full)) {m : ℕ}
    (hm : firstFree (T.marks s) T.size = some m)
    (hrest : advance (scan m) s = some (found m) → Alone (scan m) s e s') : Alone (scan 0) s e s' := by
  rcases firstFree_eq_some.1 hm with ⟨hlt, hfree, hbefore⟩
  refine alone_pass hscan hlt.le hbefore (hrest ?_)
  rw [hscan m, look, if_pos hlt, if_pos hfree]

/-- A scan of a full table returns -1. -/
theorem alone_exhausted (hscan : ∀ k, advance (scan k) s = some (look T k s (found k) (scan (k + 1)) full))
    (hnone : firstFree (T.marks s) T.size = none)
    (hrest : advance (scan T.size) s = some ⟨full, s, some (.exhausted T)⟩ → Alone (scan T.size) s e s') :
    Alone (scan 0) s e s' := by
  refine alone_pass hscan le_rfl (firstFree_eq_none.1 hnone) (hrest ?_)
  rw [hscan T.size, look, if_neg (Nat.lt_irrefl _)]

theorem alone_dataBlockAlloc (s : State) :
    Alone (Call.entry .dataBlockAlloc) s (some (scanned .blocks s.disk.dataBlockAlloc.1))
      (s.setDisk s.disk.dataBlockAlloc.2) := by
  have hscan : ∀ k, advance (.takeBlock k) s = some (takeBlockStep k s) := fun _ => rfl
  unfold Disk.dataBlockAlloc
  rcases hfirst : firstFree s.disk.freeBlocks dataBlocks with _ | b
  · exact alone_exhausted (T := .blocks) hscan hfirst fun hlast => .last hlast rfl
  · exact alone_found (T := .blocks) hscan hfirst fun hlast => .last hlast rfl

theorem alone_addToOpenFileTable (inumber : ℤ) (offset : ℕ) (appendFlag : ℤ) (s : State) :
    Alone (Call.entry (.addToOpenFileTable inumber offset appendFlag)) s
      (some (scanned .handles (addToOpenFileTable inumber offset appendFlag s).1))
      (addToOpenFileTable inumber offset appendFlag s).2 := by
  have hscan : ∀ k, advance (.takeEntry inumber offset appendFlag k) s =
      some (takeEntryStep inumber offset appendFlag k s) := fun _ => rfl
  unfold addToOpenFileTable
  rcases hfirst : firstFree s.freeOpenFileEntries maxOpenFiles with _ | k
  · exact alone_exhausted (T := .handles) hscan hfirst fun hlast => .last hlast rfl
  · exact alone_found (T := .handles) hscan hfirst fun hlast => .last hlast rfl

/-- `data_block_alloc` and the rest of `inode_create`. -/
theorem alone_inodeBlock (nType : InodeType) (i : ℕ) (s : State) :
    Alone (.inodeBlock nType i 0) s
      (fillInodeStep nType i s.disk.dataBlockAlloc.1 (s.setDisk s.disk.dataBlockAlloc.2)).event
      (fillInodeStep nType i s.disk.dataBlockAlloc.1 (s.setDisk s.disk.dataBlockAlloc.2)).lib := by
  have hscan : ∀ k, advance (.inodeBlock nType i k) s = some (inodeBlockStep nType i k s) := fun _ => rfl
  have hidle : ∀ b s, (fillInodeStep nType i b s).pc = .idle := by
    intro b s
    rcases fillInodeStep_cases nType i b s with ⟨s', _, hEq | hEq | hEq⟩
    · rw [hEq]
    · rw [hEq]
    · rw [hEq]
  unfold Disk.dataBlockAlloc
  rcases hfirst : firstFree s.disk.freeBlocks dataBlocks with _ | b
  · exact alone_exhausted (T := .blocks) hscan hfirst fun hlast => .next hlast (.last rfl (hidle _ _))
  · exact alone_found (T := .blocks) hscan hfirst fun hlast => .next hlast (.last rfl (hidle _ _))

/-- The steps of `inode_create` in the order of the source. -/
theorem inodeCreate_eq_fill (nType : InodeType) {i : ℕ} (hfirst : firstFree s.freeinodeTs inodeTableSize = some i)
    (hinit : s' = (initInodeStep nType i (s.markInode i .taken)).lib) :
    (inodeCreate nType s).2 =
        (fillInodeStep nType i s'.disk.dataBlockAlloc.1 (s'.setDisk s'.disk.dataBlockAlloc.2)).lib ∧
      ∀ j : ℕ, (inodeCreate nType s).1 = j ↔
        (fillInodeStep nType i s'.disk.dataBlockAlloc.1 (s'.setDisk s'.disk.dataBlockAlloc.2)).event =
          some (.returned .inodes j) := by
  subst hinit
  unfold inodeCreate
  rw [hfirst]
  -- both sides compute the same block; what is left depends on the type and on -1
  cases nType with
  | file =>
      rcases halloc : s.disk.dataBlockAlloc with ⟨b, d⟩
      have hdisk : (initInodeStep .file i (s.markInode i .taken)).lib.disk = s.disk := rfl
      simp only [hdisk, State.markInode_disk, halloc, fillInodeStep]
      rcases hget : dataBlockGet b with _ | a
      · refine ⟨?_, by simp⟩
        simp [setIndexBlock, initInodeStep, State.setInode, State.setDisk, State.markInode]
      · refine ⟨?_, by simp⟩
        simp [setIndexBlock, initInodeStep, State.setInode, State.setDisk, State.markInode, State.setData]
  | directory =>
      rcases halloc : s.disk.dataBlockAlloc with ⟨b, d⟩
      have hdisk : (initInodeStep .directory i (s.markInode i .taken)).lib.disk = s.disk := rfl
      simp only [hdisk, State.markInode_disk, State.setInode_disk, halloc, fillInodeStep]
      by_cases hb : b = -1
      · simp only [hb, if_true]
        refine ⟨?_, by simp⟩
        simp [initInodeStep, State.setInode, State.setDisk, State.markInode]
      · simp only [hb, if_false]
        rcases hget : dataBlockGet b with _ | a
        · refine ⟨?_, by simp⟩
          simp [setDirectoryBlock, initInodeStep, State.setInode, State.setDisk, State.markInode]
        · refine ⟨?_, by simp⟩
          simp [setDirectoryBlock, initInodeStep, State.setInode, State.setDisk, State.markInode,
            State.setData]

/-- `inode_create` returns the number that its last step makes known, and -1 otherwise. -/
theorem alone_inodeCreate (nType : InodeType) (s : State) : ∃ e,
    Alone (Call.entry (.inodeCreate nType)) s e (inodeCreate nType s).2 ∧
      ∀ i : ℕ, (inodeCreate nType s).1 = i ↔ e = some (.returned .inodes i) := by
  have hscan : ∀ k, advance (.takeInode nType k) s = some (takeInodeStep nType k s) := fun _ => rfl
  rcases hfirst : firstFree s.freeinodeTs inodeTableSize with _ | i
  · have hEq : inodeCreate nType s = (-1, s) := by
      unfold inodeCreate
      rw [hfirst]
    refine ⟨some (.exhausted .inodes), ?_, ?_⟩
    · rw [hEq]
      exact alone_exhausted (T := .inodes) hscan hfirst fun hlast => .last hlast rfl
    · intro i
      rw [hEq]
      simp
  · rcases inodeCreate_eq_fill nType hfirst rfl with ⟨hlib, hret⟩
    refine ⟨_, ?_, hret⟩
    rw [hlib]
    refine alone_found (T := .inodes) hscan hfirst fun hlast => .next hlast (.next rfl ?_)
    cases nType with
    | file => exact alone_inodeBlock .file i _
    | directory => exact alone_inodeBlock .directory i _
end Alone

end Allocators
end Tfs
end TecnicoFs
