import Mathlib.Data.Int.Bitwise
import Mathlib.Logic.Function.Basic
import TecnicoFs.Lib.Memory

/-!
# Disk — the block store shared by the two file systems

`tfs/fs/state.c` and `tfs_server/fs/state.c` keep their data blocks in the same two arrays, `fs_data`
and `free_blocks`, with the same `data_block_alloc`, `data_block_free` and `data_block_get`.  This module
embeds them once; the state of either model has a `Disk`.
-/

namespace TecnicoFs

open Lib

/-! ## Constants of `config.h` and `state.h` -/

abbrev rootDirInum : ℕ := 0
abbrev blockSize : ℕ := 1024
abbrev dataBlocks : ℕ := 1024
abbrev inodeTableSize : ℕ := 50
abbrev maxOpenFiles : ℕ := 20
abbrev maxFileName : ℕ := 40

/-- The number of bytes of `fs_data`. -/
def fsDataSize : ℕ := blockSize * dataBlocks

@[simp] theorem fsDataSize_eq : fsDataSize = 1048576 := rfl

/-- `allocation_state_t` -/
inductive AllocationState
  | free
  | taken
  deriving DecidableEq, Repr

/-- `inode_type` -/
inductive InodeType
  | file
  | directory
  deriving DecidableEq, Repr

theorem AllocationState.ne_free {a : AllocationState} : a ≠ .free ↔ a = .taken := by
  cases a <;> simp

theorem AllocationState.ne_taken {a : AllocationState} : a ≠ .taken ↔ a = .free := by
  cases a <;> simp

/-! ## Flags of `tfs_open` -/

abbrev tfsOCreat : ℤ := 0b001
abbrev tfsOTrunc : ℤ := 0b010
abbrev tfsOAppend : ℤ := 0b100

/-- `flags & mask`, as the condition of an `if`. -/
def hasFlag (flags mask : ℤ) : Bool :=
  decide (Int.land flags mask ≠ 0)

/-! ## Index checks -/

def validInumber (inumber : ℤ) : Bool :=
  decide (0 ≤ inumber ∧ inumber < inodeTableSize)

def validBlockNumber (blockNumber : ℤ) : Bool :=
  decide (0 ≤ blockNumber ∧ blockNumber < dataBlocks)

def validFileHandle (fileHandle : ℤ) : Bool :=
  decide (0 ≤ fileHandle ∧ fileHandle < maxOpenFiles)

theorem validInumber_iff {i : ℤ} : validInumber i = true ↔ 0 ≤ i ∧ i < 50 := by
  simp [validInumber]

theorem validBlockNumber_iff {b : ℤ} : validBlockNumber b = true ↔ 0 ≤ b ∧ b < 1024 := by
  simp [validBlockNumber]

theorem validFileHandle_iff {h : ℤ} : validFileHandle h = true ↔ 0 ≤ h ∧ h < 20 := by
  simp [validFileHandle]

@[simp] theorem validInumber_natCast {i : ℕ} : validInumber i = true ↔ i < 50 := by
  rw [validInumber_iff]
  omega

@[simp] theorem validBlockNumber_natCast {b : ℕ} : validBlockNumber b = true ↔ b < 1024 := by
  rw [validBlockNumber_iff]
  omega

@[simp] theorem validFileHandle_natCast {h : ℕ} : validFileHandle h = true ↔ h < 20 := by
  rw [validFileHandle_iff]
  omega

/-! ## Table lookups -/

/-- `inode_get`: the pointer into `inode_table` is its index. -/
def inodeGet (inumber : ℤ) : Option ℕ :=
  if validInumber inumber then some inumber.toNat else none

/-- `get_open_file_entry`: it does not ask whether the entry is taken. -/
def getOpenFileEntry (fhandle : ℤ) : Option ℕ :=
  if validFileHandle fhandle then some fhandle.toNat else none

theorem inodeGet_natCast {i : ℕ} (h : i < 50) : inodeGet i = some i := by
  have hi : validInumber (i : ℤ) = true := validInumber_natCast.2 h
  simp [inodeGet, hi]

theorem inodeGet_eq_some {z : ℤ} {i : ℕ} : inodeGet z = some i ↔ z = i ∧ i < 50 := by
  constructor
  · intro h
    have hz : 0 ≤ z ∧ z < 50 := by
      by_contra hn
      have hv : ¬ validInumber z = true := fun hv => hn (validInumber_iff.1 hv)
      simp [inodeGet, hv] at h
    have hnat : z = (z.toNat : ℤ) := by omega
    rw [hnat, inodeGet_natCast (by omega)] at h
    have hi := Option.some.inj h
    omega
  · rintro ⟨rfl, h⟩
    exact inodeGet_natCast h

theorem getOpenFileEntry_natCast {h : ℕ} (hh : h < 20) : getOpenFileEntry h = some h := by
  have hv : validFileHandle (h : ℤ) = true := validFileHandle_natCast.2 hh
  simp [getOpenFileEntry, hv]

theorem getOpenFileEntry_eq_none {z : ℤ} : getOpenFileEntry z = none ↔ ¬ (0 ≤ z ∧ z < 20) := by
  rw [← validFileHandle_iff]
  simp [getOpenFileEntry]

theorem getOpenFileEntry_eq_some {z : ℤ} {h : ℕ} :
    getOpenFileEntry z = some h ↔ z = h ∧ h < 20 := by
  constructor
  · intro hz
    have hrange : 0 ≤ z ∧ z < 20 := by
      by_contra hn
      simp [getOpenFileEntry_eq_none.2 hn] at hz
    have hnat : z = (z.toNat : ℤ) := by omega
    rw [hnat, getOpenFileEntry_natCast (by omega)] at hz
    have hi := Option.some.inj hz
    omega
  · rintro ⟨rfl, hh⟩
    exact getOpenFileEntry_natCast hh

/-! ## Scanning a table for its first free entry -/

/-- The first `FREE` entry of a table of `n` entries: the `for` loop that the allocators share. -/
def firstFree (table : ℕ → AllocationState) (n : ℕ) : Option ℕ :=
  (List.range n).find? fun i => decide (table i = .free)

theorem firstFree_eq_some {table : ℕ → AllocationState} {n i : ℕ} :
    firstFree table n = some i ↔
      i < n ∧ table i = .free ∧ ∀ j < i, table j = .taken := by
  unfold firstFree
  rw [List.find?_range_eq_some]
  simp only [decide_eq_true_eq, List.mem_range, Bool.not_eq_true', decide_eq_false_iff_not,
    AllocationState.ne_free]
  tauto

theorem firstFree_eq_none {table : ℕ → AllocationState} {n : ℕ} :
    firstFree table n = none ↔ ∀ i < n, table i = .taken := by
  unfold firstFree
  rw [List.find?_range_eq_none]
  simp [AllocationState.ne_free]

theorem firstFree_all_free {n : ℕ} (hn : 0 < n) : firstFree (fun _ => .free) n = some 0 :=
  firstFree_eq_some.2 ⟨hn, rfl, by simp⟩

/-! ## Data blocks -/

/-- `fs_data` and `free_blocks` -/
structure Disk where
  fsData : Memory
  freeBlocks : ℕ → AllocationState

namespace Disk

/-- The disk with one entry of `free_blocks` set. -/
def markBlock (d : Disk) (b : ℕ) (a : AllocationState) : Disk :=
  { d with freeBlocks := Function.update d.freeBlocks b a }

@[simp] theorem markBlock_fsData (d : Disk) (b : ℕ) (a : AllocationState) :
    (d.markBlock b a).fsData = d.fsData := rfl

@[simp] theorem markBlock_freeBlocks_self (d : Disk) (b : ℕ) (a : AllocationState) :
    (d.markBlock b a).freeBlocks b = a := by
  simp [markBlock]

theorem markBlock_freeBlocks_of_ne {d : Disk} {b c : ℕ} {a : AllocationState} (h : c ≠ b) :
    (d.markBlock b a).freeBlocks c = d.freeBlocks c := by
  simp [markBlock, h]

def dataBlockAlloc (d : Disk) : ℤ × Disk :=
  match firstFree d.freeBlocks dataBlocks with
  | some i => (i, d.markBlock i .taken)
  | none => (-1, d)

def dataBlockFree (d : Disk) (blockNumber : ℤ) : ℤ × Disk :=
  if validBlockNumber blockNumber then
    (0, d.markBlock blockNumber.toNat .free)
  else
    (-1, d)

theorem dataBlockAlloc_cases (d : Disk) :
    (∃ b < 1024, d.freeBlocks b = .free ∧ d.dataBlockAlloc = ((b : ℤ), d.markBlock b .taken)) ∨
      ((∀ b < 1024, d.freeBlocks b = .taken) ∧ d.dataBlockAlloc = (-1, d)) := by
  unfold dataBlockAlloc
  rcases hscan : firstFree d.freeBlocks dataBlocks with _ | b
  · right
    exact ⟨fun b hb => firstFree_eq_none.1 hscan b hb, rfl⟩
  · left
    rcases firstFree_eq_some.1 hscan with ⟨hlt, hfree, _⟩
    exact ⟨b, hlt, hfree, rfl⟩

theorem dataBlockFree_of_valid {d : Disk} {b : ℕ} (h : b < 1024) :
    d.dataBlockFree b = (0, d.markBlock b .free) := by
  have hb : validBlockNumber (b : ℤ) = true := validBlockNumber_natCast.2 h
  simp [dataBlockFree, hb]

theorem dataBlockFree_of_not_valid {d : Disk} {b : ℤ} (h : ¬ (0 ≤ b ∧ b < 1024)) :
    d.dataBlockFree b = (-1, d) := by
  have hb : ¬ validBlockNumber b = true := fun hv => h (validBlockNumber_iff.1 hv)
  simp [dataBlockFree, hb]

end Disk

/-- `data_block_get`: the address of a block in `fs_data`. -/
def dataBlockGet (blockNumber : ℤ) : Option ℕ :=
  if validBlockNumber blockNumber then
    some (blockNumber.toNat * blockSize)
  else
    none

@[simp] theorem dataBlockGet_natCast {b : ℕ} (h : b < 1024) :
    dataBlockGet b = some (b * 1024) := by
  have hb : validBlockNumber (b : ℤ) = true := validBlockNumber_natCast.2 h
  simp [dataBlockGet, hb]

theorem dataBlockGet_eq_none_iff {b : ℤ} : dataBlockGet b = none ↔ ¬ (0 ≤ b ∧ b < 1024) := by
  rw [← validBlockNumber_iff]
  simp [dataBlockGet]

theorem dataBlockGet_eq_some_iff {b : ℤ} {a : ℕ} :
    dataBlockGet b = some a ↔ ∃ n : ℕ, n < 1024 ∧ b = n ∧ a = n * 1024 := by
  constructor
  · intro h
    have hb : 0 ≤ b ∧ b < 1024 := by
      by_contra hn
      simp [dataBlockGet_eq_none_iff.2 hn] at h
    have hnat : b = (b.toNat : ℤ) := by omega
    rw [hnat, dataBlockGet_natCast (by omega)] at h
    exact ⟨b.toNat, by omega, hnat, (Option.some.inj h).symm⟩
  · rintro ⟨n, hn, rfl, rfl⟩
    exact dataBlockGet_natCast hn

@[simp] theorem dataBlockGet_neg_one : dataBlockGet (-1) = none := by
  decide

end TecnicoFs
