import TecnicoFs.Lib.Code
import TecnicoFs.Storage.Directory

/-!
# Statements on a disk — one memory access at a time

What both file systems do to their data blocks, as programs whose statements access one variable, one array
element or one byte each: a `memcpy`, `strncmp` or `strncpy` goes byte by byte, and a loop over the entries
of a directory looks at one in each round.  Every program, run alone, does what the function of the same name
does.
-/

namespace TecnicoFs

open Lib

namespace Disk

/-! ## Bytes -/

/-- The disk with other data. -/
def setData (d : Disk) (m : Memory) : Disk :=
  { d with fsData := m }

def byteAt (a : ℕ) : Code Disk Byte :=
  Code.read fun d => d.fsData a

def setByte (a : ℕ) (c : Byte) : Code Disk Unit :=
  Code.write fun d => d.setData (memcpy d.fsData a (fun _ => c) 1)

/-- `memcpy` to the address `dst` of `fs_data`, also the one that `strncpy` makes. -/
def copyIn (dst : ℕ) (src : ℕ → Byte) (n : ℕ) : Code Disk Unit :=
  Code.forEach (fun k => setByte (dst + k) (src k)) 0 n

/-- `memcpy` from the address `src` of `fs_data`, from byte `k` on. -/
def copyOut (src : ℕ) : ℕ → ℕ → Code Disk (List Byte)
  | _, 0 => pure []
  | k, n + 1 => do
      let c ← byteAt (src + k)
      let cs ← copyOut src (k + 1) n
      pure (c :: cs)

/-- `strncmp` of the field at `field` with a name, from byte `k` on. -/
def compareName (field : ℕ) (name : CString) : ℕ → ℕ → Code Disk ℤ
  | _, 0 => pure 0
  | k, n + 1 => do
      let c ← byteAt (field + k)
      if c ≠ name.charAt k then
        pure (c.toNat - (name.charAt k).toNat)
      else if c = 0 then
        pure 0
      else
        compareName field name (k + 1) n

/-! ## Blocks and directory entries -/

/-- `data_block_free` -/
def freeBlock (blockNumber : ℤ) : Code Disk ℤ :=
  if validBlockNumber blockNumber then do
    Code.write fun d => d.markBlock blockNumber.toNat .free
    pure 0
  else
    pure (-1)

/-- `dir_entry[i].d_inumber` -/
def inumberAt (dir i : ℕ) : Code Disk ℤ :=
  Code.read fun d => dInumber d.fsData dir i

def setInumber (dir i : ℕ) (z : ℤ) : Code Disk Unit :=
  Code.write fun d => d.setData (writeInt d.fsData (dir + i * dirEntrySize + maxFileName) z)

/-- The condition of the loop of `find_in_dir` for entry `i`. -/
def entryHasName (dir : ℕ) (subName : CString) (i : ℕ) : Code Disk Bool := do
  let n ← inumberAt dir i
  if n ≠ -1 then do
    let r ← compareName (dir + i * dirEntrySize) subName 0 maxFileName
    pure (decide (r = 0))
  else
    pure false

/-- The loop of `find_in_dir`. -/
def findEntry (dir : ℕ) (subName : CString) : Code Disk (Option ℕ) :=
  Code.search (entryHasName dir subName) (fun i => pure (some i)) (pure none) 0 maxDirEntries

/-- The loop of `add_dir_entry`, "Finds and fills the first empty entry". -/
def addEntry (dir : ℕ) (subInumber : ℤ) (name : CString) : Code Disk ℤ :=
  Code.search
    (fun i => Code.read fun d => decide (dInumber d.fsData dir i = -1))
    (fun i => do
      setInumber dir i subInumber
      copyIn (dir + i * dirEntrySize) name.charAt (maxFileName - 1)
      setByte (dir + i * dirEntrySize + (maxFileName - 1)) 0
      pure 0)
    (pure (-1)) 0 maxDirEntries

/-! ## Running alone -/

section Run

variable {d : Disk} {dst dir i n : ℕ} {src : ℕ → Byte}

@[simp] theorem setData_fsData (d : Disk) (m : Memory) : (d.setData m).fsData = m :=
  rfl

/-- The last byte of a copy. -/
theorem memcpy_last (m : Memory) :
    memcpy m dst src (n + 1) = memcpy (memcpy m dst src n) (dst + n) (fun _ => src n) 1 := by
  funext c
  rcases Nat.lt_trichotomy c (dst + n) with hlt | rfl | hgt
  · rw [memcpy_of_disjoint (m := memcpy m dst src n) (Or.inl hlt)]
    by_cases hlo : dst ≤ c
    · rw [memcpy_of_mem hlo hlt, memcpy_of_mem hlo (by omega)]
    · rw [memcpy_of_disjoint (by omega), memcpy_of_disjoint (by omega)]
  · rw [memcpy_add (Nat.lt_succ_self n), memcpy_of_mem (Nat.le_refl _) (Nat.lt_succ_self _)]
  · rw [memcpy_of_disjoint (by omega), memcpy_of_disjoint (by omega), memcpy_of_disjoint (by omega)]

theorem run_copyIn : (copyIn dst src n).run d = some ((), d.setData (memcpy d.fsData dst src n)) := by
  rw [copyIn, Code.run_forEach (g := fun k d => d.setData (memcpy d.fsData (dst + k) (fun _ => src k) 1))
    (fun _ _ => rfl) n 0 d, ← List.range_eq_range']
  congr 2
  induction n with
  | zero => rw [memcpy_zero]; rfl
  | succ n ih =>
      rw [List.range_succ, List.foldl_append, ih, memcpy_last]
      rfl

theorem run_copyOut (a n : ℕ) : ∀ k, (copyOut a k n).run d = some (memread d.fsData (a + k) n, d) := by
  induction n with
  | zero => exact fun _ => rfl
  | succ n ih =>
      intro k
      have hsplit : memread d.fsData (a + k) (n + 1) =
          d.fsData (a + k) :: memread d.fsData (a + (k + 1)) n := by
        rw [Nat.add_comm n 1, memread_append]
        rfl
      simp only [copyOut, byteAt, Code.run_bind, Code.run_read, Option.bind_some, ih, Code.run_pure,
        hsplit]

theorem run_compareName (field : ℕ) (name : CString) (n : ℕ) :
    ∀ k, (compareName field name k n).run d =
      some (strncmp (fun j => d.fsData (field + k + j)) (fun j => name.charAt (k + j)) n, d) := by
  induction n with
  | zero => exact fun _ => rfl
  | succ n ih =>
      intro k
      simp only [compareName, byteAt, Code.run_bind, Code.run_read, Option.bind_some, strncmp,
        Nat.add_zero]
      split
      · rfl
      · split
        · rfl
        · rw [ih (k + 1)]
          congr 3
          · funext j
            congr 1
            omega
          · funext j
            congr 1
            omega

theorem run_clearEntries (dir : ℕ) : (Code.forEach (fun k => setInumber dir k (-1)) 0 n).run d =
    some ((), d.setData (clearEntries d.fsData dir n)) := by
  rw [Code.run_forEach (g := fun k d => d.setData (writeInt d.fsData (dir + k * dirEntrySize + maxFileName) (-1)))
    (fun _ _ => rfl), ← List.range_eq_range']
  congr 2
  unfold clearEntries
  induction n with
  | zero => rfl
  | succ n ih =>
      rw [List.range_succ, List.foldl_append, List.foldl_append, ih]
      rfl

theorem run_freeBlock (z : ℤ) : (freeBlock z).run d = some (d.dataBlockFree z) := by
  unfold freeBlock dataBlockFree
  split
  · rfl
  · rfl

theorem run_entryHasName (dir : ℕ) (subName : CString) :
    (entryHasName dir subName i).run d = some
      (decide (dInumber d.fsData dir i ≠ -1) &&
        decide (strncmp (dName d.fsData dir i) subName.charAt maxFileName = 0), d) := by
  unfold entryHasName
  rw [Code.run_bind, inumberAt, Code.run_read, Option.bind_some]
  by_cases hused : dInumber d.fsData dir i ≠ -1
  · rw [if_pos hused, Code.run_bind, run_compareName, Option.bind_some, Code.run_pure]
    rw [decide_eq_true hused, Bool.true_and]
    simp only [Nat.add_zero, Nat.zero_add]
    rfl
  · rw [if_neg hused]
    simp [hused]

theorem run_findEntry (dir : ℕ) (subName : CString) :
    (findEntry dir subName).run d = some (searchEntry d.fsData dir subName, d) := by
  have htest : ∀ i, (entryHasName dir subName i).run d = _ := fun i => run_entryHasName dir subName
  rw [findEntry, Code.run_search htest, ← List.range_eq_range', searchEntry]
  rcases (List.range maxDirEntries).find? _ with _ | i
  · rfl
  · rfl

theorem run_addEntry (dir : ℕ) (subInumber : ℤ) (name : CString) :
    (addEntry dir subInumber name).run d = some (
      (emptyEntry d.fsData dir).elim (-1, d) fun k =>
        (0, d.setData (fillEntry d.fsData dir k subInumber name))) := by
  rw [addEntry, Code.run_search (fun _ => Code.run_read), ← List.range_eq_range', emptyEntry]
  rcases (List.range maxDirEntries).find? fun i => decide (dInumber d.fsData dir i = -1) with _ | i
  · rfl
  · simp only [Option.elim_some, Code.run_bind, setInumber, Code.run_write, Option.bind_some, run_copyIn,
      setByte, Code.run_pure]
    rfl

end Run

end Disk
end TecnicoFs
