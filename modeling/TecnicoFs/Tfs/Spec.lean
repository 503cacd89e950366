import TecnicoFs.Lib.Accounts
import TecnicoFs.Server.Spec
import TecnicoFs.Tfs.Operations

/-!
# Multi-block specification — what `tfs/fs` is for

The abstract file system is again a map from names to byte strings and a table of open handles, where a
file may take several blocks and a handle may append.  Space is counted in blocks: the directory takes
one, and a file one for its index and one for each started kilobyte.  The bound on them is a field, like
the bound on the number of names, so that a file system that fits on no disk cannot be written down.
-/

namespace TecnicoFs
namespace Tfs
namespace Spec

open Lib
open Server.Spec (FileName overwrite)

/-! ## Data -/

/-- What ten direct blocks and a full index block hold. -/
abbrev maxFileSize : ℕ := (directBlocksQuantity + indexEntries) * blockSize

/-- The bytes of a file. -/
abbrev Contents := { bytes : List Byte // bytes.length ≤ maxFileSize }

def Contents.empty : Contents :=
  ⟨[], Nat.zero_le _⟩

/-- The blocks of a file: the index block and those of its bytes. -/
def fileBlocks (c : Contents) : ℕ :=
  1 + (c.val.length + (blockSize - 1)) / blockSize

/-- The blocks of a disk with these files. -/
def usedBlocks (files : Finmap fun _ : FileName => Contents) : ℕ :=
  1 + total fileBlocks files

/-- An open handle: its file, its position there, and whether it writes at the end. -/
structure Handle where
  name : FileName
  offset : ℕ
  append : Bool
  deriving DecidableEq

/-- Where a handle writes. -/
def Handle.start (x : Handle) (c : Contents) : ℕ :=
  if x.append then c.val.length else x.offset

structure FileSystem where
  files : Finmap fun _ : FileName => Contents
  card_le : files.keys.card ≤ maxDirEntries
  used_le : usedBlocks files ≤ dataBlocks
  handles : Fin maxOpenFiles → Option Handle

theorem usedBlocks_empty : usedBlocks ∅ ≤ dataBlocks := by
  rw [usedBlocks, total_empty]
  decide

/-- No file, no open handle. -/
def FileSystem.empty : FileSystem where
  files := ∅
  card_le := Nat.zero_le _
  used_le := usedBlocks_empty
  handles := fun _ => none

namespace FileSystem

variable (fs : FileSystem)

/-! ## Updates -/

theorem card_insert_le {n : FileName} (c : Contents) (hroom : (insert n fs.files.keys).card ≤ maxDirEntries) :
    (fs.files.insert n c).keys.card ≤ maxDirEntries := by
  rw [keys_insert]
  exact hroom

/-- The file `n` with contents `c`, where there is room for the name and for the blocks. -/
def put (n : FileName) (c : Contents) (hroom : (insert n fs.files.keys).card ≤ maxDirEntries)
    (hused : usedBlocks (fs.files.insert n c) ≤ dataBlocks) : FileSystem where
  files := fs.files.insert n c
  card_le := fs.card_insert_le c hroom
  used_le := hused
  handles := fs.handles

def setHandle (h : Fin maxOpenFiles) (x : Option Handle) : FileSystem :=
  { fs with handles := Function.update fs.handles h x }

/-- Open a handle with the lowest number, or refuse if the table is full. -/
def addHandle (x : Handle) : ℤ × FileSystem :=
  match lowestFree fs.handles with
  | none => (-1, fs)
  | some h => (h, fs.setHandle h (some x))

variable {fs} {n : FileName} {c : Contents}

theorem room_of_lookup (h : fs.files.lookup n = some c) :
    (insert n fs.files.keys).card ≤ maxDirEntries := by
  have hmem : n ∈ fs.files.keys := Finmap.mem_keys.2 (Finmap.mem_of_lookup_eq_some h)
  rw [Finset.insert_eq_of_mem hmem]
  exact fs.card_le

theorem fileBlocks_empty_le (c : Contents) : fileBlocks Contents.empty ≤ fileBlocks c := by
  have hempty : fileBlocks Contents.empty = 1 := rfl
  rw [hempty, fileBlocks]
  exact Nat.le_add_right 1 _

/-- A truncated file takes no more blocks than before. -/
theorem used_truncated_le (fs : FileSystem) {c c' : Contents} (h : fs.files.lookup n = some c)
    (hc : c' = Contents.empty ∨ c' = c) : usedBlocks (fs.files.insert n c') ≤ dataBlocks := by
  have hle : fileBlocks c' ≤ fileBlocks c := by
    rcases hc with rfl | rfl
    · exact fileBlocks_empty_le c
    · exact le_rfl
  exact (Nat.add_le_add_left (total_insert_le h hle) 1).trans fs.used_le

/-! ## Calls -/

variable (fs)

/-- The contents of a file after the open call. -/
def truncated (flags : ℤ) (c : Contents) : Contents :=
  if hasFlag flags tfsOTrunc then Contents.empty else c

theorem truncated_cases (flags : ℤ) (c : Contents) :
    truncated flags c = Contents.empty ∨ truncated flags c = c := by
  unfold truncated
  split
  · exact Or.inl rfl
  · exact Or.inr rfl

/-- Open an existing file, or create one if the flags ask for it and there is room.  Only a handle on an
existing file appends. -/
def openFile (n : FileName) (flags : ℤ) : ℤ × FileSystem :=
  match hfile : fs.files.lookup n with
  | some c =>
      (fs.put n (truncated flags c) (room_of_lookup hfile)
        (fs.used_truncated_le hfile (truncated_cases flags c))).addHandle
          ⟨n, if hasFlag flags tfsOAppend then (truncated flags c).val.length else 0,
            hasFlag flags tfsOAppend⟩
  | none =>
      if hasFlag flags tfsOCreat then
        if hroom : (insert n fs.files.keys).card ≤ maxDirEntries ∧
            usedBlocks (fs.files.insert n Contents.empty) ≤ dataBlocks then
          (fs.put n Contents.empty hroom.1 hroom.2).addHandle ⟨n, 0, false⟩
        else
          (-1, fs)
      else
        (-1, fs)

def closeHandle (fhandle : ℤ) : ℤ × FileSystem :=
  match entryOf fs.handles fhandle with
  | none => (-1, fs)
  | some (h, _) => (0, fs.setHandle h none)

theorem length_overwrite_le {c : Contents} {offset : ℕ} {bytes : List Byte}
    (h : bytes.length ≤ maxFileSize - offset) :
    (overwrite c.val offset bytes).length ≤ maxFileSize := by
  have hc : c.val.length ≤ 272384 := c.property
  have hb : bytes.length ≤ 272384 - offset := h
  have hlen : (overwrite c.val offset bytes).length =
      min offset c.val.length + (bytes.length + (c.val.length - (offset + bytes.length))) := by
    simp [overwrite]
  have hgoal : (overwrite c.val offset bytes).length ≤ 272384 := by omega
  exact hgoal

/-- The file with `min n (maxFileSize - offset)` bytes of the buffer written over it. -/
def written (c : Contents) (offset : ℕ) (buffer : ℕ → Byte) (n : ℕ) : Contents :=
  ⟨overwrite c.val offset ((List.range (min n (maxFileSize - offset))).map buffer),
    length_overwrite_le (by simp)⟩

/-- Store what fits in the file and advance the offset; nothing is stored where no block is left. -/
def writeHandle (fhandle : ℤ) (buffer : ℕ → Byte) (n : ℕ) : ℤ × FileSystem :=
  match entryOf fs.handles fhandle with
  | none => (-1, fs)
  | some (h, x) =>
      match hfile : fs.files.lookup x.name with
      | none => (-1, fs)
      | some c =>
          let start := x.start c
          let count := min n (maxFileSize - start)
          if hused : usedBlocks (fs.files.insert x.name (written c start buffer n)) ≤ dataBlocks then
            (count, (fs.put x.name (written c start buffer n) (room_of_lookup hfile) hused).setHandle h
              (some { x with offset := start + count }))
          else
            (0, fs.setHandle h (some { x with offset := start }))

/-- Deliver the next `n` bytes of the file, or the ones that are left, and advance the offset. -/
def readHandle (fhandle : ℤ) (n : ℕ) : ℤ × List Byte × FileSystem :=
  match entryOf fs.handles fhandle with
  | none => (-1, [], fs)
  | some (h, x) =>
      match fs.files.lookup x.name with
      | none => (-1, [], fs)
      | some c =>
          let bytes := (c.val.drop x.offset).take n
          (bytes.length, bytes, fs.setHandle h (some { x with offset := x.offset + bytes.length }))

def exec : Call → FileSystem → Reply × FileSystem
  | .open path flags, fs =>
      match FileName.ofPath path with
      | none => (⟨-1, []⟩, fs)
      | some n => (⟨(fs.openFile n flags).1, []⟩, (fs.openFile n flags).2)
  | .close fhandle, fs =>
      (⟨(fs.closeHandle fhandle).1, []⟩, (fs.closeHandle fhandle).2)
  | .write fhandle buffer n, fs =>
      (⟨(fs.writeHandle fhandle buffer n).1, []⟩, (fs.writeHandle fhandle buffer n).2)
  | .read fhandle n, fs =>
      (⟨(fs.readHandle fhandle n).1, (fs.readHandle fhandle n).2.1⟩, (fs.readHandle fhandle n).2.2)

end FileSystem

def machine : Machine FileSystem Call Reply where
  exec a fs := some (FileSystem.exec a fs)

/-- A transfer of `n` bytes at `offset` stays within one block. -/
def OneBlock (offset n : ℕ) : Prop :=
  offset % blockSize + n ≤ blockSize

instance (offset n : ℕ) : Decidable (OneBlock offset n) :=
  inferInstanceAs (Decidable (_ ≤ _))

/-- The calls that the specification covers: a path is invalid, or a slash and a name; only an empty file is
truncated, a file is created while there is a block for its index, reads and writes use open handles, and
each of them stays within one block. -/
def Allowed (fs : FileSystem) : Call → Prop
  | .open path flags => validPathname path = false ∨ ∃ n, FileName.ofPath path = some n ∧
      (hasFlag flags tfsOTrunc → ∀ c, fs.files.lookup n = some c → c = Contents.empty) ∧
      (hasFlag flags tfsOCreat → fs.files.lookup n = none → usedBlocks fs.files < dataBlocks)
  | .close _ => True
  | .write fhandle _ n => n < 2 ^ 31 ∧ ∃ h x c, entryOf fs.handles fhandle = some (h, x) ∧
      fs.files.lookup x.name = some c ∧
      OneBlock (x.start c) (min n (maxFileSize - x.start c))
  | .read fhandle n => ∃ h x c, entryOf fs.handles fhandle = some (h, x) ∧
      fs.files.lookup x.name = some c ∧ OneBlock x.offset (min n (c.val.length - x.offset))

end Spec
end Tfs
end TecnicoFs
