import TecnicoFs.Lib.Accounts
import TecnicoFs.Server.Operations

/-!
# Server specification — what the file system library is for

The abstract file system is a map from names to byte strings and a table of open handles.  It knows no
i-nodes, blocks or directory entries.  Its bounds are fields of the structures: a name has 1 to 39 bytes, a
file fits in a block, the directory holds at most 23 names, and at most 20 handles are open.
-/

namespace TecnicoFs
namespace Server
namespace Spec

open Lib

/-! ## Data -/

structure FileName where
  name : CString
  pos : 1 ≤ name.strlen
  le : name.strlen ≤ 39
  deriving DecidableEq

theorem FileName.eq_of_name {m n : FileName} (h : m.name = n.name) : m = n := by
  cases m
  cases n
  simpa using h

/-- The name that a path stands for, if the path is a slash and a name. -/
def FileName.ofPath : Path → Option FileName
  | none => none
  | some p =>
      if h : p.charAt 0 = 0x2f ∧ 1 ≤ p.tail.strlen ∧ p.tail.strlen ≤ 39 then
        some ⟨p.tail, h.2.1, h.2.2⟩
      else
        none

theorem FileName.ofPath_eq_some {path : Path} {n : FileName} (h : FileName.ofPath path = some n) :
    ∃ p, path = some p ∧ validPathname path = true ∧ p.tail = n.name ∧
      afterSlash path = some n.name := by
  rcases path with _ | p
  · cases h
  simp only [FileName.ofPath] at h
  split at h
  · next hcond =>
    have hn := Option.some.inj h
    have htail : p.tail = n.name := by rw [← hn]
    have hlen : p.strlen = p.tail.strlen + 1 := by
      have hpos := hcond.2.1
      simp only [CString.strlen, CString.tail, List.length_tail] at hpos ⊢
      omega
    have hne : p.strlen ≠ 0 := by omega
    refine ⟨p, rfl, ?_, htail, ?_⟩
    · have hlong : p.strlen > 1 := by omega
      simp [validPathname, hcond.1, hlong]
    · simp [afterSlash, hne, htail]
  · cases h

theorem FileName.ofPath_of_invalid {path : Path} (h : validPathname path = false) :
    FileName.ofPath path = none := by
  rcases hof : FileName.ofPath path with _ | n
  · rfl
  · rcases FileName.ofPath_eq_some hof with ⟨_, _, hvalid, _⟩
    rw [h] at hvalid
    cases hvalid

/-- The bytes of a file. -/
abbrev Contents := { bytes : List Byte // bytes.length ≤ blockSize }

def Contents.empty : Contents :=
  ⟨[], Nat.zero_le _⟩

/-- `bytes` written over `c` at `offset`. -/
def overwrite (c : List Byte) (offset : ℕ) (bytes : List Byte) : List Byte :=
  c.take offset ++ bytes ++ c.drop (offset + bytes.length)

/-- An open handle: its file and its position there. -/
structure Handle where
  name : FileName
  offset : ℕ
  deriving DecidableEq

structure FileSystem where
  files : Finmap fun _ : FileName => Contents
  card_le : files.keys.card ≤ maxDirEntries
  handles : Fin maxOpenFiles → Option Handle

/-- No file, no open handle. -/
def FileSystem.empty : FileSystem where
  files := ∅
  card_le := Nat.zero_le _
  handles := fun _ => none

namespace FileSystem

variable (fs : FileSystem)

/-! ## Updates -/

/-- The file `n` with contents `c`, where there is room for the name. -/
def put (n : FileName) (c : Contents) (hroom : (insert n fs.files.keys).card ≤ maxDirEntries) :
    FileSystem where
  files := fs.files.insert n c
  card_le := by
    rw [keys_insert]
    exact hroom
  handles := fs.handles

theorem room_of_lookup {fs : FileSystem} {n : FileName} {c : Contents}
    (h : fs.files.lookup n = some c) : (insert n fs.files.keys).card ≤ maxDirEntries := by
  have hmem : n ∈ fs.files.keys := Finmap.mem_keys.2 (Finmap.mem_of_lookup_eq_some h)
  rw [Finset.insert_eq_of_mem hmem]
  exact fs.card_le

def setHandle (h : Fin maxOpenFiles) (x : Option Handle) : FileSystem :=
  { fs with handles := Function.update fs.handles h x }

/-- Open a handle with the lowest number, or refuse if the table is full. -/
def addHandle (n : FileName) (offset : ℕ) : ℤ × FileSystem :=
  match lowestFree fs.handles with
  | none => (-1, fs)
  | some h => (h, fs.setHandle h (some ⟨n, offset⟩))

/-! ## Calls -/

/-- Open an existing file, or create one if the flags ask for it and there is room for its name. -/
def openFile (n : FileName) (flags : ℤ) : ℤ × FileSystem :=
  match hfile : fs.files.lookup n with
  | some c =>
      let c := if hasFlag flags tfsOTrunc then Contents.empty else c
      (fs.put n c (room_of_lookup hfile)).addHandle n
        (if hasFlag flags tfsOAppend then c.val.length else 0)
  | none =>
      if hasFlag flags tfsOCreat then
        if hroom : (insert n fs.files.keys).card ≤ maxDirEntries then
          (fs.put n Contents.empty hroom).addHandle n 0
        else
          (-1, fs)
      else
        (-1, fs)

def closeHandle (fhandle : ℤ) : ℤ × FileSystem :=
  match entryOf fs.handles fhandle with
  | none => (-1, fs)
  | some (h, _) => (0, fs.setHandle h none)

theorem length_overwrite_le {c : Contents} {offset : ℕ} {bytes : List Byte}
    (h : bytes.length ≤ blockSize - offset) :
    (overwrite c.val offset bytes).length ≤ blockSize := by
  have hc : c.val.length ≤ 1024 := c.property
  have hb : bytes.length ≤ 1024 - offset := h
  have hlen : (overwrite c.val offset bytes).length =
      min offset c.val.length + (bytes.length + (c.val.length - (offset + bytes.length))) := by
    simp [overwrite]
  have hgoal : (overwrite c.val offset bytes).length ≤ 1024 := by omega
  exact hgoal

/-- Store `min n (blockSize - offset)` bytes at the handle's offset and advance it. -/
def writeHandle (fhandle : ℤ) (buffer : ℕ → Byte) (n : ℕ) : ℤ × FileSystem :=
  match entryOf fs.handles fhandle with
  | none => (-1, fs)
  | some (h, x) =>
      match hfile : fs.files.lookup x.name with
      | none => (-1, fs)
      | some c =>
          let count := min n (blockSize - x.offset)
          let c' : Contents := ⟨overwrite c.val x.offset ((List.range count).map buffer),
            length_overwrite_le (by simp [count])⟩
          (count, (fs.put x.name c' (room_of_lookup hfile)).setHandle h
            (some { x with offset := x.offset + count }))

/-- Deliver the next `n` bytes of the file, or the ones that are left, and advance the offset. -/
def readHandle (fhandle : ℤ) (n : ℕ) : ℤ × List Byte × FileSystem :=
  match entryOf fs.handles fhandle with
  | none => (-1, [], fs)
  | some (h, x) =>
      match fs.files.lookup x.name with
      | none => (-1, [], fs)
      | some c =>
          let bytes := (c.val.drop x.offset).take n
          (bytes.length, bytes, fs.setHandle h (some { x with offset := x.offset + bytes.length }))

def exec : Call → FileSystem → Reply × FileSystem
  | .open path flags, fs =>
      match FileName.ofPath path with
      | none => (⟨-1, []⟩, fs)
      | some n => (⟨(fs.openFile n flags).1, []⟩, (fs.openFile n flags).2)
  | .close fhandle, fs =>
      (⟨(fs.closeHandle fhandle).1, []⟩, (fs.closeHandle fhandle).2)
  | .write fhandle buffer n, fs =>
      (⟨(fs.writeHandle fhandle buffer n).1, []⟩, (fs.writeHandle fhandle buffer n).2)
  | .read fhandle n, fs =>
      (⟨(fs.readHandle fhandle n).1, (fs.readHandle fhandle n).2.1⟩, (fs.readHandle fhandle n).2.2)

end FileSystem

def machine : Machine FileSystem Call Reply where
  exec a fs := some (FileSystem.exec a fs)

/-- The calls that the specification covers: a path is a slash and a name, reads and writes use open
handles, no length wraps when it is added to the offset, and a file is truncated by an open call only
while every open handle on it stands at its start. -/
def Allowed (fs : FileSystem) : Call → Prop
  | .open path flags => ∃ n, FileName.ofPath path = some n ∧
      (hasFlag flags tfsOTrunc → ∀ h x, fs.handles h = some x → x.name = n → x.offset = 0)
  | .close _ => True
  | .write fhandle _ n => ∃ h x, entryOf fs.handles fhandle = some (h, x) ∧ n + x.offset < 2 ^ 64
  | .read fhandle _ => ∃ h x, entryOf fs.handles fhandle = some (h, x)

end Spec
end Server
end TecnicoFs
