import TecnicoFs.Lib.Transition
import TecnicoFs.Server.State

/-!
# Server operations — `tfs_server/fs/operations.c`

Each `_unsynchronized` function is embedded as it runs between the lock and the unlock of
`single_global_lock`; the locked wrappers add the test of `state_closing` that `tfs_open` makes.

The result is an `Option`: `none` stands for a step with undefined behaviour, which is a `memcpy` that
leaves the array `fs_data`, or a path pointer that cannot be read.  A `memcpy` that leaves its block and stays
in the array goes on into the blocks behind it.
-/

namespace TecnicoFs
namespace Server

open Lib

/-! ## Start -/

def tfsInit : ℤ × State :=
  let (root, s) := inodeCreate .directory (stateInit staticState)
  if root ≠ rootDirInum then (-1, s) else (0, s)

/-! ## Lookup -/

def tfsLookupUnsynchronized (name : Path) (s : State) : ℤ :=
  match name with
  | none => -1
  | some p => if validPathname name then findInDir rootDirInum p.tail s else -1

/-! ## Open and close -/

/-- "Trucate (if requested)"; the only failure is a block number that is out of range. -/
def truncateFile (flags : ℤ) (i : ℕ) (s : State) : ℤ × State :=
  if hasFlag flags tfsOTrunc ∧ (s.inodeTable i).iSize > 0 then
    let (r, d) := s.disk.dataBlockFree (s.inodeTable i).iDataBlock
    let s := s.setDisk d
    if r = -1 then (r, s) else (r, s.setInode i { s.inodeTable i with iSize := 0 })
  else
    (0, s)

/-- The branch of `_tfs_open_unsynchronized` for a name that was found. -/
def openExisting (inum : ℤ) (flags : ℤ) (s : State) : ℤ × State :=
  match inodeGet inum with
  | none => (-1, s)
  | some i =>
      let (r, s) := truncateFile flags i s
      if r = -1 then
        (-1, s)
      else
        let offset := if hasFlag flags tfsOAppend then (s.inodeTable i).iSize else 0
        addToOpenFileTable inum offset s

/-- The branch of `_tfs_open_unsynchronized` that creates the file. -/
def openCreate (name : Path) (s : State) : Option (ℤ × State) :=
  let (inum, s) := inodeCreate .file s
  if inum = -1 then
    some (-1, s)
  else
    match addDirEntry rootDirInum inum (afterSlash name) s with
    | none => none
    | some (r, s) =>
        if r = -1 then
          some (-1, (inodeDelete inum s).2)
        else
          some (addToOpenFileTable inum 0 s)

def tfsOpenUnsynchronized (name : Path) (flags : ℤ) (s : State) : Option (ℤ × State) :=
  let inum := tfsLookupUnsynchronized name s
  if inum ≥ 0 then
    some (openExisting inum flags s)
  else if hasFlag flags tfsOCreat then
    openCreate name s
  else
    some (-1, s)

def tfsOpen (name : Path) (flags : ℤ) (s : State) : Option (ℤ × State) :=
  if stateClosingStatus s then some (-1, s) else tfsOpenUnsynchronized name flags s

def tfsClose (fhandle : ℤ) (s : State) : ℤ × State :=
  removeFromOpenFileTable fhandle s

/-! ## Write and read -/

/-- "If empty file, allocate new block" -/
def allocIfEmpty (i : ℕ) (s : State) : State :=
  if (s.inodeTable i).iSize = 0 then
    let (b, d) := s.disk.dataBlockAlloc
    (s.setDisk d).setInode i { s.inodeTable i with iDataBlock := b }
  else
    s

/-- How many bytes `_tfs_write_unsynchronized` copies at offset `offset`. -/
def writeCount (offset toWrite : ℕ) : ℕ :=
  if sizeAdd toWrite offset > blockSize then sizeSub blockSize offset else toWrite

/-- The copy of `_tfs_write_unsynchronized`, and its updates of offset and size. -/
def storeBytes (h i block : ℕ) (buffer : ℕ → Byte) (toWrite : ℕ) (s : State) : State :=
  let file := s.openFileTable h
  let s := s.setData (memcpy s.disk.fsData (block + file.ofOffset) buffer toWrite)
  let offset := sizeAdd file.ofOffset toWrite
  let s := s.setEntry h { file with ofOffset := offset }
  if offset > (s.inodeTable i).iSize then
    s.setInode i { s.inodeTable i with iSize := offset }
  else
    s

def tfsWriteUnsynchronized (fhandle : ℤ) (buffer : ℕ → Byte) (toWrite : ℕ) (s : State) :
    Option (ℤ × State) :=
  match getOpenFileEntry fhandle with
  | none => some (-1, s)
  | some h =>
      match inodeGet (s.openFileTable h).ofInumber with
      | none => some (-1, s)
      | some i =>
          let offset := (s.openFileTable h).ofOffset
          let toWrite := writeCount offset toWrite
          if toWrite > 0 then
            let s := allocIfEmpty i s
            match dataBlockGet (s.inodeTable i).iDataBlock with
            | none => some (-1, s)
            | some block =>
                -- the `memcpy` would leave `fs_data`
                if block + offset + toWrite > fsDataSize then
                  none
                else
                  some (castLong toWrite, storeBytes h i block buffer toWrite s)
          else
            some (castLong toWrite, s)

/-- How many bytes `_tfs_read_unsynchronized` copies. -/
def readCount (size offset len : ℕ) : ℕ :=
  if sizeSub size offset > len then len else sizeSub size offset

/-- The result is the return value, the bytes stored in the caller's buffer, and the new state. -/
def tfsReadUnsynchronized (fhandle : ℤ) (len : ℕ) (s : State) :
    Option (ℤ × List Byte × State) :=
  match getOpenFileEntry fhandle with
  | none => some (-1, [], s)
  | some h =>
      match inodeGet (s.openFileTable h).ofInumber with
      | none => some (-1, [], s)
      | some i =>
          let file := s.openFileTable h
          let toRead := readCount (s.inodeTable i).iSize file.ofOffset len
          if toRead > 0 then
            match dataBlockGet (s.inodeTable i).iDataBlock with
            | none => some (-1, [], s)
            | some block =>
                -- the `memcpy` would leave `fs_data`
                if block + file.ofOffset + toRead > fsDataSize then
                  none
                else
                  some (castLong toRead, memread s.disk.fsData (block + file.ofOffset) toRead,
                    s.setEntry h { file with ofOffset := sizeAdd file.ofOffset toRead })
          else
            some (castLong toRead, [], s)

/-! ## The library as a machine -/

/-- A call of the library. -/
inductive Call
  | open (name : Path) (flags : ℤ)
  | close (fhandle : ℤ)
  | write (fhandle : ℤ) (buffer : ℕ → Byte) (len : ℕ)
  | read (fhandle : ℤ) (len : ℕ)

/-- What a call gives back: its return value and the bytes it delivered. -/
structure Reply where
  ret : ℤ
  data : List Byte
  deriving DecidableEq

def exec : Call → State → Option (Reply × State)
  | .open name flags, s =>
      (tfsOpen name flags s).map fun x => (⟨x.1, []⟩, x.2)
  | .close fhandle, s =>
      some (⟨(tfsClose fhandle s).1, []⟩, (tfsClose fhandle s).2)
  | .write fhandle buffer len, s =>
      (tfsWriteUnsynchronized fhandle buffer len s).map fun x => (⟨x.1, []⟩, x.2)
  | .read fhandle len, s =>
      (tfsReadUnsynchronized fhandle len s).map fun x => (⟨x.1, x.2.1⟩, x.2.2)

def library : Machine State Call Reply where
  exec := exec

/-- The handle was returned by `tfs_open` and not closed since. -/
def HandleOpen (s : State) (fhandle : ℤ) : Prop :=
  ∃ h : ℕ, h < 20 ∧ fhandle = h ∧ s.freeOpenFileEntries h = .taken

/-- Reads and writes use open handles only. -/
def OnOpenHandle (s : State) : Call → Prop
  | .open _ _ => True
  | .close _ => True
  | .write fhandle _ _ => HandleOpen s fhandle
  | .read fhandle _ => HandleOpen s fhandle

instance (s : State) (fhandle : ℤ) : Decidable (HandleOpen s fhandle) :=
  inferInstanceAs (Decidable (∃ h : ℕ, h < 20 ∧ fhandle = h ∧ s.freeOpenFileEntries h = .taken))

instance (s : State) (a : Call) : Decidable (OnOpenHandle s a) :=
  match a with
  | .open _ _ => inferInstanceAs (Decidable True)
  | .close _ => inferInstanceAs (Decidable True)
  | .write fhandle _ _ => inferInstanceAs (Decidable (HandleOpen s fhandle))
  | .read fhandle _ => inferInstanceAs (Decidable (HandleOpen s fhandle))

/-- Runs from `tfs_init` of any calls whatsoever. -/
def anyCalls : System State Call :=
  library.toSystem tfsInit.2 fun _ _ => True

/-- Runs from `tfs_init` whose reads and writes use open handles. -/
def properCalls : System State Call :=
  library.toSystem tfsInit.2 OnOpenHandle

/-! ## What each operation can do -/

section Cases

variable {s t : State} {r : ℤ}

/-- The state after a successful entry into the open file table. -/
def addedHandle (s : State) (h : ℕ) (inumber : ℤ) (offset : ℕ) : State :=
  { (s.markHandle h .taken).setEntry h ⟨inumber, offset⟩ with
    openFilesNumber := s.openFilesNumber + 1 }

theorem addToOpenFileTable_cases (inumber : ℤ) (offset : ℕ) (s : State) :
    (∃ h < 20, s.freeOpenFileEntries h = .free ∧ (∀ j < h, s.freeOpenFileEntries j = .taken) ∧
        addToOpenFileTable inumber offset s = (↑h, addedHandle s h inumber offset)) ∨
      ((∀ h < 20, s.freeOpenFileEntries h = .taken) ∧
        addToOpenFileTable inumber offset s = (-1, s)) := by
  unfold addToOpenFileTable
  rcases hscan : firstFree s.freeOpenFileEntries maxOpenFiles with _ | h
  · right
    exact ⟨fun h hh => firstFree_eq_none.1 hscan h hh, rfl⟩
  · left
    rcases firstFree_eq_some.1 hscan with ⟨hlt, hfree, hbefore⟩
    exact ⟨h, hlt, hfree, hbefore, rfl⟩

theorem removeFromOpenFileTable_cases (fhandle : ℤ) (s : State) :
    (∃ h : ℕ, h < 20 ∧ fhandle = h ∧ s.freeOpenFileEntries h = .taken ∧
        removeFromOpenFileTable fhandle s =
          (0, { s.markHandle h .free with openFilesNumber := s.openFilesNumber - 1 })) ∨
      (¬ HandleOpen s fhandle ∧ removeFromOpenFileTable fhandle s = (-1, s)) := by
  by_cases hopen : HandleOpen s fhandle
  · left
    rcases hopen with ⟨h, hh, rfl, htaken⟩
    refine ⟨h, hh, rfl, htaken, ?_⟩
    have hv : validFileHandle (h : ℤ) = true := validFileHandle_natCast.2 hh
    simp [removeFromOpenFileTable, hv, htaken]
  · right
    refine ⟨hopen, ?_⟩
    by_cases hv : validFileHandle fhandle = true
    · have hrange := validFileHandle_iff.1 hv
      have hfree : s.freeOpenFileEntries fhandle.toNat ≠ .taken := fun htaken =>
        hopen ⟨fhandle.toNat, by omega, by omega, htaken⟩
      simp [removeFromOpenFileTable, hfree]
    · simp [removeFromOpenFileTable, hv]

/-- The state after the creation of an empty file's i-node. -/
def createdInode (s : State) (i : ℕ) : State :=
  (s.markInode i .taken).setInode i ⟨.file, 0, -1⟩

/-- The i-node of a new file is the first free one. -/
theorem inodeCreate_file_some {i : ℕ} (hi : firstFree s.freeinodeTs inodeTableSize = some i) :
    inodeCreate .file s = (↑i, createdInode s i) := by
  unfold inodeCreate
  rw [hi]
  simp [createdInode, State.setInode, State.markInode]

theorem inodeCreate_file_cases (s : State) :
    (∃ i < 50, s.freeinodeTs i = .free ∧ inodeCreate .file s = (↑i, createdInode s i)) ∨
      ((∀ i < 50, s.freeinodeTs i = .taken) ∧ inodeCreate .file s = (-1, s)) := by
  rcases hscan : firstFree s.freeinodeTs inodeTableSize with _ | i
  · right
    refine ⟨fun i hi => firstFree_eq_none.1 hscan i hi, ?_⟩
    unfold inodeCreate
    rw [hscan]
  · left
    rcases firstFree_eq_some.1 hscan with ⟨hlt, hfree, _⟩
    exact ⟨i, hlt, hfree, inodeCreate_file_some hscan⟩

/-- A copy that stays in `fs_data` stays in its block: the counts that do not are close to 2^64. -/
theorem writeCount_fits {offset n : ℕ} (h : offset + writeCount offset n ≤ 1048576) :
    offset + writeCount offset n ≤ 1024 := by
  unfold writeCount at h ⊢
  by_cases hclamp : sizeAdd n offset > blockSize
  · rw [if_pos hclamp] at h ⊢
    rcases le_or_gt offset 1024 with hoff | hoff
    · rw [sizeSub_of_le hoff (by decide)]
      omega
    · rw [sizeSub_of_lt hoff (by omega)] at h
      omega
  · rw [if_neg hclamp] at h ⊢
    -- the sum does not wrap
    rw [sizeAdd_of_lt (by omega)] at hclamp
    simp only [blockSize] at hclamp
    omega

/-- What `tfs_write` can do: refuse the handle, find nothing to copy, find no block, or copy. -/
theorem tfsWriteUnsynchronized_cases {fhandle : ℤ} {buffer : ℕ → Byte} {n : ℕ}
    (hw : tfsWriteUnsynchronized fhandle buffer n s = some (r, t)) :
    (¬ (0 ≤ fhandle ∧ fhandle < 20) ∧ r = -1 ∧ t = s) ∨
    ∃ h : ℕ, h < 20 ∧ fhandle = h ∧
      ((inodeGet (s.openFileTable h).ofInumber = none ∧ r = -1 ∧ t = s) ∨
      ∃ i : ℕ, i < 50 ∧ (s.openFileTable h).ofInumber = i ∧
        ((writeCount (s.openFileTable h).ofOffset n = 0 ∧ r = 0 ∧ t = s) ∨
        (0 < writeCount (s.openFileTable h).ofOffset n ∧
          dataBlockGet ((allocIfEmpty i s).inodeTable i).iDataBlock = none ∧
          r = -1 ∧ t = allocIfEmpty i s) ∨
        ∃ b : ℕ, b < 1024 ∧ ((allocIfEmpty i s).inodeTable i).iDataBlock = b ∧
          0 < writeCount (s.openFileTable h).ofOffset n ∧
          (s.openFileTable h).ofOffset + writeCount (s.openFileTable h).ofOffset n ≤ 1024 ∧
          r = writeCount (s.openFileTable h).ofOffset n ∧
          t = storeBytes h i (b * 1024) buffer (writeCount (s.openFileTable h).ofOffset n)
            (allocIfEmpty i s))) := by
  unfold tfsWriteUnsynchronized at hw
  rcases hh : getOpenFileEntry fhandle with _ | h
  · simp only [hh, Option.some.injEq, Prod.mk.injEq] at hw
    exact Or.inl ⟨getOpenFileEntry_eq_none.1 hh, hw.1.symm, hw.2.symm⟩
  right
  rcases getOpenFileEntry_eq_some.1 hh with ⟨hEq, hlt⟩
  refine ⟨h, hlt, hEq, ?_⟩
  rcases hi : inodeGet (s.openFileTable h).ofInumber with _ | i
  · simp only [hh, hi, Option.some.injEq, Prod.mk.injEq] at hw
    exact Or.inl ⟨rfl, hw.1.symm, hw.2.symm⟩
  right
  rcases inodeGet_eq_some.1 hi with ⟨hiEq, hilt⟩
  refine ⟨i, hilt, hiEq, ?_⟩
  simp only [hh, hi] at hw
  set n' := writeCount (s.openFileTable h).ofOffset n with hn'
  by_cases hpos : n' > 0
  · rw [if_pos hpos] at hw
    rcases hb : dataBlockGet ((allocIfEmpty i s).inodeTable i).iDataBlock with _ | block
    · simp only [hb, Option.some.injEq, Prod.mk.injEq] at hw
      exact Or.inr (Or.inl ⟨hpos, rfl, hw.1.symm, hw.2.symm⟩)
    · rcases dataBlockGet_eq_some_iff.1 hb with ⟨b, hblt, hbEq, rfl⟩
      -- a copy out of `fs_data` has no result, and no other one leaves the block
      by_cases hfit : b * 1024 + (s.openFileTable h).ofOffset + n' > 1048576
      · simp [hb, hfit] at hw
      · have hin : (s.openFileTable h).ofOffset + n' ≤ 1024 := writeCount_fits (by omega)
        simp only [hb, fsDataSize_eq, hfit, if_false, Option.some.injEq, Prod.mk.injEq] at hw
        have hr : castLong (n' : ℤ) = n' := castLong_of_range (by omega) (by omega)
        exact Or.inr (Or.inr ⟨b, hblt, hbEq, hpos, hin, by rw [← hw.1, hr], hw.2.symm⟩)
  · rw [if_neg hpos] at hw
    have hzero : n' = 0 := by omega
    simp only [hzero, Option.some.injEq, Prod.mk.injEq] at hw
    exact Or.inl ⟨hzero, by rw [← hw.1]; rfl, hw.2.symm⟩

/-- What `tfs_read` can do. -/
theorem tfsReadUnsynchronized_cases {fhandle : ℤ} {n : ℕ} {out : List Byte}
    (hr : tfsReadUnsynchronized fhandle n s = some (r, out, t)) :
    (¬ (0 ≤ fhandle ∧ fhandle < 20) ∧ r = -1 ∧ out = [] ∧ t = s) ∨
    ∃ h : ℕ, h < 20 ∧ fhandle = h ∧
      ((inodeGet (s.openFileTable h).ofInumber = none ∧ r = -1 ∧ out = [] ∧ t = s) ∨
      ∃ i : ℕ, i < 50 ∧ (s.openFileTable h).ofInumber = i ∧
        ((readCount (s.inodeTable i).iSize (s.openFileTable h).ofOffset n = 0 ∧
          r = 0 ∧ out = [] ∧ t = s) ∨
        (0 < readCount (s.inodeTable i).iSize (s.openFileTable h).ofOffset n ∧
          dataBlockGet (s.inodeTable i).iDataBlock = none ∧ r = -1 ∧ out = [] ∧ t = s) ∨
        ∃ b : ℕ, b < 1024 ∧ (s.inodeTable i).iDataBlock = b ∧
          0 < readCount (s.inodeTable i).iSize (s.openFileTable h).ofOffset n ∧
          b * 1024 + (s.openFileTable h).ofOffset +
            readCount (s.inodeTable i).iSize (s.openFileTable h).ofOffset n ≤ 1048576 ∧
          r = readCount (s.inodeTable i).iSize (s.openFileTable h).ofOffset n ∧
          out = memread s.disk.fsData (b * 1024 + (s.openFileTable h).ofOffset)
            (readCount (s.inodeTable i).iSize (s.openFileTable h).ofOffset n) ∧
          t = s.setEntry h { s.openFileTable h with
            ofOffset := (s.openFileTable h).ofOffset +
              readCount (s.inodeTable i).iSize (s.openFileTable h).ofOffset n })) := by
  unfold tfsReadUnsynchronized at hr
  rcases hh : getOpenFileEntry fhandle with _ | h
  · simp only [hh, Option.some.injEq, Prod.mk.injEq] at hr
    exact Or.inl ⟨getOpenFileEntry_eq_none.1 hh, hr.1.symm, hr.2.1.symm, hr.2.2.symm⟩
  right
  rcases getOpenFileEntry_eq_some.1 hh with ⟨hEq, hlt⟩
  refine ⟨h, hlt, hEq, ?_⟩
  rcases hi : inodeGet (s.openFileTable h).ofInumber with _ | i
  · simp only [hh, hi, Option.some.injEq, Prod.mk.injEq] at hr
    exact Or.inl ⟨rfl, hr.1.symm, hr.2.1.symm, hr.2.2.symm⟩
  right
  rcases inodeGet_eq_some.1 hi with ⟨hiEq, hilt⟩
  refine ⟨i, hilt, hiEq, ?_⟩
  simp only [hh, hi] at hr
  set n' := readCount (s.inodeTable i).iSize (s.openFileTable h).ofOffset n with hn'
  by_cases hpos : n' > 0
  · rw [if_pos hpos] at hr
    rcases hb : dataBlockGet (s.inodeTable i).iDataBlock with _ | block
    · simp only [hb, Option.some.injEq, Prod.mk.injEq] at hr
      exact Or.inr (Or.inl ⟨hpos, rfl, hr.1.symm, hr.2.1.symm, hr.2.2.symm⟩)
    · rcases dataBlockGet_eq_some_iff.1 hb with ⟨b, hblt, hbEq, rfl⟩
      -- a copy from outside of `fs_data` has no result
      by_cases hfit : b * 1024 + (s.openFileTable h).ofOffset + n' > 1048576
      · simp [hb, hfit] at hr
      · have hlong : castLong (n' : ℤ) = n' := castLong_of_range (by omega) (by omega)
        have hadd : sizeAdd (s.openFileTable h).ofOffset n' = (s.openFileTable h).ofOffset + n' :=
          sizeAdd_of_lt (by omega)
        simp only [hb, fsDataSize_eq, hfit, if_false, Option.some.injEq, Prod.mk.injEq, hlong, hadd] at hr
        exact Or.inr (Or.inr ⟨b, hblt, hbEq, hpos, by omega, hr.1.symm, hr.2.1.symm, hr.2.2.symm⟩)
  · rw [if_neg hpos] at hr
    have hzero : n' = 0 := by omega
    simp only [hzero, Option.some.injEq, Prod.mk.injEq] at hr
    exact Or.inl ⟨hzero, by rw [← hr.1]; rfl, hr.2.1.symm, hr.2.2.symm⟩

end Cases

end Server
end TecnicoFs
