import TecnicoFs.Tfs.ReadFromStart
import TecnicoFs.Tfs.ShortWrite

/-!
# Copying out — `tfs_copy_to_external_fs`

The function opens the source, reads it into a buffer and writes the buffer to a file of the operating
system.  It asks `inode_get` for the handle instead of the i-number, so the buffer has the size of another
file; it does not truncate the destination; and most of its early returns keep the handle.  What the system
calls do is an argument of the model.
-/

namespace TecnicoFs
namespace Tfs

open Lib

/-! ## The function -/

/-- What `open`, `write` and `close` of the operating system do with the destination; `written` is `none` for
the result -1, and otherwise the most bytes that `write` stores. -/
structure External where
  opened : Bool
  written : Option ℕ
  closed : Bool

/-- The second half of the function, from the `open` of the destination on.  The destination is `none` while
it does not exist; `open` without `O_TRUNC` keeps its contents. -/
def writeOut (handle size : ℤ) (buffer : List Byte) (os : External) (dest : Option (List Byte)) (s : State) :
    ℤ × State × Option (List Byte) :=
  if os.opened = false then
    (-1, s, dest)
  else
    let old := dest.getD []
    match os.written with
    | none => (-1, s, some old)
    | some count =>
        let stored := min count size.toNat
        let dest := some (buffer.take stored ++ old.drop stored)
        if (stored : ℤ) ≠ size then
          (-1, s, dest)
        else
          let (r, s) := tfsClose handle s
          if r < 0 then (-1, s, dest)
          else if os.closed = false then (-1, s, dest)
          else (0, s, dest)

/-- The return value, the new state and the new destination.  `none` is also the undefined behaviour of a
read past the end of the buffer. -/
def tfsCopyToExternalFs (sourcePath : Path) (os : External) (dest : Option (List Byte)) (s : State) :
    Option (ℤ × State × Option (List Byte)) :=
  if tfsLookup sourcePath s < 0 then
    some (-1, s, dest)
  else
    match tfsOpen sourcePath 0 s with
    | none => none
    | some (sourceInumber, s) =>
        if sourceInumber = -1 then
          some (-1, s, dest)
        else
          -- `source_inumber` is the handle
          match inodeGet sourceInumber with
          | none => some (-1, s, dest)
          | some inode =>
              let sourceSize := (s.inodeTable inode).iSize
              match tfsRead sourceInumber sourceSize s with
              | none => none
              | some (size, buffer, s) =>
                  if sourceSize < buffer.length then none
                  else if size < 0 then some (-1, s, dest)
                  else some (writeOut sourceInumber size buffer os dest s)

/-- A call of the function, with what the operating system does. -/
structure Copy where
  sourcePath : Path
  os : External
  dest : Option (List Byte)

def copies : Machine State Copy (ℤ × Option (List Byte)) where
  exec c s := (tfsCopyToExternalFs c.sourcePath c.os c.dest s).map fun x => ((x.1, x.2.2), x.2.1)

/-! ## What a copy needs -/

/-- The call opens file `i` on handle `h`. -/
structure Opens (s : State) (sourcePath : Path) (i h : ℕ) : Prop where
  found : tfsLookup sourcePath s = i
  inode : i < inodeTableSize
  handle : firstFree s.freeOpenFileEntries maxOpenFiles = some h

/-- How many bytes of file `i` it asks for: the sizes of i-node `h` and of the file both limit them. -/
def requestedLength (s : State) (i h : ℕ) : ℕ :=
  min (s.inodeTable h).iSize (s.inodeTable i).iSize

def copiedLength (s : State) (i h : ℕ) : ℕ :=
  deliveredLength s i (requestedLength s i h)

/-- The buffer has the size of i-node `h`. -/
def FitsBuffer (s : State) (i h : ℕ) : Prop :=
  copiedLength s i h ≤ (s.inodeTable h).iSize

instance (s : State) (i h : ℕ) : Decidable (FitsBuffer s i h) :=
  inferInstanceAs (Decidable (_ ≤ _))

/-- `write` stores `n` bytes. -/
def External.Stores (os : External) (n : ℕ) : Prop :=
  ∃ count, os.written = some count ∧ n ≤ count

/-- The file has all blocks that its size covers. -/
def HasAllBlocks (s : State) (i : ℕ) : Prop :=
  ∀ k, blockSize * k < (s.inodeTable i).iSize →
    k < directBlocksQuantity + indexEntries ∧ (blockAddress s i k).isSome

/-- `d` is the contents of file `i`. -/
def WholeFile (s : State) (i : ℕ) (d : List Byte) : Prop :=
  HasAllBlocks s i ∧ d = firstBytes s i (s.inodeTable i).iSize

/-! ## What a copy does -/

section Steps

variable {s t : State} {i j h m o : ℕ} {path : Path} {os : External} {dest : Option (List Byte)} {c : Copy}

theorem slotValue_withHandle (x : Slot) : slotValue (withHandle s h i o) x = slotValue s x := by
  cases x with
  | direct j k => rfl
  | index j => rfl
  | entry j k => rfl

theorem leadingBlocks_withHandle : leadingBlocks (withHandle s h i o) j = leadingBlocks s j := by
  unfold leadingBlocks blockAddress
  simp only [slotValue_withHandle]
  rfl

theorem deliveredLength_withHandle : deliveredLength (withHandle s h i o) j m = deliveredLength s j m := by
  unfold deliveredLength
  rw [leadingBlocks_withHandle]

theorem lacksIndex_withHandle : LacksIndex (withHandle s h i o) j m ↔ LacksIndex s j m := by
  unfold LacksIndex
  rw [leadingBlocks_withHandle]
  rfl

theorem firstBytes_withHandle : firstBytes (withHandle s h i o) j m = firstBytes s j m := by
  unfold firstBytes byteAt
  simp only [slotValue_withHandle]
  rfl

theorem Opens.lt (hc : Opens s path i h) : h < 20 ∧ s.freeOpenFileEntries h = .free := by
  rcases firstFree_eq_some.1 hc.handle with ⟨hlt, hfree, _⟩
  exact ⟨hlt, hfree⟩

theorem validPathname_of_found (hfound : 0 ≤ tfsLookup path s) : validPathname path = true := by
  by_contra hinvalid
  have hminus : tfsLookup path s = -1 := by
    rcases path with _ | p
    · rfl
    · simp [tfsLookup, hinvalid]
  omega

theorem tfsOpen_zero {z : ℤ} (hfound : tfsLookup path s = z) (hz : 0 ≤ z) :
    tfsOpen path 0 s = some (openExisting z 0 s) := by
  have hvalid := validPathname_of_found (hfound ▸ hz)
  unfold tfsOpen
  simp [hvalid, hfound, hz]

/-- Opening the source takes the first free handle. -/
theorem Opens.tfsOpen_eq (hc : Opens s path i h) : tfsOpen path 0 s = some ((h : ℤ), withHandle s h i 0) := by
  have hplain : ¬ Truncates 0 i s := fun htrunc => absurd htrunc.1 (by decide)
  rw [tfsOpen_zero hc.found (by omega), openExisting_of_not_truncates hc.inode hplain,
    if_neg (by decide)]
  unfold addToOpenFileTable
  rw [hc.handle]
  rfl

/-- Without a file or a handle nothing happens. -/
theorem tfsCopyToExternalFs_of_not_opens (hc : ∀ i h, ¬ Opens s path i h) :
    tfsCopyToExternalFs path os dest s = some (-1, s, dest) := by
  unfold tfsCopyToExternalFs
  by_cases hfound : tfsLookup path s < 0
  · rw [if_pos hfound]
  rw [if_neg hfound]
  have hfail : openExisting (tfsLookup path s) 0 s = (-1, s) := by
    rcases hget : inodeGet (tfsLookup path s) with _ | i
    · unfold openExisting truncateFile
      rw [hget]
    rcases inodeGet_eq_some.1 hget with ⟨hi, hlt⟩
    have hplain : ¬ Truncates 0 i s := fun htrunc => absurd htrunc.1 (by decide)
    rw [hi, openExisting_of_not_truncates hlt hplain, if_neg (by decide)]
    rcases hscan : firstFree s.freeOpenFileEntries maxOpenFiles with _ | h
    · unfold addToOpenFileTable
      rw [hscan]
    · exact absurd ⟨hi, hlt, hscan⟩ (hc i h)
  rw [tfsOpen_zero rfl (by omega), hfail]
  simp

/-- The read of the whole source. -/
theorem Opens.tfsRead_eq (hs : Shape s) (hc : Opens s path i h) :
    ∃ o, tfsRead h (s.inodeTable h).iSize (withHandle s h i 0) =
      some (if LacksIndex s i (requestedLength s i h) then -1 else (copiedLength s i h : ℤ),
        firstBytes s i (copiedLength s i h), withHandle s h i o) := by
  have hnum : ((withHandle s h i 0).openFileTable h).ofInumber = i := by simp [withHandle]
  have hoff : ((withHandle s h i 0).openFileTable h).ofOffset = 0 := by simp [withHandle]
  have hstart : readStart (withHandle s h i 0) h = 0 := by
    unfold readStart
    rw [hoff, Nat.zero_min]
  have hlength : readLength (withHandle s h i 0) h (s.inodeTable h).iSize = requestedLength s i h := by
    unfold readLength fileSize
    rw [hstart, hnum, Int.toNat_natCast]
    rfl
  rcases readBlocks_fromStart (m := requestedLength s i h) (i := i) hoff with ⟨o, hread⟩
  refine ⟨o, ?_⟩
  -- the read moves the offset of the new handle and nothing else
  have hself : (withHandle s h i 0).setEntry h { (withHandle s h i 0).openFileTable h with ofOffset := 0 } =
      withHandle s h i 0 := by
    simp [withHandle, State.setEntry]
  have hmoved : (withHandle s h i 0).setEntry h { (withHandle s h i 0).openFileTable h with ofOffset := o } =
      withHandle s h i o := by
    simp [withHandle, State.setEntry]
  rw [(shape_withHandle hs hc.inode (by omega)).tfsRead_eq hc.lt.1 hnum hc.inode, hlength, hstart,
      hself, Nat.zero_div, hread,
    hmoved]
  simp only [lacksIndex_withHandle, deliveredLength_withHandle, firstBytes_withHandle]
  rfl

theorem Opens.tfsClose_eq (hc : Opens s path i h) :
    tfsClose h (withHandle s h i o) = (0, (withHandle s h i o).markHandle h .free) := by
  have hvalid : validFileHandle (h : ℤ) = true := validFileHandle_natCast.2 hc.lt.1
  unfold tfsClose removeFromOpenFileTable
  simp [hvalid, withHandle]

/-- The call up to the `open` of the destination. -/
theorem Opens.copy_eq (hs : Shape s) (hc : Opens s path i h) (os : External) (dest : Option (List Byte)) :
    ∃ o, tfsCopyToExternalFs path os dest s =
      if FitsBuffer s i h then
        some (if LacksIndex s i (requestedLength s i h) then (-1, withHandle s h i o, dest)
          else writeOut h (copiedLength s i h) (firstBytes s i (copiedLength s i h)) os dest (withHandle s h i o))
      else none := by
  rcases hc.tfsRead_eq hs with ⟨o, hread⟩
  refine ⟨o, ?_⟩
  have hnode : (withHandle s h i 0).inodeTable = s.inodeTable := rfl
  have hlt : h < 50 := by
    have := hc.lt.1
    omega
  unfold tfsCopyToExternalFs
  rw [if_neg (by rw [hc.found]; omega), hc.tfsOpen_eq]
  simp only [show ¬ (h : ℤ) = -1 by omega, if_false, inodeGet_natCast hlt, hnode, hread, length_firstBytes]
  by_cases hfits : FitsBuffer s i h
  · rw [if_pos hfits, if_neg (not_lt.2 hfits)]
    by_cases hlacks : LacksIndex s i (requestedLength s i h)
    · simp [hlacks]
    · simp [hlacks]
  · rw [if_neg hfits, if_pos (not_le.1 hfits)]

/-- With all system calls successful the handle is closed, and the destination begins with the bytes. -/
theorem Opens.writeOut_of_stores (hc : Opens s path i h) {n : ℕ} {buffer : List Byte} (hlen : buffer.length = n)
    (hopen : os.opened = true) (hstore : os.Stores n) :
    writeOut h n buffer os dest (withHandle s h i o) =
      (if os.closed = true then 0 else -1, (withHandle s h i o).markHandle h .free,
        some (buffer ++ (dest.getD []).drop n)) := by
  rcases hstore with ⟨count, hwritten, hle⟩
  have hmin : min count n = n := by omega
  have htake : buffer.take n = buffer := List.take_of_length_le hlen.le
  unfold writeOut
  rw [if_neg (by simp [hopen]), hwritten]
  simp only [Int.toNat_natCast, hmin, htake, ne_eq, not_true_eq_false, if_false, hc.tfsClose_eq]
  cases os.closed with
  | false => simp
  | true => simp

/-- Otherwise the handle stays open. -/
theorem writeOut_of_not_stores {n : ℕ} (buffer : List Byte) (dest : Option (List Byte)) (s : State)
    (hfail : ¬ (os.opened = true ∧ os.Stores n)) :
    ∃ d, writeOut h n buffer os dest s = (-1, s, d) := by
  unfold writeOut
  by_cases hopen : os.opened = false
  · rw [if_pos hopen]
    exact ⟨_, rfl⟩
  rw [if_neg hopen]
  rcases hwritten : os.written with _ | count
  · exact ⟨_, rfl⟩
  · have hshort : ((min count n : ℕ) : ℤ) ≠ n := by
      intro hEq
      exact hfail ⟨by simpa using hopen, count, hwritten, by omega⟩
    simp only [Int.toNat_natCast, if_pos hshort]
    exact ⟨_, rfl⟩

/-- Only `tfs_close` changes the state in the second half. -/
theorem writeOut_state (z size : ℤ) (buffer : List Byte) (os : External) (dest : Option (List Byte))
    (s : State) :
    (writeOut z size buffer os dest s).2.1 = s ∨ (writeOut z size buffer os dest s).2.1 = (tfsClose z s).2 := by
  unfold writeOut
  by_cases hopen : os.opened = false
  · rw [if_pos hopen]
    exact Or.inl rfl
  rw [if_neg hopen]
  rcases os.written with _ | count
  · exact Or.inl rfl
  rcases hclose : tfsClose z s with ⟨r, u⟩
  simp only
  split
  · exact Or.inl rfl
  split
  · exact Or.inr rfl
  split
  · exact Or.inr rfl
  · exact Or.inr rfl

/-- A copy is made of calls, so the states after copies are those that calls reach. -/
theorem reachable_of_copy {r : ℤ} {d : Option (List Byte)} (hs : anyCalls.Reachable s)
    (hcopy : tfsCopyToExternalFs path os dest s = some (r, t, d)) : anyCalls.Reachable t := by
  have hcall : ∀ {u v : State} {a : Call} {reply : Reply}, anyCalls.Reachable u → exec a u = some (reply, v) →
      anyCalls.Reachable v := fun hu hexec => hu.next ⟨trivial, _, hexec⟩
  unfold tfsCopyToExternalFs at hcopy
  split at hcopy
  · cases hcopy
    exact hs
  rcases hopen : tfsOpen path 0 s with _ | ⟨z, u⟩
  · simp [hopen] at hcopy
  have hu : anyCalls.Reachable u := hcall (a := .open path 0) hs (by rw [exec, hopen]; rfl)
  simp only [hopen] at hcopy
  split at hcopy
  · cases hcopy
    exact hu
  rcases hinode : inodeGet z with _ | j
  · simp only [hinode] at hcopy
    cases hcopy
    exact hu
  rcases hread : tfsRead z (u.inodeTable j).iSize u with _ | ⟨size, buffer, v⟩
  · simp [hinode, hread] at hcopy
  have hv : anyCalls.Reachable v := hcall (a := .read z _) hu (by rw [exec, hread]; rfl)
  simp only [hinode, hread] at hcopy
  split at hcopy
  · cases hcopy
  split at hcopy
  · cases hcopy
    exact hv
  -- what follows the read is a close or nothing, as far as `tfs` goes
  have hstate := writeOut_state z size buffer os dest v
  rw [Option.some.inj hcopy] at hstate
  rcases hstate with rfl | rfl
  · exact hv
  · exact hcall (a := .close z) hv rfl

end Steps

/-! ## The copy is the whole file -/

/-- The call has an outcome, and if it returns 0 the destination has the contents of the file. -/
def CopiesWholeFile (s : State) (c : Copy) : Prop :=
  ∃ r t dest, tfsCopyToExternalFs c.sourcePath c.os c.dest s = some (r, t, dest) ∧
    (r = 0 → ∃ d, dest = some d ∧ WholeFile s (tfsLookup c.sourcePath s).toNat d)

/-- What the buffer takes, and what an old destination keeps behind it. -/
def DeliversFile (s : State) (c : Copy) : Prop :=
  ∀ i h, Opens s c.sourcePath i h → FitsBuffer s i h ∧
    (¬ LacksIndex s i (requestedLength s i h) → c.os.opened = true → c.os.Stores (copiedLength s i h) →
      c.os.closed = true → HasAllBlocks s i ∧ copiedLength s i h ≤ (s.inodeTable i).iSize ∧
        (c.dest.getD []).drop (copiedLength s i h) =
          (firstBytes s i (s.inodeTable i).iSize).drop (copiedLength s i h))

section Whole

variable {s : State} {i h n : ℕ} {c : Copy}

/-- The first `n` bytes, and then a rest, are the whole file. -/
theorem wholeFile_append_iff {rest : List Byte} : WholeFile s i (firstBytes s i n ++ rest) ↔
    HasAllBlocks s i ∧ n ≤ (s.inodeTable i).iSize ∧ rest = (firstBytes s i (s.inodeTable i).iSize).drop n := by
  unfold WholeFile
  refine and_congr_right fun _ => ?_
  constructor
  · intro hEq
    have hlen := congrArg List.length hEq
    rw [List.length_append, length_firstBytes, length_firstBytes] at hlen
    refine ⟨by omega, ?_⟩
    rw [← hEq, List.drop_left' (length_firstBytes s i n)]
  · rintro ⟨hle, rfl⟩
    rw [← take_firstBytes hle, List.take_append_drop]

theorem copiesWholeFile_iff {hist : List (State × Call)} (he : anyCalls.Execution hist s) (c : Copy) :
    CopiesWholeFile s c ↔ DeliversFile s c := by
  have hs := shape_of_execution he
  unfold CopiesWholeFile DeliversFile
  by_cases hopens : ∃ i h, Opens s c.sourcePath i h
  · rcases hopens with ⟨i, h, hc⟩
    -- file and handle are determined by the state
    have honly : ∀ j g, Opens s c.sourcePath j g → j = i ∧ g = h := by
      intro j g hj
      have hfound := hj.found.symm.trans hc.found
      have hhandle := hj.handle.symm.trans hc.handle
      exact ⟨by omega, Option.some.inj hhandle⟩
    rcases hc.copy_eq hs c.os c.dest with ⟨o, hcopy⟩
    have hnum : (tfsLookup c.sourcePath s).toNat = i := by rw [hc.found, Int.toNat_natCast]
    rw [hcopy, hnum]
    constructor
    · rintro ⟨r, t, dest, hEq, hwhole⟩ j g hj
      rcases honly j g hj with ⟨rfl, rfl⟩
      by_cases hfits : FitsBuffer s j g
      · refine ⟨hfits, ?_⟩
        intro hread hopen hstore hclose
        rw [if_pos hfits, if_neg hread, hc.writeOut_of_stores (length_firstBytes _ _ _) hopen hstore,
            if_pos hclose] at hEq
        cases hEq
        rcases hwhole rfl with ⟨d, hd, hfile⟩
        cases hd
        exact wholeFile_append_iff.1 hfile
      · rw [if_neg hfits] at hEq
        cases hEq
    · intro hall
      rcases hall i h hc with ⟨hfits, hrest⟩
      rw [if_pos hfits]
      by_cases hread : LacksIndex s i (requestedLength s i h)
      · rw [if_pos hread]
        exact ⟨_, _, _, rfl, fun hzero => absurd hzero (by omega)⟩
      rw [if_neg hread]
      by_cases hstore : c.os.opened = true ∧ c.os.Stores (copiedLength s i h)
      · rw [hc.writeOut_of_stores (length_firstBytes _ _ _) hstore.1 hstore.2]
        refine ⟨_, _, _, rfl, ?_⟩
        intro hzero
        have hclose : c.os.closed = true := by
          by_contra hnot
          rw [if_neg hnot] at hzero
          omega
        exact ⟨_, rfl, wholeFile_append_iff.2 (hrest hread hstore.1 hstore.2 hclose)⟩
      · rcases writeOut_of_not_stores (h := h) (firstBytes s i (copiedLength s i h)) c.dest
          (withHandle s h i o) hstore with ⟨d, hEq⟩
        rw [hEq]
        exact ⟨_, _, _, rfl, fun hzero => absurd hzero (by omega)⟩
  · push Not at hopens
    refine iff_of_true ?_ fun i h hc => absurd hc (hopens i h)
    exact ⟨_, _, _, tfsCopyToExternalFs_of_not_opens hopens, fun hzero => absurd hzero (by omega)⟩

/-- Create `/a` and write one byte. -/
def oneByte : List Call :=
  [.open (some slashA) tfsOCreat, .write 0 (fun _ => 0x41) 1]

/-- `/a` is file 1 with one byte in one block, and handle 1 is free. -/
structure OneByteFile (s : State) : Prop where
  found : tfsLookup (some slashA) s = 1
  handle : firstFree s.freeOpenFileEntries maxOpenFiles = some 1
  size : (s.inodeTable 1).iSize = 1
  index : dataBlockGet (s.inodeTable 1).iIndexBlock ≠ none
  leading : leadingBlocks s 1 = 1

theorem performAll_oneByte :
    (System.performAll (fileSystem.record fun _ _ => True) oneByte ([], tfsInit.2)).any
      (fun x => tfsLookup (some slashA) x.2 = 1 ∧ firstFree x.2.freeOpenFileEntries maxOpenFiles = some 1 ∧
        (x.2.inodeTable 1).iSize = 1 ∧ dataBlockGet (x.2.inodeTable 1).iIndexBlock ≠ none ∧
        leadingBlocks x.2 1 = 1) = true := by
  rw [tfsInit_eq]
  decide +kernel

theorem exists_oneByteFile : ∃ hist s, anyCalls.Execution hist s ∧ hist.map Prod.snd = oneByte.reverse ∧
    OneByteFile s := by
  rcases Machine.execution_of_any performAll_oneByte with ⟨hist, s, he, hlabels, hfound, hhandle, hsize,
      hindex, hlead⟩
  exact ⟨hist, s, he, hlabels, hfound, hhandle, hsize, hindex, hlead⟩

/-- A copy of `/a` reads its byte into a buffer for one byte. -/
theorem OneByteFile.opens {h : ℕ} (hf : OneByteFile s) (hc : Opens s (some slashA) i h) :
    i = 1 ∧ h = 1 ∧ copiedLength s i h = 1 ∧ FitsBuffer s i h ∧ ¬ LacksIndex s i (requestedLength s i h) := by
  have hi : i = 1 := by
    have hfound := hc.found
    rw [hf.found] at hfound
    omega
  have hh : h = 1 := by
    have hhandle := hc.handle
    rw [hf.handle] at hhandle
    exact (Option.some.inj hhandle).symm
  subst hi
  subst hh
  have hlen : copiedLength s 1 1 = 1 := by
    simp [copiedLength, requestedLength, deliveredLength, hf.size, hf.leading]
  exact ⟨rfl, rfl, hlen, by rw [FitsBuffer, hlen, hf.size], fun hlacks => hf.index hlacks.1⟩

theorem copiesWholeFile_iff_oneByte : ∃ hist s, anyCalls.Execution hist s ∧
    hist.map Prod.snd = oneByte.reverse ∧ CopiesWholeFile s ⟨some slashA, ⟨true, some 1, true⟩, none⟩ := by
  rcases exists_oneByteFile with ⟨hist, s, he, hlabels, hf⟩
  refine ⟨hist, s, he, hlabels, (copiesWholeFile_iff he _).2 ?_⟩
  intro i h hc
  rcases hf.opens hc with ⟨rfl, rfl, hlen, hfits, _⟩
  refine ⟨hfits, fun _ _ _ _ => ⟨?_, by rw [hlen, hf.size], ?_⟩⟩
  · intro k hk
    have hzero : k = 0 := by
      rw [hf.size] at hk
      simp only [blockSize] at hk
      omega
    subst hzero
    rcases (leadingBlocks_spec s 1).2.1 0 (by rw [hf.leading]; omega) with ⟨a, ha⟩
    exact ⟨by decide, by rw [ha]; rfl⟩
  · rw [hlen, hf.size]
    rfl

theorem letterB_ne_zero : (0x62 : Byte) ≠ 0 := by
  decide

/-- Create `/a` and `/b`, write one byte to `/b` and close it. -/
def twoFiles : List Call :=
  [.open (some slashA) tfsOCreat, .open (some (slash 0x62 letterB_ne_zero)) tfsOCreat,
    .write 1 (fun _ => 0x41) 1, .close 1]

theorem performAll_twoFiles :
    (System.performAll (fileSystem.record fun _ _ => True) twoFiles ([], tfsInit.2)).any
      (fun x => (tfsLookup (some (slash 0x62 letterB_ne_zero)) x.2 = 2 ∧ (x.2.inodeTable 2).iSize = 1) ∧
        (tfsCopyToExternalFs (some (slash 0x62 letterB_ne_zero)) ⟨true, some 1, true⟩ none x.2).any
          (fun y => decide (y.1 = 0) && decide (y.2.2 = some [])) = true) = true := by
  rw [tfsInit_eq]
  decide +kernel

/-- The copy of `/b` gets handle 1, which is the number of the empty file `/a`: it returns 0, and the
destination is empty. -/
theorem copy_loses_contents : ∃ hist s t, anyCalls.Execution hist s ∧ hist.map Prod.snd = twoFiles.reverse ∧
    tfsCopyToExternalFs (some (slash 0x62 letterB_ne_zero)) ⟨true, some 1, true⟩ none s = some (0, t, some []) ∧
    (s.inodeTable 2).iSize = 1 ∧
    ¬ CopiesWholeFile s ⟨some (slash 0x62 letterB_ne_zero), ⟨true, some 1, true⟩, none⟩ := by
  rcases Machine.execution_of_any performAll_twoFiles with ⟨hist, s, he, hlabels, ⟨hfound, hsize⟩, hcopy⟩
  rcases (Option.any_eq_true _ _).1 hcopy with ⟨⟨r, t, d⟩, hEq, hboth⟩
  have hr : r = 0 := of_decide_eq_true (Bool.and_eq_true_iff.1 hboth).1
  have hd : d = some [] := of_decide_eq_true (Bool.and_eq_true_iff.1 hboth).2
  subst hr
  subst hd
  refine ⟨hist, s, t, he, hlabels, hEq, hsize, ?_⟩
  rintro ⟨r, u, dest, hcall, hwhole⟩
  have hcall : tfsCopyToExternalFs (some (slash 0x62 letterB_ne_zero)) ⟨true, some 1, true⟩ none s =
      some (r, u, dest) := hcall
  rw [hEq] at hcall
  cases hcall
  -- the destination is empty, and the file has one byte
  rcases hwhole rfl with ⟨d, hd, hfile⟩
  have hlen := congrArg List.length hfile.2
  have hnum : (tfsLookup (some (slash 0x62 letterB_ne_zero)) s).toNat = 2 := by rw [hfound]; rfl
  have hsize' : (s.inodeTable (tfsLookup (some (slash 0x62 letterB_ne_zero)) s).toNat).iSize = 1 := by
    rw [hnum, hsize]
  cases hd
  rw [length_firstBytes] at hlen
  exact absurd (hlen.trans hsize') (by simp)

end Whole

/-! ## The copy leaves the file system as it found it -/

/-- The blocks, the i-nodes and the open handles are the same. -/
structure LeavesFiles (s t : State) : Prop where
  disk : t.disk = s.disk
  inodeTable : t.inodeTable = s.inodeTable
  freeinodeTs : t.freeinodeTs = s.freeinodeTs
  freeOpenFileEntries : t.freeOpenFileEntries = s.freeOpenFileEntries
  openFileTable : ∀ h, s.freeOpenFileEntries h = .taken → t.openFileTable h = s.openFileTable h

/-- The call gets as far as `tfs_close`, if it opens the source. -/
def GivesHandleBack (s : State) (c : Copy) : Prop :=
  ∀ i h, Opens s c.sourcePath i h → FitsBuffer s i h ∧ ¬ LacksIndex s i (requestedLength s i h) ∧
    c.os.opened = true ∧ c.os.Stores (copiedLength s i h)

section Leaves

variable {s t u : State} {i h o : ℕ} {c : Copy} {r : ℤ × Option (List Byte)}

theorem LeavesFiles.refl (s : State) : LeavesFiles s s :=
  ⟨rfl, rfl, rfl, rfl, fun _ _ => rfl⟩

theorem LeavesFiles.symm (hl : LeavesFiles s t) : LeavesFiles t s where
  disk := hl.disk.symm
  inodeTable := hl.inodeTable.symm
  freeinodeTs := hl.freeinodeTs.symm
  freeOpenFileEntries := hl.freeOpenFileEntries.symm
  openFileTable h htaken := (hl.openFileTable h (by rw [← hl.freeOpenFileEntries, htaken])).symm

theorem LeavesFiles.trans (h₁ : LeavesFiles s t) (h₂ : LeavesFiles t u) : LeavesFiles s u where
  disk := h₂.disk.trans h₁.disk
  inodeTable := h₂.inodeTable.trans h₁.inodeTable
  freeinodeTs := h₂.freeinodeTs.trans h₁.freeinodeTs
  freeOpenFileEntries := h₂.freeOpenFileEntries.trans h₁.freeOpenFileEntries
  openFileTable h htaken :=
    (h₂.openFileTable h (by rw [h₁.freeOpenFileEntries, htaken])).trans (h₁.openFileTable h htaken)

theorem leavesFiles_closed (hc : Opens s c.sourcePath i h) :
    LeavesFiles s ((withHandle s h i o).markHandle h .free) where
  disk := rfl
  inodeTable := rfl
  freeinodeTs := rfl
  freeOpenFileEntries := by
    have hfree := hc.lt.2
    simp only [withHandle, State.markHandle_freeOpenFileEntries, State.setEntry_freeOpenFileEntries,
      Function.update_idem]
    rw [← hfree, Function.update_eq_self]
  openFileTable g htaken := by
    have hgh : g ≠ h := by
      rintro rfl
      simp [hc.lt.2] at htaken
    simp [withHandle, hgh]

/-- One copy: what it does to the handles. -/
theorem Shape.copy_cases (hs : Shape s) (c : Copy) :
    (GivesHandleBack s c ∧ ∃ r t, copies.exec c s = some (r, t) ∧ LeavesFiles s t) ∨
      (¬ GivesHandleBack s c ∧ (copies.exec c s = none ∨ ∃ r i h o, s.freeOpenFileEntries h = .free ∧
        copies.exec c s = some (r, withHandle s h i o))) := by
  have hexec : copies.exec c s =
      (tfsCopyToExternalFs c.sourcePath c.os c.dest s).map fun x => ((x.1, x.2.2), x.2.1) := rfl
  by_cases hopens : ∃ i h, Opens s c.sourcePath i h
  · rcases hopens with ⟨i, h, hc⟩
    rcases hc.copy_eq hs c.os c.dest with ⟨o, hcopy⟩
    rw [hexec, hcopy]
    by_cases hall : FitsBuffer s i h ∧ ¬ LacksIndex s i (requestedLength s i h) ∧ c.os.opened = true ∧
        c.os.Stores (copiedLength s i h)
    · -- all goes well, and the call reaches `tfs_close`
      left
      constructor
      · intro j g hj
        have hfound := hj.found.symm.trans hc.found
        have hji : j = i := by omega
        have hgh : g = h := Option.some.inj (hj.handle.symm.trans hc.handle)
        subst hji
        subst hgh
        exact hall
      · rcases hall with ⟨hfits, hread, hopen, hstore⟩
        rw [if_pos hfits, if_neg hread, hc.writeOut_of_stores (length_firstBytes _ _ _) hopen hstore]
        exact ⟨_, _, rfl, leavesFiles_closed hc⟩
    · right
      -- an early return keeps the handle; a read past the buffer has no outcome
      refine ⟨fun hgives => hall (hgives i h hc), ?_⟩
      by_cases hfits : FitsBuffer s i h
      · right
        rw [if_pos hfits]
        by_cases hread : LacksIndex s i (requestedLength s i h)
        · rw [if_pos hread]
          exact ⟨_, i, h, o, hc.lt.2, rfl⟩
        · rw [if_neg hread]
          rcases writeOut_of_not_stores (h := h) (firstBytes s i (copiedLength s i h)) c.dest
            (withHandle s h i o) (fun hstore => hall ⟨hfits, hread, hstore⟩) with ⟨d, hEq⟩
          rw [hEq]
          exact ⟨_, i, h, o, hc.lt.2, rfl⟩
      · left
        rw [if_neg hfits]
        rfl
  · -- the source is not opened, and nothing is done
    push Not at hopens
    left
    refine ⟨fun i h hc => absurd hc (hopens i h), (-1, c.dest), s, ?_, LeavesFiles.refl s⟩
    rw [hexec, tfsCopyToExternalFs_of_not_opens hopens]
    rfl

theorem reachable_copies (hs : anyCalls.Reachable s) (hexec : copies.exec c s = some (r, t)) :
    anyCalls.Reachable t := by
  rcases Option.map_eq_some_iff.1 hexec with ⟨⟨z, u, d⟩, hcopy, hEq⟩
  cases hEq
  exact reachable_of_copy hs hcopy

theorem shape_of_reachable (hs : anyCalls.Reachable s) : Shape s := by
  rcases hs with ⟨hist, he⟩
  exact shape_of_execution he

/-- A copy takes no handle away. -/
theorem copy_taken (hs : Shape s) (hexec : copies.exec c s = some (r, t)) {g : ℕ}
    (hg : s.freeOpenFileEntries g = .taken) : t.freeOpenFileEntries g = .taken := by
  rcases hs.copy_cases c with ⟨_, r', t', hEq, hleaves⟩ | ⟨_, hnone | ⟨r', i, h, o, hfree, hEq⟩⟩
  · rw [hexec] at hEq
    cases hEq
    rw [hleaves.freeOpenFileEntries, hg]
  · rw [hexec] at hnone
    cases hnone
  · rw [hexec] at hEq
    cases hEq
    have hgh : g ≠ h := by
      rintro rfl
      simp [hfree] at hg
    simp [withHandle, hgh, hg]

/-- Handles stay taken in a run of copies. -/
theorem copies_taken (as : List Copy) {s t : State} {rs : List (ℤ × Option (List Byte))}
    (hs : anyCalls.Reachable s) (hrun : copies.run as s = some (rs, t)) :
    ∀ g, s.freeOpenFileEntries g = .taken → t.freeOpenFileEntries g = .taken := by
  refine Machine.run_preserves (I := anyCalls.Reachable)
    (R := fun s t => ∀ g, s.freeOpenFileEntries g = .taken → t.freeOpenFileEntries g = .taken)
    (fun _ _ hg => hg) (fun _ _ _ hst htu g hg => htu g (hst g hg)) ?_ as hs
    (Machine.runOk_of_forall (fun _ _ => trivial) as s) hrun
  intro s c r t hs _ hexec
  exact ⟨reachable_copies hs hexec, fun g hg => copy_taken (shape_of_reachable hs) hexec hg⟩

/-- A series of copies leaves the file system as it found it iff each of them gives its handle back. -/
theorem copies_leaveFiles_iff {hist : List (State × Call)} (he : anyCalls.Execution hist s) (as : List Copy) :
    (∃ rs t, copies.run as s = some (rs, t) ∧ LeavesFiles s t) ↔ copies.RunOk GivesHandleBack as s := by
  have hreach : anyCalls.Reachable s := ⟨hist, he⟩
  clear he hist
  induction as generalizing s with
  | nil => exact iff_of_true ⟨[], s, rfl, LeavesFiles.refl s⟩ trivial
  | cons c as ih =>
      rcases (shape_of_reachable hreach).copy_cases c with
        ⟨hgives, r, u, hexec, hleaves⟩ | ⟨hkeeps, hnone | ⟨r, i, h, o, hfree, hexec⟩⟩
      · -- the first copy leaves the files as they are: the rest decides
        have hrest := ih (reachable_copies hreach hexec)
        have hrun : copies.run (c :: as) s = (copies.run as u).map fun y => (r :: y.1, y.2) := by
          rw [Machine.run, hexec]
          rfl
        constructor
        · rintro ⟨rs, t, hEq, hall⟩
          rw [hrun] at hEq
          rcases Option.map_eq_some_iff.1 hEq with ⟨⟨rs', t'⟩, hEq', hpair⟩
          cases hpair
          refine ⟨hgives, ?_⟩
          intro r₁ u₁ hexec₁
          rw [hexec] at hexec₁
          cases hexec₁
          exact hrest.1 ⟨rs', _, hEq', hleaves.symm.trans hall⟩
        · rintro ⟨_, hok⟩
          rcases hrest.2 (hok r u hexec) with ⟨rs, t, hEq, hall⟩
          exact ⟨r :: rs, t, by rw [hrun, hEq]; rfl, hleaves.trans hall⟩
      · refine iff_of_false ?_ fun hok => hkeeps hok.1
        rintro ⟨rs, t, hrun, _⟩
        rw [Machine.run, hnone] at hrun
        cases hrun
      · refine iff_of_false ?_ fun hok => hkeeps hok.1
        rintro ⟨rs, t, hrun, hall⟩
        rcases Machine.run_cons_eq hrun with ⟨r₁, u, rs', hexec₁, hrun', rfl⟩
        rw [hexec] at hexec₁
        cases hexec₁
        -- the handle that was free is taken at the end
        have htaken := copies_taken as (reachable_copies hreach hexec) hrun' h (by simp [withHandle])
        rw [hall.freeOpenFileEntries, hfree] at htaken
        cases htaken

theorem copies_leaveFiles_iff_oneByte : ∃ hist s rs t, anyCalls.Execution hist s ∧
    hist.map Prod.snd = oneByte.reverse ∧
    copies.run [⟨some slashA, ⟨true, some 1, false⟩, none⟩] s = some (rs, t) ∧ LeavesFiles s t := by
  rcases exists_oneByteFile with ⟨hist, s, he, hlabels, hf⟩
  rcases (copies_leaveFiles_iff he [⟨some slashA, ⟨true, some 1, false⟩, none⟩]).2 ⟨fun i h hc => by
    rcases hf.opens hc with ⟨rfl, rfl, hlen, hfits, hread⟩
    exact ⟨hfits, hread, rfl, 1, rfl, hlen.le⟩, fun _ _ _ => trivial⟩ with ⟨rs, t, hrun, hleaves⟩
  exact ⟨hist, s, rs, t, he, hlabels, hrun, hleaves⟩

/-- Create `/a` and close it. -/
def closedFile : List Call :=
  [.open (some slashA) tfsOCreat, .close 0]

theorem performAll_closedFile :
    (System.performAll (fileSystem.record fun _ _ => True) closedFile ([], tfsInit.2)).any
      (fun x => x.2.freeOpenFileEntries 0 = .free ∧
        (copies.run [⟨some slashA, ⟨false, none, true⟩, none⟩] x.2).any
          (fun y => decide (y.1 = [(-1, none)]) && decide (y.2.freeOpenFileEntries 0 = .taken)) =
              true) = true := by
  rw [tfsInit_eq]
  decide +kernel

/-- The destination cannot be opened: the call returns -1, and handle 0 stays open. -/
theorem failedCopy_keeps_handle : ∃ hist s t, anyCalls.Execution hist s ∧
    hist.map Prod.snd = closedFile.reverse ∧
    copies.run [⟨some slashA, ⟨false, none, true⟩, none⟩] s = some ([(-1, none)], t) ∧
    s.freeOpenFileEntries 0 = .free ∧ t.freeOpenFileEntries 0 = .taken ∧ ¬ LeavesFiles s t := by
  rcases Machine.execution_of_any performAll_closedFile with ⟨hist, s, he, hlabels, hfree, hrun⟩
  rcases (Option.any_eq_true _ _).1 hrun with ⟨⟨rs, t⟩, hEq, hboth⟩
  have hrs : rs = [(-1, none)] := of_decide_eq_true (Bool.and_eq_true_iff.1 hboth).1
  have htaken : t.freeOpenFileEntries 0 = .taken := of_decide_eq_true (Bool.and_eq_true_iff.1 hboth).2
  subst hrs
  refine ⟨hist, s, t, he, hlabels, hEq, hfree, htaken, ?_⟩
  intro hleaves
  rw [hleaves.freeOpenFileEntries] at htaken
  simp only at hfree
  rw [hfree] at htaken
  cases htaken

end Leaves

end Tfs
end TecnicoFs
