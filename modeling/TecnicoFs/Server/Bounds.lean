import TecnicoFs.Server.FailedOpen
import TecnicoFs.Server.Handles
import TecnicoFs.Server.Provenance

/-!
# Server bounds — transfers that stay in the file and in the block

The two counts of a transfer are unsigned.  A read subtracts the offset of its handle from the size of the
file, which another handle may have truncated; a write adds the offset to a length that the caller picks.
Both laws hold exactly where the arithmetic does not wrap.
-/

namespace TecnicoFs
namespace Server

open Lib

/-! ## Reads -/

/-- A read of `len` bytes delivers the bytes of its file from the offset on, as many as are asked for and
as there are, and moves the handle no further than the end of the file. -/
def ReadsWithin (s : State) (fhandle : ℤ) (len : ℕ) : Prop :=
  let file := s.openFileTable fhandle.toNat
  let i := file.ofInumber.toNat
  let size := (s.inodeTable i).iSize
  ∃ out t, tfsReadUnsynchronized fhandle len s = some (((min len (size - file.ofOffset) : ℕ) : ℤ), out, t) ∧
    out = ((fileBytes s i).drop file.ofOffset).take len ∧
    (t.openFileTable fhandle.toNat).ofOffset ≤ max file.ofOffset size

/-- Every read through every open handle does. -/
def AllReadWithin (s : State) : Prop :=
  ∀ fhandle len, HandleOpen s fhandle → ReadsWithin s fhandle len

/-- A truncating open of a file on which some open handle has moved. -/
def CutsUnderHandle (s : State) : Call → Prop
  | .open path flags => s.stateClosing = false ∧ hasFlag flags tfsOTrunc ∧
      ∃ h < 20, s.freeOpenFileEntries h = .taken ∧
        (s.openFileTable h).ofInumber = tfsLookupUnsynchronized path s ∧ 0 < (s.openFileTable h).ofOffset
  | _ => False

/-- No open handle stands past the end of its file. -/
def OffsetsInFile (s : State) : Prop :=
  ∀ h < 20, s.freeOpenFileEntries h = .taken →
    (s.openFileTable h).ofOffset ≤ (s.inodeTable (s.openFileTable h).ofInumber.toNat).iSize

section Reads

variable {s t : State} {a : Call} {reply : Reply} {i len : ℕ} {fhandle : ℤ}

/-- The count of a read that starts past the end of the file wraps, and is never zero. -/
theorem readCount_pos_of_lt {size offset : ℕ} (hpast : size < offset) (hoff : offset ≤ 1048576)
    (hlen : 0 < len) : 0 < readCount size offset len := by
  have hwrap : sizeSub size offset = 2 ^ 64 - (offset - size) := sizeSub_of_lt hpast (by omega)
  unfold readCount
  rw [hwrap]
  split
  · exact hlen
  · omega

theorem readsWithin_of_startsInFile (hs : Inv s) (hopen : HandleOpen s fhandle)
    (hstart : StartsInFile s (.read fhandle len)) : ReadsWithin s fhandle len := by
  rcases hs.handle_file hopen with ⟨h, hh, rfl, _, _, i, hnum, hi, hn⟩
  rcases hentry : s.openFileTable h with ⟨inumber, offset⟩
  have hinum : inumber = i := by simpa [hentry] using hnum
  subst hinum
  have halloc := (hs.of_named hn).2
  unfold ReadsWithin
  simp only [Int.toNat_natCast, hentry]
  rcases Nat.eq_zero_or_pos len with hzero | hlen
  · -- nothing is asked for
    subst hzero
    have hcount : readCount (s.inodeTable i).iSize offset 0 = 0 := by
      unfold readCount
      split
      · rfl
      · omega
    refine ⟨[], s, ?_, by simp, by simp [hentry]⟩
    simp [tfsReadUnsynchronized, getOpenFileEntry_natCast hh, hentry, inodeGet_natCast hi, hcount,
      castLong_of_range]
  · have hoff : offset ≤ (s.inodeTable i).iSize := by
      simpa [StartsInFile, hentry] using hstart hlen
    refine ⟨_, _, hs.tfsRead_eq hh hentry halloc hoff rfl, ?_, ?_⟩
    · rw [fileBytes, drop_memread, take_memread]
    · simp only [State.setEntry_openFileTable, Function.update_self]
      omega

theorem startsInFile_of_readsWithin (hs : Inv s) (hopen : HandleOpen s fhandle)
    (hread : ReadsWithin s fhandle len) : StartsInFile s (.read fhandle len) := by
  intro hlen
  rcases hs.handle_file hopen with ⟨h, hh, rfl, _, hbound, i, hnum, _, _⟩
  rcases hread with ⟨out, t, hrun, _, _⟩
  simp only [Int.toNat_natCast, hnum] at hrun ⊢
  by_contra hpast
  have hcount := readCount_pos_of_lt (not_le.1 hpast) hbound hlen
  have hnone : min len ((s.inodeTable i).iSize - (s.openFileTable h).ofOffset) = 0 := by omega
  rw [hnone] at hrun
  -- every outcome of the read has another return value than the 0 that is left to read
  rcases tfsReadUnsynchronized_cases hrun with ⟨_, hr, _⟩ | ⟨g, _, hg, hcases⟩
  · omega
  have hgh : g = h := by omega
  subst hgh
  rcases hcases with ⟨_, hr, _⟩ | ⟨j, _, hj, hcases⟩
  · omega
  have hji : j = i := by omega
  subst hji
  rcases hcases with ⟨hzero, _⟩ | ⟨_, _, hr, _⟩ | ⟨_, _, _, _, _, hr, _⟩
  · omega
  · omega
  · omega

/-- The handles of a state after `add_to_open_file_table`. -/
theorem offsetsInFile_addToOpenFileTable {offset : ℕ} (hs : OffsetsInFile s)
    (hoff : offset ≤ (s.inodeTable i).iSize) : OffsetsInFile (addToOpenFileTable i offset s).2 := by
  rcases addToOpenFileTable_cases i offset s with ⟨g, _, _, _, hEq⟩ | ⟨_, hEq⟩
  · rw [hEq]
    intro h hh htaken
    by_cases hhg : h = g
    · subst hhg
      simpa [addedHandle] using hoff
    · have htaken' : s.freeOpenFileEntries h = .taken := by
        simpa [addedHandle, hhg] using htaken
      simpa [addedHandle, hhg] using hs h hh htaken'
  · rw [hEq]
    exact hs

/-- The i-node of an open handle is not free. -/
theorem Inv.handle_not_free (hs : Inv s) {h : ℕ} (hh : h < 20) (htaken : s.freeOpenFileEntries h = .taken)
    (hfree : s.freeinodeTs i = .free) : (s.openFileTable h).ofInumber.toNat ≠ i := by
  rcases hs.handles h hh htaken with ⟨_, j, hj, hn⟩
  rw [hj, Int.toNat_natCast]
  rintro rfl
  exact hs.not_named_of_free hfree hn

theorem Inv.offsetsInFile_createdInode (hs : Inv s) (hoffs : OffsetsInFile s)
    (hfree : s.freeinodeTs i = .free) : OffsetsInFile (Server.createdInode s i) := by
  intro h hh htaken
  have hother := hs.handle_not_free hh htaken hfree
  simpa [Server.createdInode, hother] using hoffs h hh htaken

/-- A truncation leaves every handle in its file that was at offset 0 or on another file. -/
theorem offsetsInFile_truncateIf {flags : ℤ} (hoffs : OffsetsInFile s)
    (hzero : hasFlag flags tfsOTrunc → ∀ h < 20, s.freeOpenFileEntries h = .taken →
      (s.openFileTable h).ofInumber.toNat = i → (s.openFileTable h).ofOffset = 0) :
    OffsetsInFile (truncateIf flags i s) := by
  intro h hh htaken
  rw [truncateIf_freeOpenFileEntries] at htaken
  have hin := hoffs h hh htaken
  rw [truncateIf_openFileTable]
  by_cases hcut : hasFlag flags tfsOTrunc ∧ 0 < (s.inodeTable i).iSize
  · by_cases hon : (s.openFileTable h).ofInumber.toNat = i
    · rw [hzero hcut.1 h hh htaken hon]
      exact Nat.zero_le _
    · have hsame : ((truncateIf flags i s).inodeTable (s.openFileTable h).ofInumber.toNat) =
          s.inodeTable (s.openFileTable h).ofInumber.toNat := by
        simp [truncateIf, hcut, hon]
      rw [hsame]
      exact hin
  · rw [truncateIf_of_not hcut]
    exact hin

theorem Effect.offsetsInFile (h : Effect s a reply t) (hs : Inv s) (hok : ¬ CutsUnderHandle s a)
    (hoffs : OffsetsInFile s) : OffsetsInFile t := by
  cases h with
  | notOpened _ => exact hoffs
  | @found path flags i hrunning hlookup hi =>
      -- a truncated file has its open handles at the start; the new one stands at 0 or at the end
      apply offsetsInFile_addToOpenFileTable
      · refine offsetsInFile_truncateIf hoffs ?_
        intro hflag h hh htaken hon
        rcases hs.handles h hh htaken with ⟨_, j, hj, _⟩
        by_contra hmoved
        refine hok ⟨hrunning, hflag, h, hh, htaken, ?_, Nat.pos_of_ne_zero hmoved⟩
        rw [hj, Int.toNat_natCast] at hon
        rw [hj, hlookup, hon]
      · unfold openOffset
        split
        · exact le_rfl
        · exact Nat.zero_le _
  | notCreated _ _ hfree => exact hs.offsetsInFile_createdInode hoffs hfree
  | created _ _ hfree _ _ _ _ _ =>
      exact offsetsInFile_addToOpenFileTable
        (hs.offsetsInFile_createdInode hoffs hfree) (Nat.zero_le _)
  | notClosed => exact hoffs
  | @closed g _ _ =>
      intro h hh htaken
      have hhg : h ≠ g := by
        rintro rfl
        simp at htaken
      exact hoffs h hh (by simpa [hhg] using htaken)
  | wroteNothing _ => exact hoffs
  | @noBlock g i _ _ _ _ _ =>
      intro h hh htaken
      by_cases hon : (s.openFileTable h).ofInumber.toNat = i
      · simpa [hon] using hoffs h hh htaken
      · simpa [hon] using hoffs h hh htaken
  | @wrote g i b n count buffer _ _ _ hnum _ _ _ _ _ hw =>
      intro h hh htaken
      -- a write grows its file to the handle's new offset, and shrinks none
      rw [hw.freeOpenFileEntries] at htaken
      have hin := hoffs h hh htaken
      by_cases hhg : h = g
      · subst hhg
        simp [hw.entries, hnum, hw.node]
      · rw [hw.entries, Function.update_of_ne hhg]
        by_cases hon : (s.openFileTable h).ofInumber.toNat = i
        · rw [hon] at hin
          rw [hon, hw.node]
          exact le_trans hin (le_max_left _ _)
        · rw [hw.nodes _ hon]
          exact hin
  | readNothing => exact hoffs
  | @delivered g i b n count hg htakenG hnum hi _ hcount _ =>
      intro h hh htaken
      by_cases hhg : h = g
      · subst hhg
        -- a read stops at the end of the file
        have hin := hoffs h hh htaken
        have hsize := hs.sizes i (hs.of_named hi).2
        simp only [hnum, Int.toNat_natCast] at hin
        have hle : count ≤ (s.inodeTable i).iSize - (s.openFileTable h).ofOffset := by
          rw [hcount, readCount_eq hin hsize]
          exact min_le_right _ _
        simp only [State.setEntry_openFileTable, State.setEntry_inodeTable, Function.update_self, hnum,
          Int.toNat_natCast]
        omega
      · simpa [hhg] using hoffs h hh htaken

theorem offsetsInFile_tfsInit : OffsetsInFile tfsInit.2 := by
  intro h _ htaken
  rw [tfsInit_eq] at htaken
  simp [stateInit] at htaken

theorem OffsetsInFile.allReadWithin (hoffs : OffsetsInFile s) (hs : Inv s) : AllReadWithin s := by
  intro fhandle len hopen
  apply readsWithin_of_startsInFile hs hopen
  rcases hopen with ⟨h, hh, rfl, htaken⟩
  exact fun _ => hoffs h hh htaken

end Reads

/-- A read of at least one byte stays within its file exactly if its handle does not stand past the end;
and so does every read in every state of a run in which no open truncates a file under a handle that has
moved. -/
theorem reads_within_iff {hist : List (State × Call)} {s : State} (he : properCalls.Execution hist s) :
    (∀ fhandle len, HandleOpen s fhandle →
      (ReadsWithin s fhandle len ↔ StartsInFile s (.read fhandle len))) ∧
    (System.EachStep (fun s a => ¬ CutsUnderHandle s a) hist → System.Always AllReadWithin hist s) := by
  constructor
  · intro fhandle len hopen
    have hs := inv_of_reachable ⟨hist, he⟩
    exact ⟨startsInFile_of_readsWithin hs hopen, readsWithin_of_startsInFile hs hopen⟩
  · intro hC
    have hall : System.Always (fun s => Inv s ∧ OffsetsInFile s) hist s := by
      refine he.always_of_eachStep ?_ ?_ hC
      · intro s hinit
        rw [show s = tfsInit.2 from hinit]
        exact ⟨inv_tfsInit, offsetsInFile_tfsInit⟩
      · rintro s a t ⟨hs, hoffs⟩ hok ⟨hopen, reply, hexec⟩
        exact ⟨hs.exec hopen hexec, (hs.effect hopen hexec).offsetsInFile hs hok hoffs⟩
    exact ⟨hall.1.2.allReadWithin hall.1.1, fun p hp => (hall.2 p hp).2.allReadWithin (hall.2 p hp).1⟩

instance (s : State) (a : Call) : Decidable (CutsUnderHandle s a) :=
  match a with
  | .open _ _ => inferInstanceAs (Decidable (_ ∧ _ ∧ ∃ h < 20, _))
  | .close _ => inferInstanceAs (Decidable False)
  | .write _ _ _ => inferInstanceAs (Decidable False)
  | .read _ _ => inferInstanceAs (Decidable False)

instance (h : List (State × Call)) : Decidable (System.EachStep (fun s a => ¬ CutsUnderHandle s a) h) :=
  inferInstanceAs (Decidable (∀ p ∈ h, ¬ CutsUnderHandle p.1 p.2))

/-- Write two bytes to `/a` and open it a second time. -/
def twoHandles : List Call :=
  [.open (some slashA) tfsOCreat, .write 0 (fun _ => 0x41) 2, .open (some slashA) 0]

theorem performAll_twoHandles :
    (System.performAll (library.record OnOpenHandle) twoHandles ([], tfsInit.2)).any
      (fun x => System.EachStep (fun s a => ¬ CutsUnderHandle s a) x.1 ∧ OnOpenHandle x.2 (.read 1 5)) =
        true := by
  rw [tfsInit_eq]
  decide +kernel

theorem reads_within_iff_twoHandles : ∃ hist s, properCalls.Execution hist s ∧
    hist.map Prod.snd = twoHandles.reverse ∧ HandleOpen s 1 ∧
    (ReadsWithin s 1 5 ↔ StartsInFile s (.read 1 5)) ∧ System.Always AllReadWithin hist s := by
  rcases Machine.execution_of_any performAll_twoHandles with ⟨hist, s, he, hlabels, hC, hopen⟩
  have h := reads_within_iff he
  exact ⟨hist, s, he, hlabels, hopen, h.1 1 5 hopen, h.2 hC⟩

/-- Truncate `/a` under a handle that stands at its end. -/
def cutUnder : List Call :=
  [.open (some slashA) tfsOCreat, .write 0 (fun _ => 0x41) 3, .open (some slashA) tfsOTrunc]

/-- Handle 0 stands at offset 3 of the empty file, and reads two bytes. -/
def ReadsPastEnd (s : State) : Prop :=
  OnOpenHandle s (.read 0 2) ∧ (s.openFileTable 0).ofInumber = 1 ∧ (s.inodeTable 1).iSize = 0 ∧
    ((tfsReadUnsynchronized 0 2 s).any fun x => x.1 = 2) = true

instance (s : State) : Decidable (ReadsPastEnd s) :=
  inferInstanceAs (Decidable (_ ∧ _))

theorem performAll_cutUnder :
    (System.performAll (library.record OnOpenHandle) cutUnder ([], tfsInit.2)).any
      (ReadsPastEnd ·.2) = true := by
  rw [tfsInit_eq]
  decide +kernel

theorem read_past_end : ∃ s, properCalls.Reachable s ∧ HandleOpen s 0 ∧ ¬ ReadsWithin s 0 2 := by
  rcases Machine.execution_of_any performAll_cutUnder with ⟨hist, s, he, _, hopen, hnum, hsize, hread⟩
  refine ⟨s, ⟨hist, he⟩, hopen, ?_⟩
  rintro ⟨out, t, hrun, _⟩
  have hfile : (s.openFileTable (0 : ℤ).toNat).ofInumber.toNat = 1 := congrArg Int.toNat hnum
  rw [hrun, hfile] at hread
  have hcount : ((min 2 ((s.inodeTable 1).iSize - (s.openFileTable 0).ofOffset) : ℕ) : ℤ) = 2 :=
    of_decide_eq_true hread
  have hempty : (s.inodeTable 1).iSize = 0 := hsize
  omega

/-! ## Writes -/

/-- Either nothing is copied and -1 returned, or as many bytes as are asked for and fit are copied into the
file's own block, and counted; the handle stays in the block, and within the file if a byte was copied. -/
def WritesInBlock (s : State) (fhandle : ℤ) (buffer : ℕ → Byte) (toWrite : ℕ) : Prop :=
  let file := s.openFileTable fhandle.toNat
  let i := file.ofInumber.toNat
  let count := min toWrite (blockSize - file.ofOffset)
  ∃ r t, tfsWriteUnsynchronized fhandle buffer toWrite s = some (r, t) ∧
    (t.openFileTable fhandle.toNat).ofOffset ≤ blockSize ∧
    ((r = -1 ∧ t.disk.fsData = s.disk.fsData) ∨
      (r = count ∧ file.ofOffset ≤ blockSize ∧
        (count = 0 ∧ t.disk.fsData = s.disk.fsData ∨
          0 < count ∧ (t.openFileTable fhandle.toNat).ofOffset ≤ (t.inodeTable i).iSize ∧
            ∃ b, Owns t i b ∧ file.ofOffset + count ≤ blockSize ∧
              t.disk.fsData = memcpy s.disk.fsData (b * blockSize + file.ofOffset) buffer count)))

/-- The handle stands in the block of its file, and the sum of length and offset does not wrap. -/
def StartsInBlock (s : State) (fhandle : ℤ) (toWrite : ℕ) : Prop :=
  (s.openFileTable fhandle.toNat).ofOffset ≤ blockSize ∧
    toWrite + (s.openFileTable fhandle.toNat).ofOffset < 2 ^ 64

/-- Every write through every open handle stays in its block, unless the sum wraps. -/
def AllWriteInBlock (s : State) : Prop :=
  ∀ fhandle buffer toWrite, HandleOpen s fhandle →
    toWrite + (s.openFileTable fhandle.toNat).ofOffset < 2 ^ 64 → WritesInBlock s fhandle buffer toWrite

section Writes

variable {s t : State} {fhandle : ℤ} {toWrite : ℕ}

/-- A sum that wraps is below the block size, and the length is taken as it is. -/
theorem writeCount_of_wrap {offset : ℕ} (hoff : offset ≤ 1024) (hlen : toWrite < 2 ^ 64)
    (hwrap : 2 ^ 64 ≤ toWrite + offset) : writeCount offset toWrite = toWrite := by
  have hsum : sizeAdd toWrite offset = toWrite + offset - 2 ^ 64 := by
    unfold sizeAdd
    omega
  have hfits : ¬ sizeAdd toWrite offset > 1024 := by omega
  exact if_neg hfits

theorem StartsInBlock.writesInBlock (hstart : StartsInBlock s fhandle toWrite) (hs : Inv s)
    (hopen : HandleOpen s fhandle) (buffer : ℕ → Byte) : WritesInBlock s fhandle buffer toWrite := by
  rcases hstart with ⟨hoff, hwrap⟩
  rcases hs.handle_file hopen with ⟨h, hh, rfl, _, _, i, hnum, _, hn⟩
  rcases hentry : s.openFileTable h with ⟨inumber, offset⟩
  have hinum : inumber = i := by simpa [hentry] using hnum
  subst hinum
  have halloc := (hs.of_named hn).2
  simp only [Int.toNat_natCast, hentry, blockSize] at hoff hwrap
  unfold WritesInBlock
  simp only [Int.toNat_natCast, hentry]
  have hcount := writeCount_eq hoff hwrap
  -- the count is clamped to the rest of the block
  rcases hs.tfsWrite_effect buffer hh hentry hn hcount (by omega) with ⟨t, hrun, hcases⟩
  refine ⟨_, t, hrun, ?_⟩
  rcases hcases with ⟨hzero, rfl⟩ | ⟨hpos, b, hw⟩
  · refine ⟨by simpa [hentry] using hoff, Or.inr ⟨rfl, hoff, Or.inl ⟨hzero, rfl⟩⟩⟩
  · have hentryT : t.openFileTable h = ⟨i, offset + min toWrite (1024 - offset)⟩ := by
      simp [hw.entries, hentry]
    have hnode : t.inodeTable i = ⟨(s.inodeTable i).iNodeType,
        max (s.inodeTable i).iSize (offset + min toWrite (1024 - offset)), b⟩ := by
      simpa [hentry] using hw.node
    refine ⟨by simp only [hentryT, blockSize]; omega, Or.inr ⟨rfl, hoff, Or.inr ⟨hpos, ?_, b, ?_, ?_, ?_⟩⟩⟩
    · rw [hentryT, hnode]
      exact le_max_right _ _
    · refine ⟨⟨halloc.1, by rw [hw.freeinodeTs]; exact halloc.2⟩, by rw [hnode], ?_⟩
      simp only [hnode]
      omega
    · simp only [blockSize]
      omega
    · simpa [hentry] using hw.data

/-- The count of a write that does not start in the block, or whose sum wraps, does not fit. -/
theorem writeCount_not_fits {offset : ℕ} (hoff : offset ≤ 1048576) (hlen : toWrite < 2 ^ 64)
    (hout : ¬ (offset ≤ 1024 ∧ toWrite + offset < 2 ^ 64)) :
    ¬ offset + writeCount offset toWrite ≤ 1024 ∧ writeCount offset toWrite ≠ 0 := by
  rcases le_or_gt offset 1024 with hin | hbehind
  · have hcount := writeCount_of_wrap hin hlen (by omega)
    omega
  · have hpos := (writeCount_pos_iff hoff hlen).2 (Or.inl hbehind)
    omega

/-- Otherwise the copy leaves the block. -/
theorem startsInBlock_of_writesInBlock {buffer : ℕ → Byte} (hs : Inv s) (hopen : HandleOpen s fhandle)
    (hlen : toWrite < 2 ^ 64) (hwrite : WritesInBlock s fhandle buffer toWrite) :
    StartsInBlock s fhandle toWrite := by
  by_contra hstart
  rcases hs.handle_file hopen with ⟨h, hh, rfl, _, hoff, i, hnum, _, hn⟩
  simp only [StartsInBlock, Int.toNat_natCast] at hstart
  rcases writeCount_not_fits hoff hlen hstart with ⟨hcount, hsome⟩
  rcases hwrite with ⟨r, t, hrun, _⟩
  rcases tfsWriteUnsynchronized_cases hrun with ⟨hout, _⟩ | ⟨g, _, hg, hcases⟩
  · exact hout ⟨by omega, by omega⟩
  have hgh : g = h := by omega
  subst hgh
  rcases hcases with ⟨hnone, _⟩ | ⟨j, _, hj, hcases⟩
  · rw [hnum, inodeGet_natCast (hs.of_named hn).2.1] at hnone
    cases hnone
  have hji : j = i := by omega
  subst hji
  rcases hcases with ⟨hzero, _⟩ | ⟨_, hnone, _⟩ | ⟨_, _, _, _, hfit, _⟩
  · omega
  · -- there is always a free block left
    rcases hs.dataBlockGet_none (hs.of_named hn).2 hnone with ⟨_, hfull, _⟩
    rcases hs.exists_free_block with ⟨b, hb, hfree⟩
    rw [hfull b hb] at hfree
    cases hfree
  · omega

theorem OffsetsInFile.allWriteInBlock (hoffs : OffsetsInFile s) (hs : Inv s) : AllWriteInBlock s := by
  intro fhandle buffer toWrite hopen hwrap
  refine StartsInBlock.writesInBlock ⟨?_, hwrap⟩ hs hopen buffer
  rcases hs.handle_file hopen with ⟨h, hh, rfl, htaken, _, i, hnum, _, hn⟩
  have hin := hoffs h hh htaken
  have hsize := hs.sizes i (hs.of_named hn).2
  rw [hnum, Int.toNat_natCast] at hin
  rw [Int.toNat_natCast]
  exact hin.trans hsize

end Writes

/-- A write stays in the block of its file exactly if its handle stands there and the length and the offset
add up without wrapping.  In a run in which no open truncates a file under a handle that has moved, every
handle stands in its block. -/
theorem writes_in_block_iff {hist : List (State × Event)} {s : State}
    (he : closableCalls.Execution hist s) :
    (∀ fhandle buffer toWrite, HandleOpen s fhandle → toWrite < 2 ^ 64 →
      (WritesInBlock s fhandle buffer toWrite ↔ StartsInBlock s fhandle toWrite)) ∧
    (System.EachStep (fun s e => ∀ a, e = .call a → ¬ CutsUnderHandle s a) hist →
      System.Always AllWriteInBlock hist s) := by
  constructor
  · intro fhandle buffer toWrite hopen hlen
    have hs := inv_of_closable ⟨hist, he⟩
    exact ⟨startsInBlock_of_writesInBlock hs hopen hlen, fun h => h.writesInBlock hs hopen buffer⟩
  · intro hC
    have hall : System.Always (fun s => Inv s ∧ OffsetsInFile s) hist s := by
      refine he.always_of_eachStep ?_ ?_ hC
      · intro s hinit
        rw [show s = tfsInit.2 from hinit]
        exact ⟨inv_tfsInit, offsetsInFile_tfsInit⟩
      · rintro s e t ⟨hs, hoffs⟩ hok hstep
        cases e with
        | call a =>
            rcases hstep with ⟨hopen, reply, hexec⟩
            exact ⟨hs.exec hopen hexec, (hs.effect hopen hexec).offsetsInFile hs (hok a rfl) hoffs⟩
        | setClosing =>
            rw [show t = setStateClosing s from hstep]
            exact ⟨hs.setStateClosing, hoffs⟩
    exact ⟨hall.1.2.allWriteInBlock hall.1.1, fun p hp => (hall.2 p hp).2.allWriteInBlock (hall.2 p hp).1⟩

/-- Write a byte to `/a`. -/
def oneByte : List Call :=
  [.open (some slashA) tfsOCreat, .write 0 (fun _ => 0x41) 1]

/-- Handle 0 stands behind the byte. -/
def BehindByte (s : State) : Prop :=
  OnOpenHandle s (.write 0 (fun _ => 0x41) 0) ∧ (s.openFileTable 0).ofOffset = 1 ∧
    (tfsWriteUnsynchronized 0 (fun _ => 0x41) (2 ^ 64 - 1) s).isNone

instance (s : State) : Decidable (BehindByte s) :=
  inferInstanceAs (Decidable (_ ∧ _))

theorem performAll_oneByte :
    (System.performAll (library.record OnOpenHandle) oneByte ([], tfsInit.2)).any
      (fun x => System.EachStep (fun s a => ¬ CutsUnderHandle s a) x.1 ∧ BehindByte x.2) = true := by
  rw [tfsInit_eq]
  decide +kernel

/-- Truncate `/a` under a handle at its end, and read as many bytes as take the handle out of the block. -/
def readPastBlock : List Call :=
  cutUnder ++ [.read 0 1022]

theorem performAll_readPastBlock :
    (System.performAll (library.record OnOpenHandle) readPastBlock ([], tfsInit.2)).any
      (fun x => OnOpenHandle x.2 (.write 0 (fun _ => 0x41) 0) ∧ (x.2.openFileTable 0).ofOffset = 1025) =
        true := by
  rw [tfsInit_eq]
  decide +kernel

theorem writes_in_block_iff_oneByte :
    (∃ hist s, closableCalls.Execution hist s ∧ BehindByte s ∧ StartsInBlock s 0 2000 ∧
      WritesInBlock s 0 (fun _ => 0x42) 2000 ∧ System.Always AllWriteInBlock hist s) ∧
    ∃ hist s, closableCalls.Execution hist s ∧ hist.map Prod.snd = readPastBlock.reverse.map .call ∧
      HandleOpen s 0 ∧ ¬ WritesInBlock s 0 (fun _ => 0x42) 1 := by
  constructor
  · rcases Machine.execution_of_any performAll_oneByte with ⟨hist, s, he, _, hC, hbehind⟩
    have h := writes_in_block_iff (closable_of_execution he)
    have hstart : StartsInBlock s 0 2000 := by
      rw [StartsInBlock, show (0 : ℤ).toNat = 0 from rfl, hbehind.2.1]
      decide
    refine ⟨_, s, closable_of_execution he, hbehind, hstart, (h.1 0 _ 2000 hbehind.1 (by decide)).2 hstart,
      h.2 ?_⟩
    intro p hp a ha
    rcases List.mem_map.1 hp with ⟨q, hq, rfl⟩
    cases ha
    exact hC q hq
  · rcases Machine.execution_of_any performAll_readPastBlock with ⟨hist, s, he, hlabels, hopen, hoff⟩
    have h := writes_in_block_iff (closable_of_execution he)
    refine ⟨_, s, closable_of_execution he, ?_, hopen, ?_⟩
    · rw [← hlabels]
      simp
    · intro hwrite
      have hstart := ((h.1 0 _ 1 hopen (by decide)).1 hwrite).1
      rw [show (0 : ℤ).toNat = 0 from rfl, hoff] at hstart
      exact absurd hstart (by decide)

theorem write_leaves_block : ∃ s, closableCalls.Reachable s ∧ HandleOpen s 0 ∧
    ¬ WritesInBlock s 0 (fun _ => 0x41) (2 ^ 64 - 1) := by
  rcases Machine.execution_of_any performAll_oneByte with ⟨hist, s, he, _, _, hopen, _, hnone⟩
  refine ⟨s, closable_of_reachable ⟨hist, he⟩, hopen, ?_⟩
  rintro ⟨r, t, hrun, _⟩
  rw [hrun] at hnone
  cases hnone

end Server
end TecnicoFs
