import TecnicoFs.Agreement.OneBlock
import TecnicoFs.Server.Refinement

/-!
# Transfers and runs — the two file systems answer alike

A read or a write within one block is one turn of a loop in `tfs`, and one copy in `tfs_server`.  Both take a
block for an empty file, not the same one.  `exec_agree` is the step of the simulation, and `replies_agree`
its run.
-/

namespace TecnicoFs
namespace Agreement

open Lib

/-! ## Reading -/

section Reading

variable {s : Tfs.State} {v : Server.State} {h i o : ℕ}

/-- The handle of a state, as both file systems have it. -/
theorem Agree.open_handle (ha : Agree s v) {fhandle : ℤ} (hopen : Tfs.HandleOpen s fhandle) :
    ∃ h < 20, fhandle = (h : ℕ) ∧ s.freeOpenFileEntries h = .taken ∧ ∃ i o, SameHandle s v h i o := by
  rcases hopen with ⟨h, hh, rfl, htaken⟩
  exact ⟨h, hh, rfl, htaken, ha.handles h hh htaken⟩

/-- What `tfs` reads from a file of one block. -/
theorem Agree.tfsRead_tfs (ha : Agree s v) (hh : h < 20) (htaken : s.freeOpenFileEntries h = .taken)
    (hhandle : SameHandle s v h i o) {n : ℕ} (len : ℕ) (hn : n = min len ((s.inodeTable i).iSize - o)) :
    Tfs.tfsRead h len s = some ((n : ℤ), (List.range n).map fun k => Tfs.byteAt s i (o + k),
      s.setEntry h ⟨i, o + n, 0⟩) := by
  have hf := ha.files i hhandle.live.1 hhandle.live.2.1
  have hsize := hf.le
  have hle := hhandle.le
  have hnum : (s.openFileTable h).ofInumber = i := by rw [hhandle.entry]
  have hself : s.setEntry h ⟨i, o, 0⟩ = s := by
    simp [Tfs.State.setEntry, ← hhandle.entry]
  have hcount : Tfs.readCount (s.inodeTable i).iSize o len = n := by
    unfold Tfs.readCount
    rw [sizeSub_of_le hle (by omega)]
    split <;> omega
  have hoff : o = min (s.openFileTable h).ofOffset (s.inodeTable i).iSize := by
    rw [hhandle.entry]
    exact (min_eq_left hle).symm
  have hread : Tfs.tfsRead h len s = some (Tfs.readBlocks h i n (o / 1024) s) := by
    rw [Tfs.tfsRead_eq ha.inv hh htaken hnum len hoff, hcount, hhandle.entry, hself]
  rw [hread]
  by_cases hpos : 0 < n
  · -- there is something to read, so the file has its first block
    have hfirst : Tfs.slotValue s (Tfs.fileSlot i (o / 1024)) ≠ -1 := by
      have hdiv : o / 1024 = 0 := by omega
      rw [hdiv, Ne, hf.first]
      omega
    rw [Tfs.readBlocks_one ha.inv hhandle.live (by rw [hhandle.entry]) (by omega) hpos
        (by omega) hfirst, hhandle.entry]
  · have hzero : n = 0 := by omega
    rw [hzero, Tfs.readBlocks_zero hhandle.live, Nat.add_zero, hself]
    rfl

theorem Agree.tfsRead (ha : Agree s v) {fhandle : ℤ} (hopen : Tfs.HandleOpen s fhandle) (len : ℕ) :
    ∃ r out s' v', Tfs.tfsRead fhandle len s = some (r, out, s') ∧
      Server.tfsReadUnsynchronized fhandle len v = some (r, out, v') ∧ Same s' v' := by
  rcases ha.open_handle hopen with ⟨h, hh, rfl, htaken, i, o, hhandle⟩
  have hf := ha.files i hhandle.live.1 hhandle.live.2.1
  have hle := hhandle.le
  generalize hn : min len ((s.inodeTable i).iSize - o) = n
  refine ⟨_, _, _, v.setEntry h ⟨i, o + n⟩, ha.tfsRead_tfs hh htaken hhandle len hn.symm, ?_, ?_⟩
  · have hcount : min len ((v.inodeTable i).iSize - o) = n := by rw [hf.size, hn]
    rw [ha.server.tfsRead_eq hh hhandle.serverEntry (ha.allocated_iff.2 hhandle.live.2.1)
      (by rw [hf.size]; exact hle) hcount]
    -- both deliver the bytes of the file from the offset on
    have hbytes : memread v.disk.fsData ((v.inodeTable i).iDataBlock.toNat * 1024 + o) n =
        (List.range n).map fun k => Tfs.byteAt s i (o + k) := by
      apply List.map_congr_left
      intro k hk
      have hlt := List.mem_range.1 hk
      rw [hf.bytes (o + k) (by omega), Nat.add_assoc]
    rw [hbytes]
  · refine Agree.of_handles (s := s) (v := v) ha ?_ ?_ ?_ ?_ ?_ ?_ ?_ ?_ ?_
    iterate 7 rfl
    · exact ha.taken
    · intro g hg htakenG
      -- the handle moves on both sides by the same count
      by_cases hgh : g = h
      · subst hgh
        refine ⟨i, o + n, by simp, by simp, hhandle.live, ?_⟩
        show o + n ≤ (s.inodeTable i).iSize
        omega
      · rcases ha.handles g hg htakenG with ⟨j, o', hhandleG⟩
        exact ⟨j, o', by simpa [hgh] using hhandleG.entry, by simpa [hgh] using hhandleG.serverEntry,
          hhandleG.live, hhandleG.le⟩

end Reading

/-! ## Writing -/

section Writing

variable {s t : Tfs.State} {v u : Server.State} {h i o n a b : ℕ} {buffer : ℕ → Byte}

/-- The file that a write is on, after the write. -/
theorem SameFile.of_write (hf : SameFile s v i) (hs : Tfs.Inv s) (ho : o ≤ (s.inodeTable i).iSize) (hn : 0 < n)
    (hfit : o + n ≤ 1024) (hentry : (s.openFileTable h).ofOffset = o)
    (hst : Tfs.Stored s h (Tfs.fileSlot i 0) a o buffer n (o + n) t)
        (hw : Server.WriteEffect v h i b buffer n u)
    (hserver : (v.openFileTable h).ofOffset = o) : SameFile (Tfs.growFile h i t) u i := by
  have hslot : ∀ k < 266, Tfs.IsSlot s (Tfs.fileSlot i k) := fun k hk => hs.isSlot_fileSlot hf.live hk
  have hsize : ((Tfs.growFile h i t).inodeTable i).iSize = max (s.inodeTable i).iSize (o + n) := by
    rw [Tfs.growFile_iSize, hst.sizes, hst.openFileTable]
    simp
  have hvalue : Tfs.slotValue (Tfs.growFile h i t) (Tfs.fileSlot i 0) = a := by
    rw [Tfs.slotValue_growFile, hst.value _ (hslot 0 (by omega)), if_pos rfl]
  constructor
  · exact Tfs.sameNodes_growFile.liveFile_iff.2 (hst.nodes.liveFile_iff.2 hf.live)
  · rw [hw.node, hsize, hserver, hf.size]
  · have hle := hf.le
    omega
  · rw [hvalue, hsize]
    omega
  · intro k hk hpos
    have hne : Tfs.fileSlot i k ≠ Tfs.fileSlot i 0 := by
      rw [Ne, Tfs.fileSlot_inj]
      omega
    rw [Tfs.slotValue_growFile, hst.value _ (hslot k hk), if_neg hne]
    exact hf.later k hk hpos
  · intro p hp
    rw [hsize] at hp
    have hle := hf.le
    have hdiv : o / 1024 = 0 := by omega
    have hmod : o % 1024 = o := by omega
    have hpdiv : p / 1024 = 0 := by omega
    have hst' : Tfs.Stored s h (Tfs.fileSlot i (o / 1024)) a (o % 1024) buffer n (o + n) t := by
      rw [hdiv, hmod]
      exact hst
    have hold : (o ≤ p ∧ p < o + n) ∨ Tfs.slotValue s (Tfs.fileSlot i (p / 1024)) ≠ -1 := by
      rw [hpdiv, Ne, hf.first]
      omega
    have hbyte := (hst'.byteAt_eq hs hf.live (by omega) (by omega) (p := p) (by omega) hold).2
    rw [Tfs.byteAt_growFile, hbyte, hw.node, hw.data, hserver, Int.toNat_natCast]
    by_cases hin : o ≤ p ∧ p < o + n
    · have hpos : b * 1024 + p - (b * 1024 + o) = p - o := by omega
      rw [if_pos hin, memcpy_of_mem (by omega) (by omega), hpos]
    · -- bytes outside the copy were there before, so the file had its block
      rw [if_neg hin, memcpy_of_disjoint (by omega), hf.bytes p (by omega)]
      rcases hw.block with ⟨_, hblock, _⟩ | ⟨hzero, _⟩
      · rw [hblock, Int.toNat_natCast]
      · rw [hf.size] at hzero
        omega

/-- The other files, after a write. -/
theorem SameFile.of_write_of_ne {j : ℕ} (hf : SameFile s v j) (hs : Tfs.Inv s) (hv : Server.Inv v)
    (hlive : Tfs.LiveFile s i)
    (hji : j ≠ i) (hfit : o + n ≤ 1024) (hst : Tfs.Stored s h (Tfs.fileSlot i 0) a o buffer n (o + n) t)
    (hw : Server.WriteEffect v h i b buffer n u) (hserver : (v.openFileTable h).ofOffset = o)
    (hnamed : Server.Named v i) (halloc : Server.Allocated v j) :
    SameFile (Tfs.growFile h i t) u j := by
  have hslot : ∀ k < 266, Tfs.IsSlot s (Tfs.fileSlot j k) := fun k hk => hs.isSlot_fileSlot hf.live hk
  have hvalue : ∀ k < 266, Tfs.slotValue (Tfs.growFile h i t) (Tfs.fileSlot j k) =
      Tfs.slotValue s (Tfs.fileSlot j k) := by
    intro k hk
    rw [Tfs.slotValue_growFile, hst.value _ (hslot k hk), if_neg (Tfs.fileSlot_ne_of_ne hji)]
  have hsize : ((Tfs.growFile h i t).inodeTable j).iSize = (s.inodeTable j).iSize := by
    rw [Tfs.growFile_iSize_of_ne hji, hst.sizes]
  constructor
  · exact Tfs.sameNodes_growFile.liveFile_iff.2 (hst.nodes.liveFile_iff.2 hf.live)
  · rw [hw.nodes j hji, hsize, hf.size]
  · rw [hsize]
    exact hf.le
  · rw [hvalue 0 (by omega), hsize]
    exact hf.first
  · intro k hk hpos
    rw [hvalue k hk]
    exact hf.later k hk hpos
  · intro p hp
    rw [hsize] at hp
    have hle := hf.le
    have hsome : Tfs.slotValue s (Tfs.fileSlot j 0) ≠ -1 := by
      rw [Ne, hf.first]
      omega
    -- the write stores into a slot of another file
    have hbyte : Tfs.slotByte t (Tfs.fileSlot j 0) p = Tfs.slotByte s (Tfs.fileSlot j 0) p := by
      rw [hst.slotByte_eq hs (hs.isSlot_fileSlot hlive (by omega)) (Tfs.fileSlot_ne_index i 0)
          (hslot 0 (by omega)) (Tfs.fileSlot_ne_index j 0) (by omega) (Or.inr hsome),
        if_neg fun hEq => Tfs.fileSlot_ne_of_ne hji hEq.1]
    have hdata := hw.fsData_of_ne hv hnamed (by omega) hji halloc (p := p) (by rw [hf.size]; exact hp)
    calc Tfs.byteAt (Tfs.growFile h i t) j p
        = Tfs.slotByte (Tfs.growFile h i t) (Tfs.fileSlot j 0) p := byteAt_of_lt (by omega)
      _ = Tfs.slotByte t (Tfs.fileSlot j 0) p := by
          rw [Tfs.slotByte, Tfs.slotByte, Tfs.slotValue_growFile, Tfs.growFile_disk]
      _ = Tfs.slotByte s (Tfs.fileSlot j 0) p := hbyte
      _ = Tfs.byteAt s j p := (byteAt_of_lt (by omega)).symm
      _ = v.disk.fsData ((v.inodeTable j).iDataBlock.toNat * 1024 + p) := hf.bytes p hp
      _ = u.disk.fsData ((u.inodeTable j).iDataBlock.toNat * 1024 + p) := by rw [hw.nodes j hji, hdata]

/-- A write of at least one byte, in `tfs`. -/
theorem Agree.tfsWrite_tfs (ha : Agree s v) (buffer : ℕ → Byte) (hh : h < 20)
    (htaken : s.freeOpenFileEntries h = .taken) (hhandle : SameHandle s v h i o) (hn : 0 < n)
    (hfit : o + n ≤ 1024) :
    ∃ a t, Tfs.Stored s h (Tfs.fileSlot i 0) a o buffer n (o + n) t ∧
      Tfs.tfsWrite h buffer n s = some ((n : ℤ), Tfs.growFile h i t) := by
  have hdiv : o / 1024 = 0 := by omega
  have hmod : o % 1024 = o := by omega
  have hoff : (s.openFileTable h).ofOffset = o := by rw [hhandle.entry]
  have hone : ∃ a t, Tfs.Stored s h (Tfs.fileSlot i (o / 1024)) a (o % 1024) buffer n (o + n) t ∧
      Tfs.writeBlocks h i buffer n (o / 1024) s = ((n : ℤ), Tfs.growFile h i t) :=
    Tfs.writeBlocks_one ha.inv hhandle.live hoff (by omega) hn (by omega) (Or.inr ha.exists_free_block)
  rcases hone with ⟨a, t, hst, hwrite⟩
  rw [hdiv, hmod] at hst
  refine ⟨a, t, hst, ?_⟩
  rw [Tfs.tfsWrite_eq ha.inv hh htaken (by rw [hhandle.entry]) (by simp [hhandle.entry]) (by omega), hoff,
    hwrite]

/-- A write through an open handle, within the first block. -/
theorem Agree.tfsWrite (ha : Agree s v) (buffer : ℕ → Byte) (hh : h < 20)
    (htaken : s.freeOpenFileEntries h = .taken) (hhandle : SameHandle s v h i o) (hfit : o + n ≤ 1024) :
    ∃ s' v', Tfs.tfsWrite h buffer n s = some ((n : ℤ), s') ∧
      Server.tfsWriteUnsynchronized h buffer n v = some ((n : ℤ), v') ∧ Same s' v' := by
  have hf := ha.files i hhandle.live.1 hhandle.live.2.1
  have hle := hhandle.le
  have htakenV : v.freeOpenFileEntries h = .taken := by rw [ha.taken, htaken]
  have hnamed : Server.Named v i := by
    rcases ha.server.handles h hh htakenV with ⟨_, j, hj, hn⟩
    rw [hhandle.serverEntry] at hj
    have hij : i = j := Int.ofNat_inj.1 hj
    exact hij ▸ hn
  have hcount : Server.writeCount o n = n := by
    rw [Server.writeCount_eq (by omega) (by omega)]
    omega
  rcases ha.server.tfsWrite_effect buffer hh hhandle.serverEntry hnamed hcount hfit with ⟨u, hserver, hcases⟩
  rcases hcases with ⟨hzero, rfl⟩ | ⟨hn, b, hw⟩
  · -- nothing is written
    subst hzero
    refine ⟨s, u, ?_, hserver, ha.toSame⟩
    exact Tfs.tfsWrite_zero ha.inv hh htaken (by rw [hhandle.entry]) hhandle.live (by simp [hhandle.entry])
      (by rw [hhandle.entry]; exact hle)
  rcases ha.tfsWrite_tfs buffer hh htaken hhandle hn hfit with ⟨a, t, hst, htfs⟩
  refine ⟨_, u, htfs, hserver, ?_⟩
  have hnodes : Tfs.SameNodes s (Tfs.growFile h i t) := hst.nodes.trans Tfs.sameNodes_growFile
  have hoff : (s.openFileTable h).ofOffset = o := by rw [hhandle.entry]
  have hoffV : (v.openFileTable h).ofOffset = o := by rw [hhandle.serverEntry]
  have hsize : ∀ j, (s.inodeTable j).iSize ≤ ((Tfs.growFile h i t).inodeTable j).iSize ∧
      (j = i → o + n ≤ ((Tfs.growFile h i t).inodeTable j).iSize) := by
    intro j
    by_cases hji : j = i
    · subst hji
      rw [Tfs.growFile_iSize, hst.sizes, hst.openFileTable, Function.update_self]
      exact ⟨le_max_left _ _, fun _ => le_max_right _ _⟩
    · rw [Tfs.growFile_iSize_of_ne hji, hst.sizes]
      exact ⟨le_rfl, fun hEq => absurd hEq hji⟩
  constructor
  · rw [hw.stateClosing, ha.running]
  · rw [hw.freeinodeTs, hnodes.freeinodeTs, ha.inodes]
  · have hroot := hst.sameRoot ha.inv (ha.inv.isSlot_fileSlot hhandle.live (by omega))
      (Tfs.fileSlot_ne_root hhandle.live.1 0)
    rw [Tfs.growFile_disk]
    exact (hroot.symm.trans ha.dir).trans (hw.sameRoot ha.server hnamed)
  · rw [hw.freeOpenFileEntries, Tfs.growFile_freeOpenFileEntries, hst.freeOpenFileEntries, ha.taken]
  · intro g hg htakenG
    rw [Tfs.growFile_freeOpenFileEntries, hst.freeOpenFileEntries] at htakenG
    by_cases hgh : g = h
    · subst hgh
      refine ⟨i, o + n, ?_, ?_, hnodes.liveFile_iff.2 hhandle.live, (hsize i).2 rfl⟩
      · rw [Tfs.growFile_openFileTable, hst.openFileTable, hhandle.entry, Function.update_self]
      · rw [hw.entries, hhandle.serverEntry, Function.update_self]
    · rcases ha.handles g hg htakenG with ⟨j, o', hhandleG⟩
      refine ⟨j, o', ?_, ?_, hnodes.liveFile_iff.2 hhandleG.live, hhandleG.le.trans (hsize j).1⟩
      · rw [Tfs.growFile_openFileTable, hst.openFileTable, Function.update_of_ne hgh, hhandleG.entry]
      · rw [hw.entries, Function.update_of_ne hgh, hhandleG.serverEntry]
  · intro j hj halloc
    have hallocS : Tfs.Allocated s j := hnodes.allocated_iff.1 halloc
    by_cases hji : j = i
    · subst hji
      exact hf.of_write ha.inv hle hn hfit hoff hst hw hoffV
    · exact (ha.files j hj hallocS).of_write_of_ne ha.inv ha.server hhandle.live hji hfit hst hw hoffV hnamed
        (ha.allocated_iff.2 hallocS)

end Writing

/-! ## Every call, and every run -/

section Runs

/-- The same call of the other library. -/
def serverCall : Tfs.Call → Server.Call
  | .open name flags => .open name flags
  | .close fhandle => .close fhandle
  | .write fhandle buffer len => .write fhandle buffer len
  | .read fhandle len => .read fhandle len

/-- The same return value and the same bytes. -/
def serverReply (reply : Tfs.Reply) : Server.Reply :=
  ⟨reply.ret, reply.data⟩

/-- Paths are valid, opens neither truncate nor append, reads and writes use open handles, and writes stay in
the first block. -/
def WithinFirstBlock (s : Tfs.State) : Tfs.Call → Prop
  | .open name flags =>
      validPathname name = true ∧ hasFlag flags tfsOTrunc = false ∧ hasFlag flags tfsOAppend = false
  | .close _ => True
  | .write fhandle _ len =>
      Tfs.HandleOpen s fhandle ∧ (s.openFileTable fhandle.toNat).ofOffset + len ≤ blockSize
  | .read fhandle _ => Tfs.HandleOpen s fhandle

instance (s : Tfs.State) (call : Tfs.Call) : Decidable (WithinFirstBlock s call) :=
  match call with
  | .open _ _ => inferInstanceAs (Decidable (_ ∧ _))
  | .close _ => inferInstanceAs (Decidable True)
  | .write _ _ _ => inferInstanceAs (Decidable (_ ∧ _))
  | .read fhandle _ => inferInstanceAs (Decidable (Tfs.HandleOpen s fhandle))

variable {s : Tfs.State} {v : Server.State}

theorem Agree.exec_same (ha : Agree s v) {call : Tfs.Call} (hok : WithinFirstBlock s call) :
    ∃ reply s' v', Tfs.exec call s = some (reply, s') ∧
      Server.exec (serverCall call) v = some (serverReply reply, v') ∧ Same s' v' := by
  cases call with
  | «open» name flags =>
      rcases ha.tfsOpen hok.1 hok.2.1 hok.2.2 with ⟨r, s', v', htfs, hserver, hsame⟩
      exact ⟨⟨r, []⟩, s', v', by simp [Tfs.exec, htfs], by simp [Server.exec, serverCall, serverReply, hserver],
        hsame⟩
  | close fhandle =>
      rcases ha.close fhandle with ⟨hret, hsame⟩
      refine ⟨_, _, _, rfl, ?_, hsame⟩
      simp [Server.exec, serverCall, serverReply, hret]
  | write fhandle buffer len =>
      rcases ha.open_handle hok.1 with ⟨h, hh, rfl, htaken, i, o, hhandle⟩
      -- the condition is about the offset of the entry
      have hfit : o + len ≤ 1024 := by
        have hblock := hok.2
        rwa [Int.toNat_natCast, hhandle.entry] at hblock
      rcases ha.tfsWrite buffer hh htaken hhandle hfit with ⟨s', v', htfs, hserver, hsame⟩
      exact ⟨⟨len, []⟩, s', v', by simp [Tfs.exec, htfs], by simp [Server.exec, serverCall, serverReply,
          hserver],
        hsame⟩
  | read fhandle len =>
      rcases ha.tfsRead hok len with ⟨r, out, s', v', htfs, hserver, hsame⟩
      exact ⟨⟨r, out⟩, s', v', by simp [Tfs.exec, htfs], by simp [Server.exec, serverCall, serverReply,
          hserver],
        hsame⟩

/-- One call: the same reply, and states that agree again. -/
theorem Agree.exec (ha : Agree s v) {call : Tfs.Call} (hok : WithinFirstBlock s call) :
    ∃ reply s' v', Tfs.exec call s = some (reply, s') ∧
      Server.exec (serverCall call) v = some (serverReply reply, v') ∧ Agree s' v' := by
  rcases ha.exec_same hok with ⟨reply, s', v', htfs, hserver, hsame⟩
  refine ⟨reply, s', v', htfs, hserver, hsame, ?_, ?_⟩
  · -- no call erases a file
    have hopen : Tfs.OnOpenHandle s call := by
      cases call with
      | «open» name flags => trivial
      | close fhandle => trivial
      | write fhandle buffer len => exact hok.1
      | read fhandle len => exact hok
    have htrunc : ¬ Tfs.TruncatesFile s call := by
      cases call with
      | «open» name flags => simp [Tfs.TruncatesFile, Tfs.Truncates, hok.2.1]
      | close fhandle => exact id
      | write fhandle buffer len => exact id
      | read fhandle len => exact id
    exact ha.inv.exec hopen htrunc htfs
  · have hserverOpen : ∀ fhandle, Tfs.HandleOpen s fhandle → Server.HandleOpen v fhandle := by
      rintro fhandle ⟨h, hh, hEq, htaken⟩
      exact ⟨h, hh, hEq, by rw [ha.taken, htaken]⟩
    have hopen : Server.OnOpenHandle v (serverCall call) := by
      cases call with
      | «open» name flags => trivial
      | close fhandle => trivial
      | write fhandle buffer len => exact hserverOpen fhandle hok.1
      | read fhandle len => exact hserverOpen fhandle hok
    exact ha.server.exec hopen hserver

/-- Both start with an empty root directory. -/
theorem agree_tfsInit : Agree Tfs.tfsInit.2 Server.tfsInit.2 := by
  refine ⟨?_, Tfs.inv_tfsInit, Server.inv_tfsInit⟩
  rw [Tfs.tfsInit_eq, Server.tfsInit_eq]
  constructor
  · rfl
  · rfl
  · exact SameBlock.refl _ _
  · rfl
  · intro h hh htaken
    cases htaken
  · intro i hi halloc
    have hfree := halloc.2
    simp [Function.update_of_ne (Nat.ne_of_gt hi)] at hfree

/-- On files of one block the two file systems give the same replies, to every call of every run. -/
theorem replies_agree (calls : List Tfs.Call)
    (hok : Tfs.fileSystem.RunOk WithinFirstBlock calls Tfs.tfsInit.2) :
    ∃ replies s v, Tfs.fileSystem.run calls Tfs.tfsInit.2 = some (replies, s) ∧
      Server.library.run (calls.map serverCall) Server.tfsInit.2 = some (replies.map serverReply, v) := by
  have hstep : ∀ s v call, Agree s v → WithinFirstBlock s call →
      ∃ reply s' v', Tfs.fileSystem.exec call s = some (reply, s') ∧
        Server.library.exec (serverCall call) v = some (serverReply reply, v') ∧ Agree s' v' :=
    fun s v call ha hcall => ha.exec hcall
  rcases Machine.run_agree hstep calls _ _ agree_tfsInit hok with ⟨replies, s, v, htfs, hserver, _⟩
  exact ⟨replies, s, v, htfs, hserver⟩

/-- Create `/a`, write two bytes to it, and read them through another handle. -/
def writeAndRead : List Tfs.Call :=
  [.open (some slashA) tfsOCreat, .write 0 (fun _ => 0x41) 2, .open (some slashA) 0, .read 1 5,
      .close 0]

theorem performAll_writeAndRead :
    (System.performAll (Tfs.fileSystem.perform WithinFirstBlock) writeAndRead Tfs.tfsInit.2).isSome = true := by
  rw [Tfs.tfsInit_eq]
  decide +kernel

theorem replies_agree_writeAndRead : ∃ replies s v,
    Tfs.fileSystem.run writeAndRead Tfs.tfsInit.2 = some (replies, s) ∧
      Server.library.run (writeAndRead.map serverCall) Server.tfsInit.2 = some (replies.map serverReply, v) :=
  replies_agree writeAndRead (Machine.runOk_of_perform writeAndRead _ performAll_writeAndRead)

end Runs

end Agreement
end TecnicoFs
