import TecnicoFs.Tfs.WriteTurns

/-!
# Multi-block writes — which writes place every byte

A write that ends in the block in which it starts puts its bytes where they belong and moves the handle and
the size behind them.  From the second block on the offset is past the bytes that were written, so the next
bytes go to the wrong place, and the size is too large.
-/

namespace TecnicoFs
namespace Tfs

open Lib

/-! ## The law -/

/-- How many of `n` bytes fit into a file from position `o` on. -/
def writeLength (o n : ℕ) : ℕ :=
  min n ((directBlocksQuantity + indexEntries) * blockSize - o)

/-- `m` bytes of the buffer are at the positions of file `i` from `o` on, no other byte of a block that any
slot referred to has changed, and the handle and the size are behind them. -/
structure PlacesEveryByte (s : State) (h i : ℕ) (buffer : ℕ → Byte) (o m : ℕ) (r : ℤ) (t : State) :
    Prop where
  returned : r = m
  placed : ∀ k < m, slotValue t (fileSlot i ((o + k) / blockSize)) ≠ -1 ∧ byteAt t i (o + k) = buffer k
  others : ∀ y, IsSlot s y → (∀ j, y ≠ .index j) → slotValue s y ≠ -1 → slotValue t y = slotValue s y ∧
    ∀ p < blockSize, (∀ k < m, ¬ (y = fileSlot i ((o + k) / blockSize) ∧ p = (o + k) % blockSize)) →
      slotByte t y p = slotByte s y p
  empty : ∀ y, IsSlot s y → slotValue s y = -1 → (∀ k < m, y ≠ fileSlot i ((o + k) / blockSize)) →
    slotValue t y = -1
  offset : (t.openFileTable h).ofOffset = o + m
  size : (t.inodeTable i).iSize = max (s.inodeTable i).iSize (o + m)

/-- The free blocks suffice for the blocks that `m` bytes from position `o` on need and the file lacks. -/
def EnoughBlocks (s : State) (i o m : ℕ) : Prop :=
  0 < m → missingBlocks s i (o / blockSize) (blocksFor (o % blockSize + m)) ≤ freeBlockCount s.disk

section Places

variable {s t : State} {h i a o n m J : ℕ} {buffer : ℕ → Byte}

theorem slotByte_growFile (x : Slot) (p : ℕ) : slotByte (growFile h i s) x p = slotByte s x p := by
  unfold slotByte
  rw [slotValue_growFile, growFile_disk]

/-- At most one turn, and it ended the call. -/
theorem AfterTurns.placesEveryByte (ht : AfterTurns s h i a o n buffer J t) (hJ : J ≤ 1)
    (hall : ∀ l < J, (progress o n l).writen < n) (hm : (progress o n J).writen = m) :
    PlacesEveryByte s h i buffer o m (m : ℤ) (growFile h i t) := by
  -- the bytes are those of the first turn
  have hturn : (J = 0 ∧ m = 0) ∨ (J = 1 ∧ m = turnLength o n 0) := by
    rcases Nat.le_one_iff_eq_zero_or_eq_one.1 hJ with rfl | rfl
    · exact Or.inl ⟨rfl, by simpa using hm.symm⟩
    · rw [show (1 : ℕ) = 0 + 1 from rfl, progress_succ] at hm
      exact Or.inr ⟨rfl, by simpa using hm.symm⟩
  have hfit := turnLength_fit o n 0
  simp only [progress_zero] at hfit
  have hoffset : (progress o n J).ofOffset = o + m := by
    rcases hturn with ⟨rfl, rfl⟩ | ⟨rfl, rfl⟩
    · rfl
    · rw [show (1 : ℕ) = 0 + 1 from rfl, progress_succ]
      simp
  have hblock : ∀ k < m, (o + k) / 1024 = o / 1024 ∧ (o + k) % 1024 = o % 1024 + k := by
    intro k hk
    omega
  constructor
  · rfl
  · intro k hk
    rcases hturn with ⟨_, rfl⟩ | ⟨rfl, rfl⟩
    · omega
    rcases ht.placed 0 (by omega) with ⟨hvalue, hbytes⟩
    have hbyte := hbytes k hk
    simp only [Nat.add_zero, progress_zero, Nat.zero_add] at hvalue hbyte
    have hslot : fileSlot i ((o + k) / blockSize) = fileSlot i (o / 1024) := by
      rw [show (o + k) / blockSize = o / 1024 from (hblock k hk).1]
    rw [hslot, slotValue_growFile, byteAt_growFile]
    refine ⟨hvalue, ?_⟩
    rw [← hbyte, ← (hblock k hk).2]
    show slotByte t (fileSlot i ((o + k) / 1024)) ((o + k) % 1024) = _
    rw [(hblock k hk).1]
  · intro y hy hyi hold
    rcases ht.kept y hy hyi hold with ⟨hvalue, hbytes⟩
    rw [slotValue_growFile]
    refine ⟨hvalue, ?_⟩
    intro p hp hout
    rw [slotByte_growFile]
    apply hbytes p hp
    intro l hl hyl hin
    rcases hturn with ⟨rfl, _⟩ | ⟨rfl, rfl⟩
    · omega
    have hzero : l = 0 := by omega
    subst hzero
    simp only [progress_zero, Nat.add_zero] at hin hyl
    have hk : p - o % 1024 < turnLength o n 0 := by omega
    apply hout _ hk
    simp only [blockSize]
    rw [(hblock _ hk).1, (hblock _ hk).2]
    exact ⟨hyl, by omega⟩
  · intro y hy hempty hout
    rw [slotValue_growFile, ht.others y hy, hempty]
    intro l hl hyl
    rcases hturn with ⟨rfl, _⟩ | ⟨rfl, rfl⟩
    · omega
    have hzero : l = 0 := by omega
    subst hzero
    exact hout 0 (turnLength_pos (hall 0 hl)) hyl
  · rw [growFile_openFileTable, ht.ofOffset, hoffset]
  · rw [growFile_iSize, ht.sizes, ht.ofOffset, hoffset]

/-- A write that ends in its first block has at most one turn. -/
theorem turns_le_one (hfit : o % 1024 + writeLength o n ≤ 1024) (hall : ∀ l < J, (progress o n l).writen < n)
    (hJ : o / 1024 + J ≤ 266) : J ≤ 1 := by
  by_contra hmany
  have hmore := hall 1 (by omega)
  rw [progress_one] at hmore
  have hentries : indexEntries = 256 := rfl
  unfold writeLength at hfit
  simp only [directBlocksQuantity, hentries, blockSize] at hfit
  omega

/-- Its one turn stores all bytes that fit. -/
theorem writen_of_turns_le_one (hfit : o % 1024 + writeLength o n ≤ 1024) (hfar : o < 272384)
    (hJ : J ≤ 1) (hdone : Complete o n J) : (progress o n J).writen = writeLength o n := by
  have hentries : indexEntries = 256 := rfl
  unfold writeLength at hfit ⊢
  simp only [directBlocksQuantity, hentries, blockSize] at hfit ⊢
  unfold Complete at hdone
  rcases Nat.le_one_iff_eq_zero_or_eq_one.1 hJ with rfl | rfl
  · simp only [progress_zero] at hdone ⊢
    omega
  · rw [progress_one] at hdone ⊢
    omega

/-- It does not run out of blocks. -/
theorem EnoughBlocks.not_outOfBlocks (hroom : EnoughBlocks s i o (writeLength o n))
    (hfit : o % 1024 + writeLength o n ≤ 1024) (hfar : o < 272384) (hJ : J ≤ 1) :
    ¬ OutOfBlocks s i o n J := by
  intro hout
  have hmore := hout.more
  have hblock := hout.block
  have hentries : indexEntries = 256 := rfl
  rcases Nat.le_one_iff_eq_zero_or_eq_one.1 hJ with rfl | rfl
  · -- there is a byte to write, and its block is missing
    have hpos : 0 < writeLength o n := by
      unfold writeLength
      simp only [directBlocksQuantity, hentries, blockSize, progress_zero] at hmore ⊢
      omega
    have hone : blocksFor (o % blockSize + writeLength o n) = 1 := by
      unfold blocksFor
      simp only [blockSize]
      omega
    have hmissing : missingBlocks s i (o / blockSize) 1 = 1 := by
      rw [missingBlocks, missingBlocks]
      simp only [Nat.zero_add]
      rw [if_pos hout.missing]
    have hcount := hroom hpos
    have hused : freeBlockCount s.disk = 0 := hout.used
    rw [hone, hmissing, hused] at hcount
    omega
  · rw [progress_one] at hmore
    unfold writeLength at hfit
    simp only [directBlocksQuantity, hentries, blockSize] at hfit
    omega

end Places

/-! ## Writes that go on to a second block -/

section Law

variable {s t : State} {h i a o n m J : ℕ} {buffer : ℕ → Byte} {hist : List (State × Call)}

/-- A write that must go on to a second block has too few bytes written, or the handle too far on. -/
theorem AfterTurns.not_places (hlong : 1024 < o % 1024 + writeLength o n)
    (hturns : (t.openFileTable h).ofOffset = (progress o n J).ofOffset)
    (hall : ∀ l < J, (progress o n l).writen < n) {r : ℤ} (hr : r = (progress o n J).writen) :
    ¬ PlacesEveryByte s h i buffer o (writeLength o n) r t := by
  intro hplaces
  have hreturned := hplaces.returned
  have hoffset := hplaces.offset
  have hmod : o % 1024 < 1024 := Nat.mod_lt _ (by omega)
  have hm : (progress o n J).writen = writeLength o n := by omega
  rw [hturns] at hoffset
  rcases J with _ | _ | J
  · rw [progress_zero] at hm
    simp only at hm
    omega
  · rw [Nat.zero_add, progress_one] at hm
    omega
  · -- from the second turn on the offset has run ahead of the bytes
    have hbeyond : o + (progress o n 1).writen + (progress o n (J + 1 + 1)).writen ≤
        (progress o n (J + 1 + 1)).ofOffset := progress_ofOffset_ge o n J
    have hfirst : 0 < (progress o n 1).writen := by
      have hpos := hall 0 (by omega)
      rw [progress_one]
      simp only [progress_zero] at hpos
      omega
    rw [hm] at hbeyond
    omega

/-- A write past the last block a file can have. -/
theorem tfsWrite_far (hshape : Shape s) (hh : h < 20) (hnum : (s.openFileTable h).ofInumber = i)
    (ha : a < 1024) (hindex : (s.inodeTable i).iIndexBlock = a) (buffer : ℕ → Byte) (hn : 0 ≤ castInt n)
    (ho : startPosition s h = o) (hfar : 272384 ≤ o) : tfsWrite h buffer n s =
      some (0, growFile h i (s.setEntry h { s.openFileTable h with ofOffset := o })) := by
  rcases hshape.startsAt hh buffer hn with ⟨k, hk, hEq⟩
  have hki : k = i := by
    rw [hnum] at hk
    omega
  subst hki
  have hzero : 266 - o / 1024 = 0 := by omega
  have hcast : castLong ((0 : ℕ) : ℤ) = 0 := by decide
  rw [hEq, ho, show o / blockSize = o / 1024 from rfl]
  generalize hu : s.setEntry h { s.openFileTable h with ofOffset := o } = u
  have hnode : (u.inodeTable k).iIndexBlock = a := by
    rw [← hu]
    exact hindex
  rw [writeBlocks_eq ha hnode (fun _ => by omega), hzero, writeLoop, WriteEnd.finish, hcast]

/-- After a run that truncates no file but empty ones, a write places every byte iff it ends in the block in
which it starts. -/
theorem placesEveryByte_iff (he : properCalls.Execution hist s)
    (hC : System.EachStep (fun s a => ¬ TruncatesFile s a) hist) (hopen : HandleOpen s h)
    (hnum : (s.openFileTable h).ofInumber = i) (ho : startPosition s h = o) (hsize : o ≤ fileSize s h)
    (buffer : ℕ → Byte) (hn : n < 2 ^ 31) (hroom : EnoughBlocks s i o (writeLength o n)) :
    ∃ r t, tfsWrite h buffer n s = some (r, t) ∧
      (PlacesEveryByte s h i buffer o (writeLength o n) r t ↔
        o % blockSize + writeLength o n ≤ blockSize) := by
  have hs := (inv_of_execution he hC).1
  have hshape := shape_of_execution he
  rcases hs.handle_file hopen with ⟨g, hg, hgh, htaken, j, hj, hlt, hlive, _⟩
  have hgh : g = h := by omega
  subst hgh
  have hji : j = i := by
    rw [hnum] at hj
    omega
  subst hji
  rcases hlive.refers_index with ⟨a, _, ha, hindex, _⟩
  have hcast : castInt n = n := castInt_of_range (by omega) (by omega)
  by_cases hfar : 272384 ≤ o
  · -- past the last block the write places nothing, and there is nothing to place
    have hentries : indexEntries = 256 := rfl
    have hzero : writeLength o n = 0 := by
      unfold writeLength
      simp only [directBlocksQuantity, hentries, blockSize]
      omega
    have hstays : growFile g j (s.setEntry g { s.openFileTable g with ofOffset := o }) =
        s.setEntry g { s.openFileTable g with ofOffset := o } := by
      rw [fileSize, hnum, Int.toNat_natCast] at hsize
      unfold growFile
      rw [if_neg (by simpa using hsize)]
    refine ⟨_, _, tfsWrite_far hshape hg hnum ha hindex buffer (by omega) ho hfar, ?_⟩
    rw [hzero, hstays]
    have hmod : o % blockSize < blockSize := Nat.mod_lt _ (by decide)
    refine ⟨fun _ => by omega, fun _ => ⟨rfl, by simp, ?_, ?_, by simp, ?_⟩⟩
    · intro y _ _ _
      exact ⟨slotValue_setEntry _ _, fun p _ _ => slotByte_setEntry _ _ _⟩
    · intro y _ hempty _
      rw [slotValue_setEntry, hempty]
    · rw [fileSize, hnum, Int.toNat_natCast] at hsize
      exact (max_eq_left hsize).symm
  · have hN : 0 ≤ castInt n := by omega
    rcases tfsWrite_turns hs hshape hg htaken hnum hlive ha hindex buffer hN ho (by omega) with
      ⟨J, t, ht, hall, hJ, hcases⟩
    by_cases hfit : o % 1024 + writeLength o n ≤ 1024
    · -- within one block one turn does it all; there is a block for it
      have hone := turns_le_one hfit hall hJ
      rcases hcases with ⟨hout, _⟩ | ⟨hdone, hEq⟩
      · exact absurd hout (hroom.not_outOfBlocks hfit (by omega) hone)
      · have hm := writen_of_turns_le_one hfit (by omega) hone hdone
        have hplaces := ht.placesEveryByte hone hall hm
        rw [hm] at hEq
        exact ⟨_, _, hEq, fun _ => hfit, fun _ => hplaces⟩
    · -- with a second turn the handle ends up too far on, whether or not the blocks suffice
      have hnot : ∀ {u : State}, (u.openFileTable g).ofOffset = (progress o n J).ofOffset →
          ¬ PlacesEveryByte s g j buffer o (writeLength o n) ((progress o n J).writen : ℤ) u :=
        fun hturns => AfterTurns.not_places (by omega) hturns hall rfl
      rcases hcases with ⟨_, hEq⟩ | ⟨_, hEq⟩
      · exact ⟨_, _, hEq, fun hp => absurd hp (hnot ht.ofOffset), fun hc => absurd hc hfit⟩
      · refine ⟨_, _, hEq, fun hp => absurd hp (hnot ?_), fun hc => absurd hc hfit⟩
        rw [growFile_openFileTable, ht.ofOffset]

instance (s : State) (i o m : ℕ) : Decidable (EnoughBlocks s i o m) :=
  inferInstanceAs (Decidable (_ → _))

/-- Handle 0 is at the start of a new file, and `n` bytes have room. -/
def ReadyToWrite (s : State) (n : ℕ) : Prop :=
  (HandleOpen s (0 : ℕ) ∧ (s.openFileTable 0).ofInumber = 1) ∧
    (startPosition s 0 = 0 ∧ (s.inodeTable 1).iSize = 0) ∧ EnoughBlocks s 1 0 (writeLength 0 n)

instance (s : State) (n : ℕ) : Decidable (ReadyToWrite s n) :=
  inferInstanceAs (Decidable (_ ∧ _))

theorem performAll_ready :
    (System.performAll (fileSystem.record OnOpenHandle) [.open (some slashA) tfsOCreat]
      ([], tfsInit.2)).any (fun x => ReadyToWrite x.2 1025 ∧ ReadyToWrite x.2 1024) = true := by
  rw [tfsInit_eq]
  decide +kernel

theorem placesEveryByte_iff_slashA : ∃ hist s r t, properCalls.Execution hist s ∧
    hist.map Prod.snd = [.open (some slashA) tfsOCreat] ∧
    tfsWrite (0 : ℕ) (fun _ => 0x41) 1024 s = some (r, t) ∧
    PlacesEveryByte s 0 1 (fun _ => 0x41) 0 1024 r t := by
  rcases Machine.execution_of_any performAll_ready with ⟨hist, s, he, hlabels, _, hready⟩
  rcases hready with ⟨⟨hopen, hnum⟩, ⟨hstart, _⟩, hroom⟩
  have hC : System.EachStep (fun s a => ¬ TruncatesFile s a) hist := by
    apply eachStep_of_flags
    intro a ha name flags hEq
    rw [hlabels] at ha
    simp only [List.reverse_cons, List.reverse_nil, List.nil_append, List.mem_singleton] at ha
    rw [ha] at hEq
    cases hEq
    decide
  rcases placesEveryByte_iff he hC hopen hnum hstart (Nat.zero_le _) (fun _ => 0x41) (by omega) hroom with
    ⟨r, t, hwrite, hiff⟩
  exact ⟨hist, s, r, t, he, hlabels, hwrite, hiff.2 (by decide)⟩

/-- Writing 1025 bytes to the new file returns 1025 and leaves the handle and the size at 2049. -/
def WritesTooFar (s : State) : Prop :=
  ReadyToWrite s 1025 ∧ (tfsWrite (0 : ℕ) (fun _ => 0x41) 1025 s).any (fun x =>
    x.1 = 1025 && decide ((x.2.openFileTable 0).ofOffset = 2049 ∧ (x.2.inodeTable 1).iSize = 2049)) = true

instance (s : State) : Decidable (WritesTooFar s) :=
  inferInstanceAs (Decidable (_ ∧ _))

theorem performAll_writesTooFar :
    (System.performAll (fileSystem.record OnOpenHandle) [.open (some slashA) tfsOCreat]
      ([], tfsInit.2)).any (fun x => WritesTooFar x.2) = true := by
  rw [tfsInit_eq]
  decide +kernel

theorem longWrite_moves_too_far : ∃ hist s, properCalls.Execution hist s ∧
    hist.map Prod.snd = [.open (some slashA) tfsOCreat] ∧ WritesTooFar s ∧
    ¬ ∃ r t, tfsWrite (0 : ℕ) (fun _ => 0x41) 1025 s = some (r, t) ∧
      PlacesEveryByte s 0 1 (fun _ => 0x41) 0 1025 r t := by
  rcases Machine.execution_of_any performAll_writesTooFar with ⟨hist, s, he, hlabels, hP⟩
  refine ⟨hist, s, he, hlabels, hP, ?_⟩
  rintro ⟨r, t, hwrite, hplaces⟩
  rcases (Option.any_eq_true _ _).1 hP.2 with ⟨⟨r', t'⟩, hEq, hfar⟩
  have hsame : some (r, t) = some (r', t') := hwrite.symm.trans hEq
  cases hsame
  have hoffset : (t.openFileTable 0).ofOffset = 2049 :=
    (of_decide_eq_true (Bool.and_eq_true_iff.1 hfar).2).1
  rw [hplaces.offset] at hoffset
  cases hoffset

/-- Cut `/a` under its byte, and fill the block at offset 0 through handle 1. -/
def cutAndRefill : List Call :=
  [.open (some slashA) tfsOCreat, .write 0 (fun _ => 0x41) 1, .open (some slashA) tfsOTrunc,
    .write 1 (fun _ => 0x42) 1024]

/-- Handle 1 is at the end of the first block, the next byte stays in its block and has room, and writing it
changes byte 0 of the file. -/
def OverwritesStart (s : State) : Prop :=
  (HandleOpen s (1 : ℕ) ∧ (s.openFileTable 1).ofInumber = 1 ∧ startPosition s 1 = 1024 ∧
      fileSize s 1 = 1024 ∧ EnoughBlocks s 1 1024 (writeLength 1024 1)) ∧
    (s.freeinodeTs 1 = .taken ∧ slotValue s (fileSlot 1 0) ≠ -1 ∧ slotByte s (fileSlot 1 0) 0 = 0x42) ∧
    (tfsWrite (1 : ℕ) (fun _ => 0x43) 1 s).any (fun x =>
      x.1 = 1 && decide (slotByte x.2 (fileSlot 1 0) 0 = 0x43)) = true

instance (s : State) : Decidable (OverwritesStart s) :=
  inferInstanceAs (Decidable (_ ∧ _))

theorem performAll_cutAndRefill :
    (System.performAll (fileSystem.record OnOpenHandle) cutAndRefill ([], tfsInit.2)).any
      (fun x => OverwritesStart x.2) = true := by
  rw [tfsInit_eq]
  decide +kernel

/-- The condition on the run is needed: `tfs_open` gave block 2 back and left it in the i-node, so the file
gets it a second time, and a write within one block changes another byte of the file. -/
theorem write_overwrites_after_truncation : ∃ hist s, properCalls.Execution hist s ∧
    hist.map Prod.snd = cutAndRefill.reverse ∧ OverwritesStart s ∧
    ¬ ∃ r t, tfsWrite (1 : ℕ) (fun _ => 0x43) 1 s = some (r, t) ∧
      PlacesEveryByte s 1 1 (fun _ => 0x43) 1024 1 r t := by
  rcases Machine.execution_of_any performAll_cutAndRefill with ⟨hist, s, he, hlabels, hP⟩
  refine ⟨hist, s, he, hlabels, hP, ?_⟩
  rcases hP with ⟨_, ⟨halloc, hslot, hbefore⟩, hwrite⟩
  rcases (Option.any_eq_true _ _).1 hwrite with ⟨⟨r', t'⟩, hEq, hafter⟩
  have hchanged : slotByte t' (fileSlot 1 0) 0 = 0x43 := of_decide_eq_true (Bool.and_eq_true_iff.1 hafter).2
  rintro ⟨r, t, hwrite', hplaces⟩
  cases hwrite'.symm.trans hEq
  have hisSlot : IsSlot s (fileSlot 1 0) := ⟨⟨by decide, halloc⟩, by decide⟩
  have hkept := (hplaces.others (fileSlot 1 0) hisSlot (by simp [fileSlot]) hslot).2 0 (by decide) (by decide)
  rw [hchanged, hbefore] at hkept
  cases hkept

end Law

end Tfs
end TecnicoFs
