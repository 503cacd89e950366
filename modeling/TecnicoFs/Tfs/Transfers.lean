import TecnicoFs.Tfs.WriteLoop

/-!
# Multi-block transfers — reads, writes and closes keep the invariant

A write runs the loop twice and then stores the size; a read moves its handle and nothing else.  No call of
this module frees a block.
-/

namespace TecnicoFs
namespace Tfs

open Lib

/-! ## Writes -/

section Write

variable {s t : State} {h i a toWrite : ℕ} {buffer : ℕ → Byte}

theorem sameNodes_setSize (s : State) (i n : ℕ) :
    SameNodes s (s.setInode i { s.inodeTable i with iSize := n }) := by
  have hnode : ∀ k, (Function.update s.inodeTable i { s.inodeTable i with iSize := n } k).iNodeType =
        (s.inodeTable k).iNodeType ∧
      (Function.update s.inodeTable i { s.inodeTable i with iSize := n } k).iIndexBlock =
        (s.inodeTable k).iIndexBlock := by
    intro k
    by_cases hk : k = i
    · subst hk
      simp
    · simp [hk]
  exact ⟨rfl, fun k => (hnode k).1, fun k => (hnode k).2⟩

theorem slotValue_setSize (s : State) (i n : ℕ) (y : Slot) :
    slotValue (s.setInode i { s.inodeTable i with iSize := n }) y = slotValue s y := by
  cases y with
  | direct k l =>
      by_cases hk : k = i
      · subst hk
        simp [slotValue]
      · simp [slotValue, hk]
  | index k => exact (sameNodes_setSize s i n).iIndexBlock k
  | entry k l => simp [slotValue, (sameNodes_setSize s i n).indexAddress_eq]

/-- The file size follows the offset of an open handle. -/
theorem Inv.growSize (hs : Inv s) (hh : h < 20) (htaken : s.freeOpenFileEntries h = .taken)
    (hi : (s.openFileTable h).ofInumber = i) :
    Inv (s.setInode i { s.inodeTable i with iSize := (s.openFileTable h).ofOffset }) := by
  rcases hs.handles h hh htaken with ⟨j, hj, hlive, hpos⟩
  -- the handle's file is the one whose size is set
  have hij : j = i := by
    rw [hi] at hj
    omega
  subst hij
  have hnodes := sameNodes_setSize s j (s.openFileTable h).ofOffset
  have hvalue := slotValue_setSize s j (s.openFileTable h).ofOffset
  apply hs.of_sameNodes hnodes
  · exact hvalue (.direct 0 0)
  · exact SameBlock.refl _ _
  · apply hs.blocks.congr
    · intro y b
      simp only [Refers, hnodes.isSlot_iff, hvalue]
    · intro b
      rfl
  · intro y hy
    rw [hvalue]
    exact hs.valid y hy
  · intro k hk halloc
    rw [PositionOk, hvalue]
    by_cases hkj : k = j
    · subst hkj
      simpa [PositionOk] using hpos
    · simpa [hkj, PositionOk] using hs.sizes k hk halloc
  · intro g hg htakenG
    apply (hs.handles g hg htakenG).congr hnodes
    intro k _
    rw [hvalue]
    exact id

/-- `tfs_write` stores the new size if the file grew. -/
def growFile (h i : ℕ) (s : State) : State :=
  if (s.inodeTable i).iSize < (s.openFileTable h).ofOffset then
    s.setInode i { s.inodeTable i with iSize := (s.openFileTable h).ofOffset }
  else
    s

/-- The tail of `writeBlocks` is `growFile`. -/
theorem growFile_eq (r : ℤ) : (if (s.inodeTable i).iSize < (s.openFileTable h).ofOffset then
      (r, s.setInode i { s.inodeTable i with iSize := (s.openFileTable h).ofOffset })
      else (r, s)) = (r, growFile h i s) := by
  unfold growFile
  split <;> rfl

theorem Inv.growFile (hs : Inv s) (hh : h < 20) (htaken : s.freeOpenFileEntries h = .taken)
    (hi : (s.openFileTable h).ofInumber = i) : Inv (growFile h i s) := by
  unfold Tfs.growFile
  split
  · exact hs.growSize hh htaken hi
  · exact hs

/-- Past the last slot both loops end at once. -/
theorem slotsLeft_of_le {index : ℕ} (h : 266 ≤ index) :
    directBlocksQuantity - index = 0 ∧ indexEntries - indirectIndex index = 0 := by
  have hentries : indexEntries = 256 := rfl
  unfold indirectIndex
  simp only [directBlocksQuantity]
  split <;> omega

/-- From the first block of the index block on, the first loop makes no turn. -/
theorem directLeft_of_ge {index : ℕ} (h : 10 ≤ index) : directBlocksQuantity - index = 0 := by
  simp only [directBlocksQuantity]
  omega

/-- The second loop then starts at the block's own place in the index block. -/
theorem indirectIndex_of_ge {index : ℕ} (h : 10 ≤ index) : indirectIndex index = index - 10 := by
  unfold indirectIndex
  simp only [directBlocksQuantity]
  split <;> omega

/-- A loop that has written everything makes no turn. -/
theorem writeLoop_of_le {slots : BlockSlots} {left index writen : ℕ} (hw : ¬ writen < toWrite) :
    writeLoop slots h buffer toWrite left index writen s = .done index writen s := by
  cases left with
  | zero => rfl
  | succ left => rw [writeLoop, if_neg hw]

theorem Inv.writeBlocks (hs : Inv s) (buffer : ℕ → Byte) (toWrite : ℕ) (hh : h < 20)
    (htaken : s.freeOpenFileEntries h = .taken)
    (hi : (s.openFileTable h).ofInumber = i) (hlive : LiveFile s i) :
    Inv (writeBlocks h i buffer toWrite ((s.openFileTable h).ofOffset / 1024) s).2 := by
  rcases hlive.refers_index with ⟨a, _, ha, hindex, _⟩
  have hget : dataBlockGet (s.inodeTable i).iIndexBlock = some (a * 1024) := by
    rw [hindex, dataBlockGet_natCast ha]
  have hentries : indexEntries = 256 := rfl
  generalize hk : (s.openFileTable h).ofOffset / 1024 = index
  unfold Tfs.writeBlocks
  by_cases hfar : 266 ≤ index
  · -- past the last block: neither loop makes a turn
    rcases slotsLeft_of_le hfar with ⟨hdirect, hindirect⟩
    simp only [hdirect, writeLoop, hget, hindirect, growFile_eq]
    exact hs.growFile hh htaken hi
  · -- the first loop starts in the handle's block; a file that is not empty has its first block
    have hhead : AtHead h i a toWrite 0 (.direct i index) 0 s := by
      refine ⟨hs, ⟨hh, htaken⟩, hi, hlive, hindex, by omega, by omega, ?_⟩
      intro _
      rcases hs.handles h hh htaken with ⟨j, hj, _, hpos⟩
      have hij : j = i := by
        rw [hi] at hj
        omega
      subst hij
      by_cases hzero : index = 0
      · exact Or.inl (by rw [hzero])
      · exact Or.inr (hpos.2 (by omega))
    have hloop := writeLoop_inv (h := h) buffer (row_direct i a)
      (directBlocksQuantity - index) index 0 0 s hhead
      (by simp only [directBlocksQuantity]; omega) (by simp only [directBlocksQuantity]; omega)
    rcases hend : writeLoop (directSlots i) h buffer toWrite (directBlocksQuantity - index) index 0 s with
      ⟨w, t⟩ | ⟨index₁, w, t⟩
    · rw [hend] at hloop
      exact hloop
    · rw [hend] at hloop
      rcases hloop with ⟨hlast, v, hv, hhead₁⟩
      have hget₁ : dataBlockGet (t.inodeTable i).iIndexBlock = some (a * 1024) := by
        rw [hhead₁.index, dataBlockGet_natCast ha]
      simp only [hget₁]
      -- the second loop goes on if something is left to write
      by_cases hw : w < toWrite
      · have hhead₂ : AtHead h i a toWrite v (.entry i (indirectIndex index₁)) w t := by
          refine { hhead₁ with first := ?_ }
          intro _
          right
          -- the first loop ended past slot 9, so the file has its first block by now
          rcases hhead₁.first hw with hEq | hfirst
          · have hzero := (Slot.direct.inj hEq).2
            have hten := hlast hw
            simp only [directBlocksQuantity] at hten
            omega
          · exact hfirst
        have hv256 : v + 256 ≤ 266 := by
          simp only [directBlocksQuantity] at hv
          omega
        have hloop₂ := writeLoop_inv (h := h) buffer (row_index i a)
          (indexEntries - indirectIndex index₁) (indirectIndex index₁) v w t hhead₂ (by omega) (by omega)
        rcases hend₂ : writeLoop (indexSlots (a * 1024)) h buffer toWrite
            (indexEntries - indirectIndex index₁) (indirectIndex index₁) w t with
          ⟨w₂, u⟩ | ⟨index₂, w₂, u⟩
        · rw [hend₂] at hloop₂
          exact hloop₂
        · rw [hend₂] at hloop₂
          rcases hloop₂ with ⟨_, _, _, hhead₃⟩
          simp only [growFile_eq]
          exact hhead₃.inv.growFile hh hhead₃.handle.2 hhead₃.inumber
      · simp only [writeLoop_of_le hw, growFile_eq]
        exact hhead₁.inv.growFile hh hhead₁.handle.2 hhead₁.inumber

/-! ## A write within one block -/

/-- The slot of block `k` of file `i`. -/
def fileSlot (i k : ℕ) : Slot :=
  if k < 10 then .direct i k else .entry i (k - 10)

theorem fileSlot_ne_index (i k j : ℕ) : fileSlot i k ≠ .index j := by
  unfold fileSlot
  split <;> simp

theorem fileSlot_inj {k l : ℕ} : fileSlot i k = fileSlot i l ↔ k = l := by
  unfold fileSlot
  split <;> split <;> simp <;> omega

theorem fileSlot_ne_of_ne {j k l : ℕ} (hji : j ≠ i) : fileSlot j k ≠ fileSlot i l := by
  unfold fileSlot
  split <;> split <;> simp [hji]

theorem Inv.isSlot_fileSlot (hs : Inv s) (hlive : LiveFile s i) {k : ℕ} (hk : k < 266) :
    IsSlot s (fileSlot i k) := by
  unfold fileSlot
  split
  · next hlt => exact hlive.isSlot_direct hlt
  · exact hs.isSlot_entry hlive (by omega)

theorem fileSlot_ne_root (hi : 0 < i) (k : ℕ) : fileSlot i k ≠ .direct 0 0 := by
  unfold fileSlot
  split
  · intro hEq
    have := (Slot.direct.inj hEq).1
    omega
  · simp

theorem writeInBlock_eq {o n : ℕ} (hfit : o % 1024 + n ≤ 1024) : writeInBlock o n 0 = n := by
  unfold writeInBlock
  simp only [blockSize]
  split <;> omega

/-- The tail of `writeBlocks` once everything is written. -/
theorem writeBlocks_of_done {n index index' : ℕ} (hlive : LiveFile t i)
    (hloop : writeLoop (directSlots i) h buffer toWrite (directBlocksQuantity - index) index 0 s =
      .done index' n t) (hn : ¬ n < toWrite) :
    writeBlocks h i buffer toWrite index s = (castLong n, growFile h i t) := by
  rcases hlive.refers_index with ⟨a, _, ha, hindex, _⟩
  have hget : dataBlockGet (t.inodeTable i).iIndexBlock = some (a * 1024) := by
    rw [hindex, dataBlockGet_natCast ha]
  unfold writeBlocks
  simp only [hloop, hget, writeLoop_of_le hn, growFile_eq]

/-- A write past the last block of a file writes nothing. -/
theorem writeBlocks_past {n index : ℕ} (hlive : LiveFile s i) (hfar : 266 ≤ index) :
    writeBlocks h i buffer n index s = (0, growFile h i s) := by
  rcases hlive.refers_index with ⟨a, _, ha, hindex, _⟩
  have hget : dataBlockGet (s.inodeTable i).iIndexBlock = some (a * 1024) := by
    rw [hindex, dataBlockGet_natCast ha]
  rcases slotsLeft_of_le hfar with ⟨hdirect, hindirect⟩
  have hcast : castLong (0 : ℕ) = 0 := by decide
  unfold writeBlocks
  simp only [hdirect, writeLoop, hget, hindirect, growFile_eq, hcast]

/-- A write within one block is one turn of one of the loops, which may find no block. -/
theorem writeBlocks_one_cases (hs : Inv s) (hlive : LiveFile s i) {n o : ℕ}
    (ho : (s.openFileTable h).ofOffset = o) (hbound : o < 272384) (hn : 0 < n)
    (hfit : o % 1024 + n ≤ 1024) :
    (∃ b t, Stored s h (fileSlot i (o / 1024)) b (o % 1024) buffer n (o + n) t ∧
      writeBlocks h i buffer n (o / 1024) s = ((n : ℤ), growFile h i t)) ∨
    (slotValue s (fileSlot i (o / 1024)) = -1 ∧ (∀ b < 1024, s.disk.freeBlocks b = .taken) ∧
      (writeBlocks h i buffer n (o / 1024) s).1 = 0) := by
  rcases hlive.refers_index with ⟨a, _, ha, hindex, _⟩
  have hcast : castLong n = n := castLong_of_range (by omega) (by omega)
  have hzero : castLong (0 : ℕ) = 0 := by decide
  have hsum : sizeAdd o (0 + n) = o + n := by
    rw [Nat.zero_add]
    exact sizeAdd_of_lt (by omega)
  -- the turn is the same in both loops
  have hturn : ∀ {slots : BlockSlots} {x : ℕ → Slot} {m k : ℕ} (left : ℕ), Row i a slots x m → k < m →
      x k = fileSlot i (o / 1024) →
      (∃ b t, Stored s h (fileSlot i (o / 1024)) b (o % 1024) buffer n (o + n) t ∧
        writeLoop slots h buffer n (left + 1) k 0 s = .done (k + 1) n t) ∨
      (slotValue s (fileSlot i (o / 1024)) = -1 ∧ (∀ b < 1024, s.disk.freeBlocks b = .taken) ∧
        ∃ t, writeLoop slots h buffer n (left + 1) k 0 s = .noBlock 0 t) := by
    intro slots x m k left hrow hk hx
    rcases writeLoop_succ_cases (h := h) left buffer hs hrow hlive hindex hk hn with
      ⟨hfull, hempty, hEq⟩ | ⟨n', b, t, hn', hst, hEq⟩
    · rw [hx] at hempty
      exact Or.inr ⟨hempty, hfull, _, hEq⟩
    · left
      rw [ho, writeInBlock_eq hfit] at hn'
      subst hn'
      rw [ho, hx, hsum] at hst
      simp only [Nat.zero_add] at hst
      refine ⟨b, t, hst, ?_⟩
      rw [hEq, Nat.zero_add]
      exact writeLoop_of_le (by omega)
  by_cases hten : o / 1024 < 10
  · -- a direct block: the second loop has nothing left to do
    have hx : Slot.direct i (o / 1024) = fileSlot i (o / 1024) := by simp [fileSlot, hten]
    have hleft : directBlocksQuantity - o / 1024 = 10 - o / 1024 - 1 + 1 := by
      simp only [directBlocksQuantity]
      omega
    rcases hturn (10 - o / 1024 - 1) (row_direct i a) hten hx with ⟨b, t, hst, hEq⟩ | ⟨hempty, hfull, t, hEq⟩
    · refine Or.inl ⟨b, t, hst, ?_⟩
      rw [← hleft] at hEq
      rw [writeBlocks_of_done (hst.nodes.liveFile_iff.2 hlive) hEq (by omega), hcast]
    · refine Or.inr ⟨hempty, hfull, ?_⟩
      rw [← hleft] at hEq
      unfold writeBlocks
      simp only [hEq, hzero]
  · -- a block of the index block: the first loop makes no turn
    have hx : Slot.entry i (o / 1024 - 10) = fileSlot i (o / 1024) := by simp [fileSlot, hten]
    have hdirect : directBlocksQuantity - o / 1024 = 0 := directLeft_of_ge (by omega)
    have hindirect : indirectIndex (o / 1024) = o / 1024 - 10 := indirectIndex_of_ge (by omega)
    have hleft : indexEntries - (o / 1024 - 10) = 256 - (o / 1024 - 10) - 1 + 1 := by
      have hentries : indexEntries = 256 := rfl
      omega
    have hget : dataBlockGet (s.inodeTable i).iIndexBlock = some (a * 1024) := by
      rw [hindex, dataBlockGet_natCast ha]
    rcases hturn (256 - (o / 1024 - 10) - 1) (row_index i a) (by omega) hx with
      ⟨b, t, hst, hEq⟩ | ⟨hempty, hfull, t, hEq⟩
    · refine Or.inl ⟨b, t, hst, ?_⟩
      unfold writeBlocks
      simp only [hdirect, writeLoop, hget, hindirect, hleft, hEq, hcast, growFile_eq]
    · refine Or.inr ⟨hempty, hfull, ?_⟩
      unfold writeBlocks
      simp only [hdirect, writeLoop, hget, hindirect, hleft, hEq, hzero]

/-- With a block to write to, a write within one block writes everything. -/
theorem writeBlocks_one (hs : Inv s) (hlive : LiveFile s i) {n o : ℕ}
    (ho : (s.openFileTable h).ofOffset = o) (hbound : o < 272384) (hn : 0 < n)
    (hfit : o % 1024 + n ≤ 1024)
    (hroom : slotValue s (fileSlot i (o / 1024)) ≠ -1 ∨ ∃ b < 1024, s.disk.freeBlocks b = .free) :
    ∃ b t, Stored s h (fileSlot i (o / 1024)) b (o % 1024) buffer n (o + n) t ∧
      writeBlocks h i buffer n (o / 1024) s = ((n : ℤ), growFile h i t) := by
  rcases writeBlocks_one_cases hs hlive ho hbound hn hfit with hdone | ⟨hempty, hfull, _⟩
  · exact hdone
  · rcases hroom with hne | ⟨b, hb, hfree⟩
    · exact absurd hempty hne
    · simp [hfull b hb] at hfree

theorem blockIndex_of_lt {n : ℕ} (hn : n < 2 ^ 31) : blockIndex n = (n / 1024 : ℕ) := by
  have hcast : castInt n = n := castInt_of_range (by omega) (by omega)
  rw [blockIndex, hcast]
  exact (Int.ofNat_tdiv n 1024).symm

theorem Inv.seekForAppend (hs : Inv s) (hh : h < 20) (htaken : s.freeOpenFileEntries h = .taken)
    (hi : (s.openFileTable h).ofInumber = i) (hlive : LiveFile s i) :
    Inv (seekForAppend h i s) ∧ ((seekForAppend h i s).openFileTable h).ofInumber = i := by
  unfold Tfs.seekForAppend
  split
  · refine ⟨hs.of_handles (t := s.setEntry h _) rfl rfl rfl ?_, by simpa using hi⟩
    intro g hg htakenG
    by_cases hgh : g = h
    · subst hgh
      simpa [EntryOk, hi] using ⟨hlive, hs.sizes i hlive.1 hlive.2.1⟩
    · simpa [hgh] using hs.handles g hg htakenG
  · exact ⟨hs, hi⟩

@[simp] theorem seekForAppend_disk : (seekForAppend h i s).disk = s.disk := by
  unfold seekForAppend
  split <;> rfl

@[simp] theorem seekForAppend_inodeTable : (seekForAppend h i s).inodeTable = s.inodeTable := by
  unfold seekForAppend
  split <;> rfl

@[simp] theorem seekForAppend_freeinodeTs : (seekForAppend h i s).freeinodeTs = s.freeinodeTs := by
  unfold seekForAppend
  split <;> rfl

@[simp] theorem seekForAppend_freeOpenFileEntries :
    (seekForAppend h i s).freeOpenFileEntries = s.freeOpenFileEntries := by
  unfold seekForAppend
  split <;> rfl

theorem sameNodes_seekForAppend : SameNodes s (seekForAppend h i s) :=
  ⟨by simp, by simp, by simp⟩

/-- The file that an open handle stands for. -/
theorem Inv.handle_file (hs : Inv s) {fhandle : ℤ} (hopen : HandleOpen s fhandle) :
    ∃ h : ℕ, h < 20 ∧ fhandle = h ∧ s.freeOpenFileEntries h = .taken ∧
      ∃ i : ℕ, (s.openFileTable h).ofInumber = i ∧ i < 50 ∧ LiveFile s i ∧
        PositionOk s i (s.openFileTable h).ofOffset := by
  rcases hopen with ⟨h, hh, rfl, htaken⟩
  rcases hs.handles h hh htaken with ⟨i, hi, hlive, hpos⟩
  exact ⟨h, hh, rfl, htaken, i, hi, hlive.2.1.1, hlive, hpos⟩

theorem Inv.tfsWrite (hs : Inv s) {fhandle r : ℤ} (hopen : HandleOpen s fhandle)
    (hw : tfsWrite fhandle buffer toWrite s = some (r, t)) : Inv t := by
  rcases hs.handle_file hopen with ⟨h, hh, rfl, htaken, i, hi, hlt, hlive, _⟩
  unfold Tfs.tfsWrite at hw
  rw [getOpenFileEntry_natCast hh] at hw
  simp only at hw
  by_cases hneg : castInt toWrite < 0
  · rw [if_pos hneg, Option.some.injEq, Prod.mk.injEq] at hw
    exact hw.2 ▸ hs
  · rw [if_neg hneg, hi, inodeGet_natCast hlt] at hw
    simp only at hw
    rcases hs.seekForAppend hh htaken hi hlive with ⟨hseek, hiSeek⟩
    have htakenSeek : (Tfs.seekForAppend h i s).freeOpenFileEntries h = .taken := by
      simpa using htaken
    have hliveSeek : LiveFile (Tfs.seekForAppend h i s) i := sameNodes_seekForAppend.liveFile_iff.2 hlive
    have hbound : ((Tfs.seekForAppend h i s).openFileTable h).ofOffset < 2 ^ 31 := by
      rcases hseek.handles h hh htakenSeek with ⟨_, _, _, hpos⟩
      have := hpos.1
      omega
    rw [blockIndex_of_lt hbound, if_neg (by omega), Option.some.injEq, Int.toNat_natCast] at hw
    have hinv := hseek.writeBlocks buffer toWrite hh htakenSeek hiSeek hliveSeek
    rw [hw] at hinv
    exact hinv

/-- A write on a handle that was not opened for appending. -/
theorem tfsWrite_eq (hs : Inv s) (hh : h < 20) (htaken : s.freeOpenFileEntries h = .taken)
    (hi : (s.openFileTable h).ofInumber = i) (happend : (s.openFileTable h).ofAppendFlag ≠ 1)
    (hn : toWrite < 2 ^ 31) :
    tfsWrite h buffer toWrite s =
      some (writeBlocks h i buffer toWrite ((s.openFileTable h).ofOffset / 1024) s) := by
  rcases hs.handle_file ⟨h, hh, rfl, htaken⟩ with ⟨g, _, hg, _, j, hj, hlt, _, hpos⟩
  have hgh : g = h := by omega
  subst hgh
  have hij : j = i := by
    rw [hi] at hj
    omega
  subst hij
  have hcast : castInt toWrite = toWrite := castInt_of_range (by omega) (by omega)
  have hneg : ¬ castInt toWrite < 0 := by omega
  have hbound : (s.openFileTable g).ofOffset < 2 ^ 31 := by
    have := hpos.1
    omega
  unfold tfsWrite
  simp only [getOpenFileEntry_natCast hh, hneg, if_false, hj, inodeGet_natCast hlt, seekForAppend,
    happend, blockIndex_of_lt hbound, Int.toNat_natCast]
  exact if_neg (by omega)

/-- A write of nothing, at or before the end of the file, changes nothing. -/
theorem tfsWrite_zero (hs : Inv s) (hh : h < 20) (htaken : s.freeOpenFileEntries h = .taken)
    (hi : (s.openFileTable h).ofInumber = i) (hlive : LiveFile s i)
    (happend : (s.openFileTable h).ofAppendFlag ≠ 1)
    (hoff : (s.openFileTable h).ofOffset ≤ (s.inodeTable i).iSize) :
    tfsWrite h buffer 0 s = some (0, s) := by
  have hsame : Tfs.growFile h i s = s := if_neg (by omega)
  have hcast : castLong (0 : ℕ) = 0 := by decide
  rw [tfsWrite_eq hs hh htaken hi happend (by omega),
    writeBlocks_of_done hlive (writeLoop_of_le (lt_irrefl 0)) (lt_irrefl 0), hsame, hcast]

end Write

/-! ## Reads and closes -/

section Read

variable {s t : State} {h i a toRead : ℕ}

/-- The bytes that a read loop has delivered. -/
def ReadEnd.out : ReadEnd → List Byte
  | .noBlock out _ => out
  | .done _ out _ => out

def ReadEnd.state : ReadEnd → State
  | .noBlock _ s => s
  | .done _ _ s => s

theorem readInBlock_fit (offset bound : ℕ) : offset % 1024 + readInBlock offset bound ≤ 1024 := by
  have hmod : offset % 1024 < 1024 := Nat.mod_lt _ (by omega)
  unfold readInBlock
  simp only [blockSize]
  split <;> omega

theorem readInBlock_eq_min (offset bound : ℕ) :
    readInBlock offset bound = min (1024 - offset % 1024) bound := by
  unfold readInBlock
  simp only [blockSize]
  split <;> omega

/-- A read loop moves its handle and changes nothing else, by induction on the slots that are left.  Each
turn adds all the bytes read so far to the offset, so a loop that makes a turn ends at least that far on. -/
theorem readLoop_moves (slots : BlockSlots) (bound : ℕ → ℕ) (toRead left : ℕ) :
    ∀ (index v : ℕ) (out : List Byte) (s : State), (s.openFileTable h).ofOffset ≤ 272384 * (v + 1) →
      out.length ≤ 1024 * v → v + left ≤ 266 →
      ∃ v' ≤ v + left, ∃ offset ≤ 272384 * (v' + 1),
        (readLoop slots bound h toRead left index out s).out.length ≤ 1024 * v' ∧
        (readLoop slots bound h toRead left index out s).state =
          s.setEntry h { s.openFileTable h with ofOffset := offset } ∧
        ((readLoop slots bound h toRead left index out s).out = out ∧
            offset = (s.openFileTable h).ofOffset ∨
          (s.openFileTable h).ofOffset + (readLoop slots bound h toRead left index out s).out.length ≤
            offset) := by
  have hstay : ∀ s : State, s = s.setEntry h
      { s.openFileTable h with ofOffset := (s.openFileTable h).ofOffset } := by
    intro s
    simp [State.setEntry]
  induction left with
  | zero =>
      intro index v out s hoff hout _
      exact ⟨v, le_rfl, _, hoff, hout, hstay s, Or.inl ⟨rfl, rfl⟩⟩
  | succ left ih =>
      intro index v out s hoff hout hv
      rw [readLoop]
      by_cases hr : out.length < toRead
      · rw [if_pos hr]
        rcases hget : dataBlockGet (slots.get s index) with _ | block
        · exact ⟨v, by omega, _, hoff, hout, hstay s, Or.inl ⟨rfl, rfl⟩⟩
        · have hfit := readInBlock_fit (s.openFileTable h).ofOffset (bound out.length)
          simp only
          generalize readInBlock (s.openFileTable h).ofOffset (bound out.length) = n at hfit ⊢
          -- the state and the bytes after the turn
          have hlen : (out ++ memread s.disk.fsData (block + (s.openFileTable h).ofOffset % blockSize)
              n).length = out.length + n := by
            rw [List.length_append, length_memread]
          generalize out ++ memread s.disk.fsData _ n = out₁ at hlen ⊢
          have hsum : sizeAdd (s.openFileTable h).ofOffset out₁.length =
              (s.openFileTable h).ofOffset + out₁.length := sizeAdd_of_lt (by omega)
          rw [hsum]
          rcases ih (index + 1) (v + 1) out₁ (s.setEntry h { s.openFileTable h with
              ofOffset := (s.openFileTable h).ofOffset + out₁.length })
              (by simp only [State.setEntry_openFileTable, Function.update_self]; omega)
              (by omega) (by omega) with ⟨v', hv', offset, hoff', hout', hstate, hgrow⟩
          simp only [State.setEntry_openFileTable, Function.update_self] at hgrow
          refine ⟨v', by omega, offset, hoff', hout', ?_, Or.inr ?_⟩
          · rw [hstate]
            simp [State.setEntry]
          · rcases hgrow with ⟨hsame, rfl⟩ | hgrow
            · rw [hsame]
            · omega
      · rw [if_neg hr]
        exact ⟨v, by omega, _, hoff, hout, hstay s, Or.inl ⟨rfl, rfl⟩⟩

/-- A read moves its handle and changes nothing else. -/
theorem readBlocks_moves {index : ℕ} {r : ℤ} {out : List Byte}
    (hoff : (s.openFileTable h).ofOffset ≤ 272384)
    (hr : readBlocks h i toRead index s = (r, out, t)) :
    ∃ offset ≤ 272384 * 267, t = s.setEntry h { s.openFileTable h with ofOffset := offset } := by
  unfold readBlocks at hr
  have hentries : indexEntries = 256 := rfl
  rcases readLoop_moves (h := h) (directSlots i) (fun read => toRead - read) toRead
      (directBlocksQuantity - index) index 0 [] s
      (by omega) (by simp) (by simp only [directBlocksQuantity]; omega) with
    ⟨v, hv, offset, hoff₁, hout₁, hstate₁, _⟩
  -- the turns of the first loop count against those of the second
  have hv₁ : v ≤ 10 := by
    simp only [directBlocksQuantity] at hv
    omega
  rcases hend : readLoop (directSlots i) (fun read => toRead - read) h toRead
      (directBlocksQuantity - index) index [] s with ⟨out₁, t₁⟩ | ⟨index₁, out₁, t₁⟩
  · rw [hend] at hr hstate₁
    cases hr
    exact ⟨offset, by omega, hstate₁⟩
  · rw [hend] at hr hstate₁ hout₁
    simp only [ReadEnd.state, ReadEnd.out] at hstate₁ hout₁
    rcases hget : dataBlockGet (t₁.inodeTable i).iIndexBlock with _ | a
    · simp only [hget] at hr
      cases hr
      exact ⟨offset, by omega, hstate₁⟩
    · simp only [hget] at hr
      rcases readLoop_moves (h := h) (indexSlots a) (fun _ => toRead) toRead
          (indexEntries - indirectIndex index₁) (indirectIndex index₁) v out₁ t₁
          (by simpa [hstate₁] using hoff₁) hout₁ (by omega) with
        ⟨v₂, hv₂, offset₂, hoff₂, _, hstate₂, _⟩
      refine ⟨offset₂, by omega, ?_⟩
      have ht : t = (readLoop (indexSlots a) (fun _ => toRead) h toRead
          (indexEntries - indirectIndex index₁) (indirectIndex index₁) out₁ t₁).state := by
        rcases hend₂ : readLoop (indexSlots a) (fun _ => toRead) h toRead
            (indexEntries - indirectIndex index₁) (indirectIndex index₁) out₁ t₁ with
          ⟨out₂, t₂⟩ | ⟨_, out₂, t₂⟩
        · rw [hend₂] at hr
          cases hr
          rfl
        · rw [hend₂] at hr
          cases hr
          rfl
      rw [ht, hstate₂, hstate₁]
      simp [State.setEntry]

/-- A loop that has read everything makes no turn. -/
theorem readLoop_of_le {slots : BlockSlots} {bound : ℕ → ℕ} {left index : ℕ} {out : List Byte}
    (hr : ¬ out.length < toRead) :
    readLoop slots bound h toRead left index out s = .done index out s := by
  cases left with
  | zero => rfl
  | succ left => rw [readLoop, if_neg hr]

theorem readBlocks_zero_of_index {index : ℕ} (hget : dataBlockGet (s.inodeTable i).iIndexBlock = some a) :
    readBlocks h i 0 index s = (0, [], s) := by
  have hnil : ¬ ([] : List Byte).length < 0 := by simp
  have hcast : castLong (([] : List Byte).length : ℕ) = 0 := by decide
  unfold readBlocks
  simp only [readLoop_of_le hnil, hget, hcast]

theorem readBlocks_zero {index : ℕ} (hlive : LiveFile s i) : readBlocks h i 0 index s = (0, [], s) := by
  rcases hlive.refers_index with ⟨a, _, ha, hindex, _⟩
  exact readBlocks_zero_of_index (by rw [hindex, dataBlockGet_natCast ha])

theorem readBlocks_far {index : ℕ} {r : ℤ} {out : List Byte} (hfar : 266 ≤ index)
    (hr : readBlocks h i toRead index s = (r, out, t)) : t = s := by
  rcases slotsLeft_of_le hfar with ⟨hdirect, hindirect⟩
  unfold readBlocks at hr
  simp only [hdirect, readLoop] at hr
  rcases hget : dataBlockGet (s.inodeTable i).iIndexBlock with _ | a
  · simp only [hget] at hr
    cases hr
    rfl
  · simp only [hget, hindirect, readLoop] at hr
    cases hr
    rfl

theorem Inv.moveHandle (hs : Inv s) {offset : ℕ} (hi : (s.openFileTable h).ofInumber = i)
    (hlive : LiveFile s i) (hpos : PositionOk s i offset) :
    Inv (s.setEntry h { s.openFileTable h with ofOffset := offset }) := by
  refine hs.of_handles (t := s.setEntry h _) rfl rfl rfl ?_
  intro g hg htaken
  by_cases hgh : g = h
  · subst hgh
    simpa [EntryOk, hi] using ⟨hlive, hpos⟩
  · simpa [hgh] using hs.handles g hg htaken

theorem clampOffset_eq : clampOffset h i s = s.setEntry h { s.openFileTable h with
    ofOffset := min (s.openFileTable h).ofOffset (s.inodeTable i).iSize } := by
  unfold clampOffset
  split
  · next hlt => rw [min_eq_right hlt.le]
  · next hge =>
      rw [min_eq_left (by omega)]
      simp [State.setEntry]

/-- A read first moves the handle back to the end of the file. -/
theorem tfsRead_eq (hs : Inv s) (hh : h < 20) (htaken : s.freeOpenFileEntries h = .taken)
    (hi : (s.openFileTable h).ofInumber = i) (len : ℕ) {offset : ℕ}
    (hoff : offset = min (s.openFileTable h).ofOffset (s.inodeTable i).iSize) :
    tfsRead h len s = some (readBlocks h i (readCount (s.inodeTable i).iSize offset len)
      (offset / 1024) (s.setEntry h { s.openFileTable h with ofOffset := offset })) := by
  rcases hs.handle_file ⟨h, hh, rfl, htaken⟩ with ⟨g, _, hg, _, j, hj, hlt, _, hpos⟩
  have hgh : g = h := by omega
  subst hgh
  have hij : j = i := by
    rw [hi] at hj
    omega
  subst hij
  have hbound : offset < 2 ^ 31 := by
    have := hpos.1
    omega
  unfold tfsRead
  simp only [getOpenFileEntry_natCast hh, hj, inodeGet_natCast hlt, clampOffset_eq, ← hoff,
    State.setEntry_openFileTable, State.setEntry_inodeTable, Function.update_self,
    blockIndex_of_lt hbound, Int.toNat_natCast]
  exact if_neg (by omega)

theorem Inv.tfsRead (hs : Inv s) {fhandle r : ℤ} {len : ℕ} {out : List Byte}
    (hopen : HandleOpen s fhandle) (hr : tfsRead fhandle len s = some (r, out, t)) : Inv t := by
  rcases hs.handle_file hopen with ⟨h, hh, rfl, htaken, i, hi, _, hlive, hpos⟩
  rw [tfsRead_eq hs hh htaken hi _ rfl, Option.some.injEq] at hr
  generalize hoff : min (s.openFileTable h).ofOffset (s.inodeTable i).iSize = offset at hr
  have hsizeOk := hs.sizes i hlive.1 hlive.2.1
  have hposOff : PositionOk s i offset := ⟨by have := hpos.1; omega, fun h0 => hpos.2 (by omega)⟩
  have hinv : Inv (s.setEntry h { s.openFileTable h with ofOffset := offset }) :=
    hs.moveHandle hi hlive hposOff
  by_cases hfar : 266 ≤ offset / 1024
  · rw [readBlocks_far hfar hr]
    exact hinv
  · by_cases hfirst : slotValue s (.direct i 0) = -1
    · -- the file is empty: nothing is read
      have hempty : (s.inodeTable i).iSize = 0 := by
        by_contra hne
        exact hsizeOk.2 (by omega) hfirst
      have hzero : offset = 0 := by omega
      have hcount : readCount (s.inodeTable i).iSize offset len = 0 := by
        rw [hempty, hzero, readCount, sizeSub_of_le le_rfl (by omega), if_neg (by omega)]
      rw [hcount, readBlocks_zero (by exact hlive)] at hr
      cases hr
      exact hinv
    · rcases readBlocks_moves (by simp only [State.setEntry_openFileTable, Function.update_self]; omega)
        hr with ⟨offset₂, hoff₂, rfl⟩
      exact hinv.moveHandle (by simpa using hi) hlive ⟨hoff₂, fun _ => hfirst⟩

/-! ## A read within one block -/

/-- The byte of file `i` at position `p`. -/
def byteAt (s : State) (i p : ℕ) : Byte :=
  s.disk.fsData ((slotValue s (fileSlot i (p / 1024))).toNat * 1024 + p % 1024)

theorem readInBlock_eq {o n bound : ℕ} (hb : bound = n) (hfit : o % 1024 + n ≤ 1024) :
    readInBlock o bound = n := by
  subst hb
  unfold readInBlock
  simp only [blockSize]
  split <;> omega

/-- The bytes of a file within one of its blocks. -/
theorem memread_eq_byteAt {o n b : ℕ} (hvalue : slotValue s (fileSlot i (o / 1024)) = b)
    (hfit : o % 1024 + n ≤ 1024) :
    memread s.disk.fsData (b * 1024 + o % 1024) n = (List.range n).map fun k => byteAt s i (o + k) := by
  apply List.map_congr_left
  intro k hk
  have hlt := List.mem_range.1 hk
  have hdiv : (o + k) / 1024 = o / 1024 := by omega
  have hmod : (o + k) % 1024 = o % 1024 + k := by omega
  rw [byteAt, hdiv, hvalue, hmod, Int.toNat_natCast, Nat.add_assoc]

/-- A turn of a read loop whose block exists. -/
theorem readLoop_succ_of_value (bound : ℕ → ℕ) (toRead left : ℕ) (out : List Byte)
    {slots : BlockSlots} {x : ℕ → Slot} {m k n o b : ℕ} (hrow : Row i a slots x m)
    (ha : (s.inodeTable i).iIndexBlock = a) (hx : x k = fileSlot i (o / 1024))
    (ho : (s.openFileTable h).ofOffset = o) (hr : out.length < toRead)
    (hn : readInBlock o (bound out.length) = n) (hfit : o % 1024 + n ≤ 1024)
    (hb : b < 1024) (hvalue : slotValue s (fileSlot i (o / 1024)) = b) :
    readLoop slots bound h toRead (left + 1) k out s =
      readLoop slots bound h toRead left (k + 1)
        (out ++ (List.range n).map fun j => byteAt s i (o + j))
        (s.setEntry h { s.openFileTable h with ofOffset := sizeAdd o (out.length + n) }) := by
  have hget : slots.get s k = b := by rw [hrow.get s k ha, hx, hvalue]
  have hbytes := memread_eq_byteAt hvalue hfit
  rw [readLoop, if_pos hr]
  simp only [hget, dataBlockGet_natCast hb, ho, hn, blockSize, hbytes, List.length_append,
    List.length_map, List.length_range]

/-- A read within one block is one turn of one of the loops. -/
theorem readBlocks_of_value {n o b : ℕ} (ha : a < 1024) (hindex : (s.inodeTable i).iIndexBlock = a)
    (ho : (s.openFileTable h).ofOffset = o) (hbound : o < 272384) (hn : 0 < n)
    (hfit : o % 1024 + n ≤ 1024) (hb : b < 1024) (hblock : slotValue s (fileSlot i (o / 1024)) = b) :
    readBlocks h i n (o / 1024) s = ((n : ℤ), (List.range n).map fun k => byteAt s i (o + k),
      s.setEntry h { s.openFileTable h with ofOffset := o + n }) := by
  have hget : dataBlockGet (s.inodeTable i).iIndexBlock = some (a * 1024) := by
    rw [hindex, dataBlockGet_natCast ha]
  have hcast : castLong n = n := castLong_of_range (by omega) (by omega)
  have hsum : sizeAdd o (0 + n) = o + n := by
    rw [Nat.zero_add]
    exact sizeAdd_of_lt (by omega)
  -- the bounds of the two loops differ, but not in their first turn
  have hturn : ∀ {slots : BlockSlots} {x : ℕ → Slot} {m k : ℕ} (bound : ℕ → ℕ) (left : ℕ),
      Row i a slots x m → x k = fileSlot i (o / 1024) → bound 0 = n →
      readLoop slots bound h n (left + 1) k [] s =
        .done (k + 1) ((List.range n).map fun j => byteAt s i (o + j))
          (s.setEntry h { s.openFileTable h with ofOffset := o + n }) := by
    intro slots x m k bound left hrow hx hb0
    rw [readLoop_succ_of_value _ _ _ _ hrow hindex hx ho (by simpa using hn)
      (readInBlock_eq (by simpa using hb0) hfit) hfit hb hblock]
    simp only [List.length_nil, hsum, List.nil_append]
    exact readLoop_of_le (by simp)
  by_cases hten : o / 1024 < 10
  · have hx : Slot.direct i (o / 1024) = fileSlot i (o / 1024) := by simp [fileSlot, hten]
    have hleft : directBlocksQuantity - o / 1024 = 10 - o / 1024 - 1 + 1 := by
      simp only [directBlocksQuantity]
      omega
    have hdone : ¬ ((List.range n).map fun j => byteAt s i (o + j)).length < n := by simp
    have hloop := hturn (fun read => n - read) (10 - o / 1024 - 1) (row_direct i a) hx
      (Nat.sub_zero n)
    rw [← hleft] at hloop
    unfold readBlocks
    simp only [hloop, State.setEntry_inodeTable, hget, readLoop_of_le hdone, List.length_map,
      List.length_range, hcast]
  · have hx : Slot.entry i (o / 1024 - 10) = fileSlot i (o / 1024) := by simp [fileSlot, hten]
    have hdirect : directBlocksQuantity - o / 1024 = 0 := directLeft_of_ge (by omega)
    have hindirect : indirectIndex (o / 1024) = o / 1024 - 10 := indirectIndex_of_ge (by omega)
    have hleft : indexEntries - (o / 1024 - 10) = 256 - (o / 1024 - 10) - 1 + 1 := by
      have hentries : indexEntries = 256 := rfl
      omega
    have hloop := hturn (fun _ => n) (256 - (o / 1024 - 10) - 1) (row_index i a) hx rfl
    rw [← hleft] at hloop
    have hnone : readLoop (directSlots i) (fun read => n - read) h n 0 (o / 1024) [] s =
        .done (o / 1024) [] s := rfl
    unfold readBlocks
    simp only [hdirect, hnone, hget, hindirect, hloop, List.length_map, List.length_range, hcast]

theorem readBlocks_one (hs : Inv s) (hlive : LiveFile s i) {n o : ℕ}
    (ho : (s.openFileTable h).ofOffset = o) (hbound : o < 272384) (hn : 0 < n)
    (hfit : o % 1024 + n ≤ 1024) (hvalue : slotValue s (fileSlot i (o / 1024)) ≠ -1) :
    readBlocks h i n (o / 1024) s = ((n : ℤ), (List.range n).map fun k => byteAt s i (o + k),
      s.setEntry h { s.openFileTable h with ofOffset := o + n }) := by
  rcases hlive.refers_index with ⟨a, _, ha, hindex, _⟩
  rcases (hs.valid _ (hs.isSlot_fileSlot hlive (k := o / 1024) (by omega))).resolve_left hvalue with
    ⟨b, hb, hblock⟩
  exact readBlocks_of_value ha hindex ho hbound hn hfit hb hblock

theorem Inv.tfsClose (hs : Inv s) (fhandle : ℤ) : Inv (tfsClose fhandle s).2 := by
  unfold Tfs.tfsClose removeFromOpenFileTable
  split
  · exact hs
  · refine hs.of_handles (t := s.markHandle _ .free) rfl rfl rfl ?_
    intro g hg htaken
    have hgh : g ≠ fhandle.toNat := by
      rintro rfl
      simp at htaken
    exact hs.handles g hg (by simpa [hgh] using htaken)

end Read

end Tfs
end TecnicoFs
