import Mathlib.Data.Finset.Card
import TecnicoFs.Tfs.Ownership

/-!
# Round trip — writing a file in pieces and reading it back

`tfs_write` and `tfs_read` advance the offset after each block by the number of bytes written or read so far
in the whole call, not in that block.  A call that stays within one block is right; one that goes on to a
second block leaves the offset too far.  The file below is followed byte by byte while the calls stay within
blocks (`Written`, `read_run`); two calls of 1025 bytes then show that nothing longer than a block survives
every way of cutting it.
-/

namespace TecnicoFs
namespace Tfs

open Lib

/-! ## Cutting a file into calls -/

/-- The writes of `D` in pieces of the given lengths. -/
def writeCalls (h : ℤ) : List Byte → List ℕ → List Call
  | _, [] => []
  | D, n :: ns => .write h (fun k => D.getD k 0) n :: writeCalls h (D.drop n) ns

def readCalls (g : ℤ) (ns : List ℕ) : List Call :=
  ns.map fun n => .read g n

/-- What the reads of a session delivered. -/
def delivered (replies : List Reply) : List Byte :=
  replies.flatMap Reply.data

/-- Create a file, write `D` to it in pieces, open it again and read it in pieces: the calls succeed, and
the reads deliver the prefix of `D` that was asked for. -/
def RoundTrip (s : State) (p q : CString) (flags again : ℤ) (D : List Byte) (ws rs : List ℕ) : Prop :=
  ∃ h s₁ written s₂ g s₃ replies s₄,
    tfsOpen (some p) flags s = some (h, s₁) ∧ 0 ≤ h ∧
    fileSystem.run (writeCalls h D ws) s₁ = some (written, s₂) ∧
    tfsOpen (some q) again s₂ = some (g, s₃) ∧ 0 ≤ g ∧
    fileSystem.run (readCalls g rs) s₃ = some (replies, s₄) ∧
    delivered replies = D.take (min D.length rs.sum)

/-- No call of the list goes from one block to the next, for calls that start at `offset` and stop at
`limit`. -/
def WithinBlocks (limit : ℕ) : ℕ → List ℕ → Prop
  | _, [] => True
  | offset, n :: ns => offset % blockSize + min n (limit - offset) ≤ blockSize ∧
      WithinBlocks limit (offset + min n (limit - offset)) ns

def freeBlockCount (d : Disk) : ℕ :=
  ((Finset.range dataBlocks).filter fun b => d.freeBlocks b = .free).card

/-- The blocks that `n` bytes need. -/
def blocksFor (n : ℕ) : ℕ :=
  (n + (blockSize - 1)) / blockSize

/-- There is room for a new file with contents `D` and two handles on it; `q` is the path under which the
file created with path `p` is found again. -/
structure Room (s : State) (p q : CString) (flags again : ℤ) (D : List Byte) : Prop where
  path : validPathname (some p) = true
  pathAgain : validPathname (some q) = true
  name : q.tail = cutName p.tail
  fresh : ∀ k < 23, EntryUsed s.disk.fsData 0 k → entryName s.disk.fsData 0 k ≠ cutName p.tail
  creat : hasFlag flags tfsOCreat = true
  plain : hasFlag again tfsOTrunc = false ∧ hasFlag again tfsOAppend = false
  inode : ∃ i < 50, s.freeinodeTs i = .free
  entry : ∃ k < 23, ¬ EntryUsed s.disk.fsData 0 k
  handles : ∃ h < 20, ∃ g < 20, h ≠ g ∧ s.freeOpenFileEntries h = .free ∧
    s.freeOpenFileEntries g = .free
  blocks : 1 + blocksFor D.length ≤ freeBlockCount s.disk

/-! ## Free blocks -/

section Blocks

variable {s t : State} {d : Disk} {b : ℕ}

theorem exists_free_of_count (h : 0 < freeBlockCount d) : ∃ b < 1024, d.freeBlocks b = .free := by
  rcases Finset.card_pos.1 h with ⟨b, hb⟩
  rcases Finset.mem_filter.1 hb with ⟨hrange, hfree⟩
  exact ⟨b, Finset.mem_range.1 hrange, hfree⟩

theorem freeBlockCount_pos (hb : b < 1024) (hfree : d.freeBlocks b = .free) : 0 < freeBlockCount d :=
  Finset.card_pos.2 ⟨b, Finset.mem_filter.2 ⟨Finset.mem_range.2 hb, hfree⟩⟩

/-- Taking a block uses one up. -/
theorem freeBlockCount_update {d' : Disk} (hb : b < 1024) (hfree : d.freeBlocks b = .free)
    (hEq : d'.freeBlocks = Function.update d.freeBlocks b .taken) :
    freeBlockCount d' + 1 = freeBlockCount d := by
  have hmem : b ∈ (Finset.range dataBlocks).filter fun b => d.freeBlocks b = .free := by
    simp [hfree, hb]
  have herase : ((Finset.range dataBlocks).filter fun b => d'.freeBlocks b = .free) =
      ((Finset.range dataBlocks).filter fun b => d.freeBlocks b = .free).erase b := by
    ext c
    by_cases hcb : c = b
    · subst hcb
      simp [hEq]
    · simp [hEq, hcb]
  have hpos := Finset.card_pos.2 ⟨b, hmem⟩
  unfold freeBlockCount
  rw [herase, Finset.card_erase_of_mem hmem]
  omega

theorem freeBlockCount_congr {d' : Disk} (hEq : d'.freeBlocks = d.freeBlocks) :
    freeBlockCount d' = freeBlockCount d := by
  unfold freeBlockCount
  rw [hEq]

/-- A turn uses up one block if its slot had none. -/
theorem SlotEffect.freeBlockCount_eq {x : Slot} (he : SlotEffect s x b t) :
    freeBlockCount t.disk + (if slotValue s x = -1 then 1 else 0) = freeBlockCount s.disk := by
  rcases he.block with ⟨hvalue, hblocks⟩ | ⟨hempty, hfree, hblocks⟩
  · rw [freeBlockCount_congr hblocks, if_neg (by omega), Nat.add_zero]
  · rw [if_pos hempty]
    exact freeBlockCount_update he.bound hfree hblocks

end Blocks

/-! ## Writing -/

section Write

variable {s t : State} {h i b o n j : ℕ} {src : ℕ → Byte} {D : List Byte}

/-- Byte `p` of the block of a slot. -/
def slotByte (s : State) (x : Slot) (p : ℕ) : Byte :=
  s.disk.fsData ((slotValue s x).toNat * 1024 + p)

/-- The bytes of the blocks after one turn of a write loop. -/
theorem Stored.slotByte_eq {x y : Slot} {offset p : ℕ} (hst : Stored s h x b o src n offset t)
    (hs : Inv s) (hx : IsSlot s x) (hxi : ∀ j, x ≠ .index j) (hy : IsSlot s y) (hyi : ∀ j, y ≠ .index j)
    (hp : p < 1024) (halloc : (y = x ∧ o ≤ p ∧ p < o + n) ∨ slotValue s y ≠ -1) :
    slotByte t y p = if y = x ∧ o ≤ p ∧ p < o + n then src (p - o) else slotByte s y p := by
  have hvalue := hst.value y hy
  unfold slotByte
  by_cases hyx : y = x
  · subst hyx
    -- the block written to is no index block
    have hnot : ∀ k, ¬ Refers s (.index k) b := by
      rcases hst.block with ⟨hold, _⟩ | ⟨_, hfree, _⟩
      · exact hs.not_refers_index ⟨hx, hold⟩ hxi
      · intro k hk
        have htaken := (hs.blocks.taken_of_refers hk).2
        simp [hfree] at htaken
    rw [if_pos rfl] at hvalue
    rw [hvalue, Int.toNat_natCast, hst.data b hnot p hp]
    by_cases hin : o ≤ p ∧ p < o + n
    · rw [if_pos ⟨rfl, hin⟩, if_pos ⟨rfl, hin⟩]
    · rw [if_neg (fun hc => hin hc.2), if_neg (fun hc => hin hc.2)]
      rcases hst.block with ⟨hold, _⟩ | ⟨hempty, _, _⟩
      · rw [hold, Int.toNat_natCast]
      · exact absurd hempty (halloc.resolve_left fun hc => hin hc.2)
  · have hold := halloc.resolve_left fun hc => hyx hc.1
    rcases (hs.valid _ hy).resolve_left hold with ⟨c, _, hc⟩
    have hrefers : Refers s y c := ⟨hy, hc⟩
    -- two slots never share a block, so the block of y is not the one written to
    have hcb : c ≠ b := by
      rintro rfl
      rcases hst.block with ⟨hsame, _⟩ | ⟨_, hfree, _⟩
      · exact hyx (hs.blocks.unique _ _ c hrefers ⟨hx, hsame⟩)
      · have htaken := (hs.blocks.taken_of_refers hrefers).2
        simp [hfree] at htaken
    rw [if_neg hyx, hc] at hvalue
    rw [if_neg (fun h => hyx h.1), hvalue, hc, Int.toNat_natCast,
      hst.data c (hs.not_refers_index hrefers hyi) p hp, if_neg (fun h => hcb h.1)]

/-- The bytes of a file after one turn of a write loop. -/
theorem Stored.byteAt_eq {offset : ℕ}
    (hst : Stored s h (fileSlot i (o / 1024)) b (o % 1024) src n offset t) (hs : Inv s)
    (hlive : LiveFile s i) (ho : o < 272384) (hfit : o % 1024 + n ≤ 1024) {p : ℕ} (hp : p < 272384)
    (halloc : (o ≤ p ∧ p < o + n) ∨ slotValue s (fileSlot i (p / 1024)) ≠ -1) :
    slotValue t (fileSlot i (p / 1024)) ≠ -1 ∧
      byteAt t i p = if o ≤ p ∧ p < o + n then src (p - o) else byteAt s i p := by
  have hx : IsSlot s (fileSlot i (o / 1024)) := hs.isSlot_fileSlot hlive (by omega)
  have hy : IsSlot s (fileSlot i (p / 1024)) := hs.isSlot_fileSlot hlive (by omega)
  -- the positions that were written are those of this block
  have hin : (fileSlot i (p / 1024) = fileSlot i (o / 1024) ∧ o % 1024 ≤ p % 1024 ∧
      p % 1024 < o % 1024 + n) ↔ o ≤ p ∧ p < o + n := by
    rw [fileSlot_inj]
    omega
  constructor
  · rw [hst.value _ hy]
    split
    · omega
    · next hne => exact halloc.resolve_left fun hc => hne (hin.2 hc).1
  · have hbyte := hst.slotByte_eq hs hx (fileSlot_ne_index i _) hy (fileSlot_ne_index i _)
      (p := p % 1024) (Nat.mod_lt _ (by omega)) (by rwa [hin])
    simp only [hin] at hbyte
    rw [show byteAt t i p = slotByte t (fileSlot i (p / 1024)) (p % 1024) from rfl, hbyte]
    split
    · congr 1
      omega
    · rfl

/-- The file `i` holds the first `j` bytes of `D`, and the handle `h` on it stands after them. -/
structure Written (s : State) (h i : ℕ) (D : List Byte) (j : ℕ) : Prop where
  inv : Inv s
  live : LiveFile s i
  handle : h < 20 ∧ s.freeOpenFileEntries h = .taken
  entry : s.openFileTable h = ⟨i, j, 0⟩
  size : (s.inodeTable i).iSize = j
  content : ∀ p < j, slotValue s (fileSlot i (p / 1024)) ≠ -1 ∧ byteAt s i p = D.getD p 0
  beyond : ∀ k < 266, j ≤ k * 1024 → slotValue s (fileSlot i k) = -1

theorem byteAt_growFile (p : ℕ) : byteAt (growFile h i s) i p = byteAt s i p := by
  unfold growFile
  split
  · simp [byteAt, slotValue_setSize]
  · rfl

theorem slotValue_growFile (x : Slot) : slotValue (growFile h i s) x = slotValue s x := by
  unfold growFile
  split
  · exact slotValue_setSize s i _ x
  · rfl

theorem growFile_disk : (growFile h i s).disk = s.disk := by
  unfold growFile
  split <;> rfl

theorem growFile_openFileTable : (growFile h i s).openFileTable = s.openFileTable := by
  unfold growFile
  split <;> rfl

theorem growFile_freeOpenFileEntries :
    (growFile h i s).freeOpenFileEntries = s.freeOpenFileEntries := by
  unfold growFile
  split <;> rfl

theorem sameNodes_growFile : SameNodes s (growFile h i s) := by
  unfold growFile
  split
  · exact sameNodes_setSize s i _
  · exact SameNodes.refl s

theorem growFile_iSize : ((growFile h i s).inodeTable i).iSize =
    max (s.inodeTable i).iSize (s.openFileTable h).ofOffset := by
  unfold growFile
  split
  · next hlt => simp [max_eq_right hlt.le]
  · next hge => exact (max_eq_left (by omega)).symm

theorem growFile_iSize_of_ne (hji : j ≠ i) :
    ((growFile h i s).inodeTable j).iSize = (s.inodeTable j).iSize := by
  unfold growFile
  split
  · rw [State.setInode_inodeTable, Function.update_of_ne hji]
  · rfl

/-- What a write leaves alone. -/
structure Keeps (s t : State) : Prop where
  dir : SameBlock s.disk.fsData t.disk.fsData 0
  freeOpenFileEntries : t.freeOpenFileEntries = s.freeOpenFileEntries

theorem Keeps.refl (s : State) : Keeps s s :=
  ⟨SameBlock.refl _ _, rfl⟩

theorem Keeps.trans {u : State} (h₁ : Keeps s t) (h₂ : Keeps t u) : Keeps s u :=
  ⟨h₁.dir.trans h₂.dir, h₂.freeOpenFileEntries.trans h₁.freeOpenFileEntries⟩

/-- A write of nothing changes nothing. -/
theorem Written.write_zero (hw : Written s h i D j) :
    tfsWrite h src 0 s = some (0, s) :=
  tfsWrite_zero hw.inv hw.handle.1 hw.handle.2 (by rw [hw.entry]) hw.live (by simp [hw.entry])
    (by rw [hw.entry, hw.size])

/-- A write within one block stores its bytes and uses up a block only at the start of one. -/
theorem Written.write (hw : Written s h i D j) (hn : 0 < n) (hfit : j % 1024 + n ≤ 1024)
    (hj : j < 272384) (hroom : j % 1024 = 0 → ∃ b < 1024, s.disk.freeBlocks b = .free) :
    ∃ t, tfsWrite h (fun k => D.getD (j + k) 0) n s = some ((n : ℤ), t) ∧ Written t h i D (j + n) ∧
      Keeps s t ∧ freeBlockCount s.disk ≤ freeBlockCount t.disk + (if j % 1024 = 0 then 1 else 0) := by
  -- a block that has bytes is not empty
  have hslot : slotValue s (fileSlot i (j / 1024)) ≠ -1 ∨ j % 1024 = 0 := by
    by_cases hmod : j % 1024 = 0
    · exact Or.inr hmod
    · have hprev := (hw.content (j - 1) (by omega)).1
      have hdiv : (j - 1) / 1024 = j / 1024 := by omega
      rw [hdiv] at hprev
      exact Or.inl hprev
  rcases writeBlocks_one (h := h) hw.inv hw.live
      (by rw [hw.entry]) hj hn hfit (hslot.imp id hroom) with ⟨b, t, hst, hwrite⟩
  have hx : IsSlot s (fileSlot i (j / 1024)) := hw.inv.isSlot_fileSlot hw.live (by omega)
  have hexec : tfsWrite h (fun k => D.getD (j + k) 0) n s = some ((n : ℤ), growFile h i t) := by
    rw [tfsWrite_eq hw.inv hw.handle.1 hw.handle.2 (by rw [hw.entry]) (by simp [hw.entry]) (by omega),
      hw.entry]
    exact congrArg some hwrite
  have hinv := hw.inv.tfsWrite ⟨h, hw.handle.1, rfl, hw.handle.2⟩ hexec
  have hentry : t.openFileTable h = ⟨i, j + n, 0⟩ := by simp [hst.openFileTable, hw.entry]
  refine ⟨growFile h i t, hexec, ?_, ?_, ?_⟩
  · constructor
    · exact hinv
    · exact sameNodes_growFile.liveFile_iff.2 (hst.nodes.liveFile_iff.2 hw.live)
    · rw [growFile_freeOpenFileEntries, hst.freeOpenFileEntries]
      exact hw.handle
    · rw [growFile_openFileTable, hentry]
    · rw [growFile_iSize, hst.sizes, hw.size, hentry]
      exact max_eq_right (Nat.le_add_right j n)
    · intro p hp
      rw [slotValue_growFile, byteAt_growFile]
      by_cases hpj : p < j
      · rcases hst.byteAt_eq hw.inv hw.live hj hfit (p := p) (by omega)
          (Or.inr (hw.content p hpj).1) with ⟨hne, hEq⟩
        refine ⟨hne, ?_⟩
        rw [hEq, if_neg (by omega)]
        exact (hw.content p hpj).2
      · rcases hst.byteAt_eq hw.inv hw.live hj hfit (p := p) (by omega)
          (Or.inl ⟨by omega, hp⟩) with ⟨hne, hEq⟩
        refine ⟨hne, ?_⟩
        have hpos : j + (p - j) = p := by omega
        rw [hEq, if_pos ⟨by omega, hp⟩, hpos]
    · intro k hk hle
      have hne : fileSlot i k ≠ fileSlot i (j / 1024) := by
        intro hEq
        have := fileSlot_inj.1 hEq
        omega
      rw [slotValue_growFile, hst.value _ (hw.inv.isSlot_fileSlot hw.live hk), if_neg hne]
      exact hw.beyond k hk (by omega)
  · refine ⟨?_, ?_⟩
    · rw [growFile_disk]
      exact hst.sameRoot hw.inv hx (fileSlot_ne_root hw.live.1 _)
    · rw [growFile_freeOpenFileEntries, hst.freeOpenFileEntries]
  · rw [growFile_disk]
    have hcount := hst.toSlotEffect.freeBlockCount_eq
    rcases hslot with hne | hmod
    · rw [if_neg hne] at hcount
      omega
    · rw [if_pos hmod]
      split at hcount <;> omega

/-- Writing a file in pieces that stay within blocks. -/
theorem Written.run_writes (hD : D.length ≤ 272384) (ws : List ℕ) :
    ∀ (j : ℕ) (s : State), Written s h i D j → j + ws.sum = D.length → WithinBlocks D.length j ws →
      blocksFor D.length ≤ freeBlockCount s.disk + blocksFor j →
      ∃ written t, fileSystem.run (writeCalls h (D.drop j) ws) s = some (written, t) ∧
        Written t h i D D.length ∧ Keeps s t := by
  induction ws with
  | nil =>
      intro j s hw hsum _ _
      have hEq : j = D.length := by simpa using hsum
      subst hEq
      exact ⟨[], s, rfl, hw, Keeps.refl s⟩
  | cons n ws ih =>
      intro j s hw hsum hwithin hroom
      rw [List.sum_cons] at hsum
      rcases hwithin with ⟨hfit, hrest⟩
      have hmin : min n (D.length - j) = n := by omega
      rw [hmin] at hfit hrest
      simp only [blockSize] at hfit
      have hpiece : (fun k => (D.drop j).getD k 0) = fun k => D.getD (j + k) 0 := by
        funext k
        simp [List.getD_eq_getElem?_getD]
      -- the first piece; it takes a block if it starts one
      have hturn : ∃ t, tfsWrite h (fun k => D.getD (j + k) 0) n s = some ((n : ℤ), t) ∧
          Written t h i D (j + n) ∧ Keeps s t ∧
          blocksFor D.length ≤ freeBlockCount t.disk + blocksFor (j + n) := by
        unfold blocksFor at hroom ⊢
        simp only [blockSize] at hroom ⊢
        rcases Nat.eq_zero_or_pos n with rfl | hn
        · exact ⟨s, hw.write_zero, hw, Keeps.refl s, hroom⟩
        · have hfree : j % 1024 = 0 → ∃ b < 1024, s.disk.freeBlocks b = .free := by
            intro hmod
            apply exists_free_of_count
            omega
          rcases hw.write hn hfit (by omega) hfree with ⟨t, hexec, hwt, hkeep, hcount⟩
          refine ⟨t, hexec, hwt, hkeep, ?_⟩
          split at hcount <;> omega
      rcases hturn with ⟨t, hexec, hwt, hkeep, hroomT⟩
      rcases ih (j + n) t hwt (by omega) hrest hroomT with ⟨written, u, hrun, hwu, hkeepU⟩
      have hdrop : (D.drop j).drop n = D.drop (j + n) := List.drop_drop
      refine ⟨⟨n, []⟩ :: written, u, ?_, hwu, hkeep.trans hkeepU⟩
      simp only [writeCalls, Machine.run, hpiece, hdrop]
      have hfirst : fileSystem.exec (.write h (fun k => D.getD (j + k) 0) n) s =
          some (⟨(n : ℤ), []⟩, t) := by
        simp only [fileSystem, exec, hexec, Option.map_some]
      rw [hfirst, Option.bind_some, hrun]
      rfl

end Write

/-! ## Reading -/

section Read

variable {s t : State} {g i N : ℕ}

theorem slotValue_setEntry (e : OpenFileEntry) (x : Slot) :
    slotValue (s.setEntry g e) x = slotValue s x := by
  cases x with
  | direct j k => rfl
  | index j => rfl
  | entry j k => rfl

theorem byteAt_setEntry (e : OpenFileEntry) (p : ℕ) : byteAt (s.setEntry g e) i p = byteAt s i p := by
  simp [byteAt, slotValue_setEntry]

/-- Two ranges of a file, one after the other. -/
theorem map_range_append (f : ℕ → Byte) (o n m : ℕ) :
    ((List.range n).map fun k => f (o + k)) ++ (List.range m).map (fun k => f (o + n + k)) =
      (List.range (n + m)).map fun k => f (o + k) := by
  simp [List.range_add, Nat.add_assoc]

/-- The handle `g` is open on file `i`, whose size is `N`. -/
structure Reading (s : State) (g i N offset : ℕ) : Prop where
  inv : Inv s
  live : LiveFile s i
  handle : g < 20 ∧ s.freeOpenFileEntries g = .taken
  inumber : (s.openFileTable g).ofInumber = i
  offset : (s.openFileTable g).ofOffset = offset
  size : (s.inodeTable i).iSize = N

/-- A read that stays within one block delivers its bytes. -/
theorem Reading.read {offset len o n : ℕ} (hr : Reading s g i N offset) (ho : o = min offset N)
    (hn : n = min len (N - o)) (hfit : o % 1024 + n ≤ 1024) (hbound : o + n ≤ 272384)
    (hblock : 0 < n → slotValue s (fileSlot i (o / 1024)) ≠ -1) :
    ∃ e t, tfsRead g len s = some ((n : ℤ), (List.range n).map (fun k => byteAt s i (o + k)), t) ∧
      t = s.setEntry g e ∧ Reading t g i N (o + n) := by
  have hsizeOk := (hr.inv.sizes i hr.live.1 hr.live.2.1).1
  rw [hr.size] at hsizeOk
  -- what tfs_read asks for, once the offset is brought back into the file
  have hcount : readCount N o len = n := by
    unfold readCount
    rw [sizeSub_of_le (by omega) (by omega)]
    split <;> omega
  have hoffset : o = min (s.openFileTable g).ofOffset (s.inodeTable i).iSize := by
    rw [hr.offset, hr.size, ho]
  have hexec := tfsRead_eq hr.inv hr.handle.1 hr.handle.2 hr.inumber len hoffset
  rw [hr.size, hcount] at hexec
  have hout : ∃ e, readBlocks g i n (o / 1024)
      (s.setEntry g { s.openFileTable g with ofOffset := o }) =
        ((n : ℤ), (List.range n).map (fun k => byteAt s i (o + k)), s.setEntry g e) ∧
      e = { s.openFileTable g with ofOffset := o + n } := by
    rcases Nat.eq_zero_or_pos n with rfl | hpos
    · refine ⟨_, ?_, rfl⟩
      rw [readBlocks_zero (by exact hr.live)]
      simp
    · have hinv : Inv (s.setEntry g { s.openFileTable g with ofOffset := o }) := by
        apply hr.inv.moveHandle hr.inumber hr.live
        refine ⟨by omega, ?_⟩
        intro _
        exact (hr.inv.sizes i hr.live.1 hr.live.2.1).2 (by rw [hr.size]; omega)
      -- at least one byte, all of it in one block: one turn of one of the loops
      have hone := readBlocks_one (h := g) (n := n) (o := o) hinv (by exact hr.live) (by simp)
        (by omega) hpos hfit (by rw [slotValue_setEntry]; exact hblock hpos)
      refine ⟨_, ?_, rfl⟩
      rw [hone]
      simp only [byteAt_setEntry]
      simp [State.setEntry]
  rcases hout with ⟨e, hblocks, he⟩
  rw [hblocks] at hexec
  refine ⟨e, _, hexec, rfl, ?_⟩
  have hinv := hr.inv.tfsRead ⟨g, hr.handle.1, rfl, hr.handle.2⟩ hexec
  exact ⟨hinv, hr.live, hr.handle, by simp [he, hr.inumber], by simp [he], hr.size⟩

/-- Reading a file in pieces that stay within blocks. -/
theorem Reading.run_reads (rs : List ℕ) :
    ∀ (offset o total : ℕ) (s : State), Reading s g i N offset → o = min offset N →
      total = min rs.sum (N - o) → WithinBlocks N o rs → o + total ≤ 272384 →
      (∀ p, o ≤ p → p < o + total → slotValue s (fileSlot i (p / 1024)) ≠ -1) →
      ∃ replies t, fileSystem.run (readCalls g rs) s = some (replies, t) ∧
        delivered replies = (List.range total).map fun k => byteAt s i (o + k) := by
  induction rs with
  | nil =>
      intro offset o total s _ _ htotal _ _ _
      have hzero : total = 0 := by simpa using htotal
      subst hzero
      exact ⟨[], s, rfl, rfl⟩
  | cons len rs ih =>
      intro offset o total s hr ho htotal hwithin hbound hblocks
      rw [List.sum_cons] at htotal
      rcases hwithin with ⟨hfit, hrest⟩
      generalize hn : min len (N - o) = n at hfit hrest
      simp only [blockSize] at hfit
      rcases hr.read ho hn.symm hfit (by omega) (fun hpos => hblocks o le_rfl (by omega)) with
        ⟨e, t, hexec, rfl, hr₁⟩
      rcases ih (o + n) (o + n) (total - n) (s.setEntry g e) hr₁ (by omega) (by omega) hrest (by omega)
          (fun p hlo hhi => by rw [slotValue_setEntry]; exact hblocks p (by omega) (by omega)) with
        ⟨replies, u, hrun, hdelivered⟩
      refine ⟨⟨n, (List.range n).map fun k => byteAt s i (o + k)⟩ :: replies, u, ?_, ?_⟩
      · have hfirst : fileSystem.exec (.read g len) s =
            some (⟨(n : ℤ), (List.range n).map fun k => byteAt s i (o + k)⟩, s.setEntry g e) := by
          simp only [fileSystem, exec, hexec, Option.map_some]
        unfold readCalls at hrun ⊢
        rw [List.map_cons, Machine.run, hfirst, Option.bind_some, hrun]
        rfl
      · -- the first piece and the rest are the bytes from `o` on
        have hsplit : n + (total - n) = total := by omega
        simp only [byteAt_setEntry] at hdelivered
        unfold delivered at hdelivered ⊢
        rw [List.flatMap_cons, hdelivered, map_range_append, hsplit]

end Read

/-! ## Opening the file twice -/

section Open

variable {s t : State} {p q : CString} {flags again : ℤ} {D : List Byte}

/-- A name in the directory is cut already. -/
theorem length_entryName_le {m : Memory} {k : ℕ} (ht : Terminated m 0) (hk : k < 23)
    (hused : EntryUsed m 0 k) : (entryName m 0 k).strlen ≤ 39 := by
  have hlt : (fieldBytes (dName m 0 k) 40).length < 40 :=
    length_fieldBytes_lt (by omega) (ht k hk hused)
  have hlen : (entryName m 0 k).strlen = (fieldBytes (dName m 0 k) 40).length := rfl
  omega

/-- The first open creates the file. -/
theorem Room.opened (hroom : Room s p q flags again D) (hs : Inv s) :
    ∃ (h i g : ℕ) (s₁ : State), tfsOpen (some p) flags s = some ((h : ℤ), s₁) ∧ Written s₁ h i D 0 ∧
      NamesFile s₁ q.tail i ∧ g < 20 ∧ s₁.freeOpenFileEntries g = .free ∧
      blocksFor D.length ≤ freeBlockCount s₁.disk := by
  -- the name is new, so the lookup fails and the file is created
  have hmiss : tfsLookup (some p) s = -1 := by
    rcases tfsLookup_cases hs (some p) with ⟨p', hp', _, k, hk, hused, hname, _⟩ | ⟨hEq, _⟩
    · have hlen := length_entryName_le hs.terminated hk hused
      rw [hname, ← Option.some.inj hp'] at hlen
      rw [← Option.some.inj hp', ← cutName_of_le hlen] at hname
      exact absurd hname (hroom.fresh k hk hused)
    · exact hEq
  have hblocks := hroom.blocks
  rcases tfsOpen_new hs hroom.path hroom.creat hmiss hroom.inode
      (exists_free_of_count (by omega)) hroom.entry
      (by rcases hroom.handles with ⟨h, hh, _, _, _, hfree, _⟩; exact ⟨h, hh, hfree⟩) with
    ⟨i, hi, hfree, b, hb, hfreeB, k, hk, _, h, hh, hfreeH, _, hopen⟩
  rcases hs.openedFile (k := k) (h := h) hi hfree hb hfreeB hk with ⟨hs₁, hlive⟩
  -- a handle is left for the second open
  have hother : ∃ g < 20, g ≠ h ∧ s.freeOpenFileEntries g = .free := by
    rcases hroom.handles with ⟨h₁, hh₁, h₂, hh₂, hne, hfree₁, hfree₂⟩
    by_cases hEq : h₁ = h
    · exact ⟨h₂, hh₂, by omega, hfree₂⟩
    · exact ⟨h₁, hh₁, hEq, hfree₁⟩
  rcases hother with ⟨g, hg, hgh, hfreeG⟩
  refine ⟨h, i, g, _, hopen, ?_, ?_, hg, ?_, ?_⟩
  · refine ⟨hs₁, hlive, ⟨hh, by simp [openedFile]⟩, by simp [openedFile], ?_, ?_, ?_⟩
    · simp [openedFile, namedFile, createdFile, preparedFile]
    · intro j hj
      omega
    · intro l hl _
      exact slotValue_openedFile hs hi hfree hb hfreeB hk hl
  · rw [hroom.name]
    exact namesFile_namedFile hs hi hfreeB hk hroom.fresh
  · simpa [openedFile, namedFile, createdFile, preparedFile, hgh] using hfreeG
  · have hcount : freeBlockCount (openedFile s i b k h p.tail).disk + 1 = freeBlockCount s.disk :=
      freeBlockCount_update hb hfreeB rfl
    omega

/-- The second open gives a handle that stands at the start of the file. -/
theorem tfsOpen_again {i g N : ℕ} (hs : Inv s) (hlive : LiveFile s i) (hsize : (s.inodeTable i).iSize = N)
    (hvalid : validPathname (some q) = true) (hname : NamesFile s q.tail i)
    (hplain : hasFlag again tfsOTrunc = false ∧ hasFlag again tfsOAppend = false) (hg : g < 20)
    (hfree : s.freeOpenFileEntries g = .free) :
    ∃ (g : ℕ) (t : State), tfsOpen (some q) again s = some ((g : ℤ), t) ∧ Reading t g i N 0 ∧
      t.disk = s.disk ∧ t.inodeTable = s.inodeTable := by
  have hlookup := hname.tfsLookup hs hvalid
  have hfound : (i : ℤ) ≥ 0 := by omega
  have htrunc : ¬ Truncates again i s := by
    rintro ⟨hflag, _⟩
    rw [hplain.1] at hflag
    exact Bool.false_ne_true hflag
  -- the scan may find an earlier entry than `g`
  rcases addToOpenFileTable_cases i 0 0 s with ⟨g', hg', _, _, hadd⟩ | ⟨hfull, _⟩
  · have hopen : tfsOpen (some q) again s =
        some ((g' : ℤ), (s.markHandle g' .taken).setEntry g' ⟨i, 0, 0⟩) := by
      unfold tfsOpen
      simp only [hvalid, Bool.not_true, Bool.false_eq_true, if_false, hlookup, hfound, if_true,
        openExisting_of_not_truncates hlive.2.1.1 htrunc, hplain.2, hadd]
    have hinv := hs.tfsOpen ?_ hopen
    · exact ⟨g', _, hopen, ⟨hinv, hlive, ⟨hg', by simp⟩, by simp, by simp, hsize⟩, rfl, rfl⟩
    · rintro ⟨j, hj, htr⟩
      have hij : j = i := by omega
      subst hij
      exact htrunc htr
  · simp [hfull g hg] at hfree

end Open

/-! ## Calls within blocks -/

section Within

variable {s : State} {p q : CString} {flags again : ℤ} {D : List Byte} {ws rs : List ℕ}

theorem map_getD_range {m : ℕ} (hm : m ≤ D.length) : (List.range m).map (fun k => D.getD k 0) = D.take m := by
  apply List.ext_getElem
  · simp [hm]
  · intro k hk _
    have hlt : k < m := by simpa using hk
    simp [List.getElem?_eq_getElem (show k < D.length by omega)]

/-- A file is read back as it was written when no call goes from one block to the next. -/
theorem roundTrip_of_withinBlocks (hs : Inv s) (hroom : Room s p q flags again D)
    (hD : D.length ≤ 272384) (hcut : ws.sum = D.length) (hws : WithinBlocks D.length 0 ws)
    (hrs : WithinBlocks D.length 0 rs) : RoundTrip s p q flags again D ws rs := by
  rcases hroom.opened hs with ⟨h, i, g, s₁, hopen, hw, hname, hg, hfree, hblocks⟩
  rcases hw.run_writes hD ws 0 s₁ (by omega) hws (by omega) with ⟨written, s₂, hrun, hw₂, hkeep⟩
  rcases tfsOpen_again hw₂.inv hw₂.live hw₂.size hroom.pathAgain (hname.congr hkeep.dir) hroom.plain hg
      (by rw [hkeep.freeOpenFileEntries]; exact hfree) with ⟨g, s₃, hagain, hr, hdisk, hinodes⟩
  -- the open for reading changes no slot and no byte
  have hvalue : ∀ x, slotValue s₃ x = slotValue s₂ x := by
    intro x
    cases x with
    | direct j k => simp only [slotValue, hinodes]
    | index j => simp only [slotValue, hinodes]
    | entry j k => simp only [slotValue, indexAddress, hinodes, hdisk]
  have hbytes : ∀ k, byteAt s₃ i k = byteAt s₂ i k := by
    intro k
    simp only [byteAt, hvalue, hdisk]
  rcases hr.run_reads rs 0 0 (min rs.sum D.length) s₃ (by omega) (by omega) hrs (by omega) (by
      intro k _ hk
      rw [hvalue]
      exact (hw₂.content k (by omega)).1) with ⟨replies, s₄, hreads, hdelivered⟩
  refine ⟨h, s₁, written, s₂, g, s₃, replies, s₄, hopen, by omega, hrun, hagain, by omega, hreads, ?_⟩
  have hcontent : ∀ k ∈ List.range (min rs.sum D.length), byteAt s₃ i (0 + k) = D.getD k 0 := by
    intro k hk
    have hlt := List.mem_range.1 hk
    rw [Nat.zero_add, hbytes]
    exact (hw₂.content k (by omega)).2
  rw [hdelivered, List.map_congr_left hcontent, map_getD_range (Nat.min_le_right _ _), Nat.min_comm]

/-- Within the first block every cutting is fine. -/
theorem withinBlocks_of_le {limit : ℕ} (hlimit : limit ≤ 1024) (ns : List ℕ) :
    ∀ offset, offset ≤ limit → WithinBlocks limit offset ns := by
  induction ns with
  | nil =>
      intro offset _
      trivial
  | cons n ns ih =>
      intro offset hle
      refine ⟨?_, ih _ (by omega)⟩
      simp only [blockSize]
      omega

/-- Single bytes never go from one block to the next. -/
theorem withinBlocks_replicate (limit m : ℕ) :
    ∀ offset, WithinBlocks limit offset (List.replicate m 1) := by
  induction m with
  | zero =>
      intro offset
      trivial
  | succ m ih =>
      intro offset
      refine ⟨?_, ih _⟩
      have hmod : offset % blockSize < blockSize := Nat.mod_lt _ (by decide)
      omega

end Within

/-! ## Calls of 1025 bytes -/

section TwoBlocks

variable {s : State} {h g i N : ℕ} {D : List Byte}

/-- While a block is free, a turn of a write loop stores bytes. -/
theorem writeLoop_succ_of_free {slots : BlockSlots} {x : ℕ → Slot} {a m index writen toWrite : ℕ}
    (left : ℕ) (buffer : ℕ → Byte) (hs : Inv s) (hrow : Row i a slots x m) (hi : LiveFile s i)
    (ha : (s.inodeTable i).iIndexBlock = a) (hk : index < m) (hw : writen < toWrite)
    (hfree : 0 < freeBlockCount s.disk) :
    ∃ n b t, n = writeInBlock (s.openFileTable h).ofOffset toWrite writen ∧
      Stored s h (x index) b ((s.openFileTable h).ofOffset % 1024) (fun k => buffer (writen + k)) n
        (sizeAdd (s.openFileTable h).ofOffset (writen + n)) t ∧
      writeLoop slots h buffer toWrite (left + 1) index writen s =
        writeLoop slots h buffer toWrite left (index + 1) (writen + n) t := by
  rcases writeLoop_succ_cases (h := h) left buffer hs hrow hi ha hk hw with ⟨hfull, _⟩ | hturn
  · rcases exists_free_of_count hfree with ⟨b, hb, hfree⟩
    simp [hfull b hb] at hfree
  · exact hturn

/-- A write of 1025 bytes at the start of a new file leaves the offset and the size at 2049. -/
theorem Written.write_1025 (hw : Written s h i D 0) (hroom : 2 ≤ freeBlockCount s.disk) :
    ∃ t, tfsWrite h (fun k => D.getD k 0) 1025 s = some (1025, t) ∧ Inv t ∧ LiveFile t i ∧
      (t.inodeTable i).iSize = 2049 ∧ Keeps s t ∧
      ∀ k < 2, slotValue t (fileSlot i k) ≠ -1 := by
  rcases hw.live.refers_index with ⟨a, _, _, hindex, _⟩
  have hrow := row_direct i a
  have hslot : IsSlot s (.direct i 0) := hw.live.isSlot_direct (by omega)
  have hone : sizeAdd 0 (0 + 1024) = 1024 := by decide
  have htwo : sizeAdd 1024 (0 + 1024 + 1) = 2049 := by decide
  -- the first turn fills block 0
  rcases writeLoop_succ_of_free (h := h) _ (fun k => D.getD k 0) hw.inv hrow hw.live hindex
      (by omega : 0 < 10) (by omega : 0 < 1025) (by omega) with ⟨n, b, t, hn, hst, hturn⟩
  have hn1024 : n = 1024 := by
    rw [hn, hw.entry]
    rfl
  subst hn1024
  rw [hw.entry] at hst
  simp only [hone] at hst
  have hvalue : slotValue t (.direct i 0) = b := (hst.refers_self hslot).2
  have hinv : Inv t := hst.inv hw.inv hslot (hrow.notRoot hw.live.1 0) (by rw [hw.entry]) hw.live
    ⟨by omega, fun _ => by omega⟩
  have hlive := hst.nodes.liveFile_iff.2 hw.live
  have hentry : t.openFileTable h = ⟨i, 1024, 0⟩ := by simp [hst.openFileTable, hw.entry]
  have hcount := hst.toSlotEffect.freeBlockCount_eq
  -- the second turn stores one byte and adds 1025 to the offset
  have hslot₁ : IsSlot t (.direct i 1) := hlive.isSlot_direct (by omega)
  have hpos : 0 < freeBlockCount t.disk := by
    split at hcount <;> omega
  rcases writeLoop_succ_of_free (h := h) _ (fun k => D.getD k 0) hinv hrow hlive
      ((hst.nodes.iIndexBlock i).trans hindex) (by omega : 1 < 10) (by omega : 0 + 1024 < 1025) hpos
    with ⟨n, c, u, hn, hst₁, hturn₁⟩
  have hn1 : n = 1 := by
    rw [hn, hentry]
    exact show writeInBlock 1024 1025 (0 + 1024) = 1 by decide
  subst hn1
  rw [hentry] at hst₁
  simp only [htwo] at hst₁
  have hlive₁ := hst₁.nodes.liveFile_iff.2 hlive
  have hentry₁ : u.openFileTable h = ⟨i, 2049, 0⟩ := by simp [hst₁.openFileTable, hentry]
  have hloop : writeLoop (directSlots i) h (fun k => D.getD k 0) 1025 (directBlocksQuantity - 0) 0 0 s =
      .done 2 1025 u := by
    have hleft : directBlocksQuantity - 0 = 9 + 1 := rfl
    rw [hleft, hturn, hturn₁]
    exact writeLoop_of_le (by omega)
  have hcast : castLong (1025 : ℕ) = 1025 := by decide
  have hexec : tfsWrite h (fun k => D.getD k 0) 1025 s = some (1025, growFile h i u) := by
    rw [tfsWrite_eq hw.inv hw.handle.1 hw.handle.2 (by rw [hw.entry]) (by simp [hw.entry]) (by omega),
      hw.entry, Nat.zero_div, writeBlocks_of_done hlive₁ hloop (by omega), hcast]
  refine ⟨growFile h i u, hexec, hw.inv.tfsWrite ⟨h, hw.handle.1, rfl, hw.handle.2⟩ hexec,
    sameNodes_growFile.liveFile_iff.2 hlive₁, ?_, ⟨?_, ?_⟩, ?_⟩
  · rw [growFile_iSize, hst₁.sizes, hst.sizes, hw.size, hentry₁]
    rfl
  · rw [growFile_disk]
    exact (hst.sameRoot hw.inv hslot (hrow.notRoot hw.live.1 0)).trans
      (hst₁.sameRoot hinv hslot₁ (hrow.notRoot hw.live.1 1))
  · rw [growFile_freeOpenFileEntries, hst₁.freeOpenFileEntries, hst.freeOpenFileEntries]
  · intro k hk
    rw [slotValue_growFile]
    have hk01 : k = 0 ∨ k = 1 := by omega
    rcases hk01 with rfl | rfl
    · have hkeep := hst₁.value _ (hlive.isSlot_direct (k := 0) (by omega))
      rw [if_neg (by simp), hvalue] at hkeep
      change slotValue u (.direct i 0) ≠ -1
      omega
    · have hnew := (hst₁.refers_self hslot₁).2
      change slotValue u (.direct i 1) ≠ -1
      omega

/-- A read of 1025 bytes at the start of a file leaves the offset at 2049. -/
theorem Reading.read_1025 (hr : Reading s g i N 0) (hN : 1025 ≤ N)
    (hblocks : ∀ k < 2, slotValue s (fileSlot i k) ≠ -1) :
    ∃ out e t, tfsRead g 1025 s = some (1025, out, t) ∧ out.length = 1025 ∧ t = s.setEntry g e ∧
      Reading t g i N 2049 := by
  have hsizeOk := (hr.inv.sizes i hr.live.1 hr.live.2.1).1
  rw [hr.size] at hsizeOk
  rcases hr.live.refers_index with ⟨a, _, ha, hindex, _⟩
  have hget : dataBlockGet (s.inodeTable i).iIndexBlock = some (a * 1024) := by
    rw [hindex, dataBlockGet_natCast ha]
  have hblock : ∀ k < 2, ∃ b : ℕ, b < 1024 ∧ slotValue s (fileSlot i k) = b := by
    intro k hk
    exact (hr.inv.valid _ (hr.inv.isSlot_fileSlot hr.live (by omega))).resolve_left (hblocks k hk)
  rcases hblock 0 (by omega) with ⟨b, hb, hvalue⟩
  rcases hblock 1 (by omega) with ⟨c, hc, hvalue₁⟩
  have hcount : readCount N 0 1025 = 1025 := by
    unfold readCount
    rw [sizeSub_of_le (by omega) (by omega)]
    split <;> omega
  have hone : sizeAdd 0 (0 + 1024) = 1024 := by decide
  have htwo : sizeAdd 1024 (1024 + 1) = 2049 := by decide
  have hstay : s.setEntry g { s.openFileTable g with ofOffset := 0 } = s := by
    have hzero := hr.offset
    rcases hentry : s.openFileTable g with ⟨inumber, offset, append⟩
    rw [hentry] at hzero
    simp only at hzero
    subst hzero
    rw [State.setEntry, ← hentry, Function.update_eq_self]
  have hoffset : 0 = min (s.openFileTable g).ofOffset (s.inodeTable i).iSize := by
    rw [hr.offset]
    omega
  have hexec := tfsRead_eq hr.inv hr.handle.1 hr.handle.2 hr.inumber 1025 hoffset
  rw [hr.size, hcount, Nat.zero_div, hstay] at hexec
  -- both turns are in the loop over the direct blocks
  have hfirst := readLoop_succ_of_value (fun read => 1025 - read) 1025 9 [] (h := g) (s := s) (k := 0)
    (o := 0) (n := 1024) (b := b) (row_direct i a) hindex rfl hr.offset (by simp)
        (by simp only [List.length_nil]; rfl) (by omega) hb hvalue
  simp only [List.length_nil, hone, List.nil_append] at hfirst
  have hlength : ((List.range 1024).map fun j => byteAt s i (0 + j)).length = 1024 := by simp
  generalize (List.range 1024).map (fun j => byteAt s i (0 + j)) = block₀ at hfirst hlength
  generalize hs₁ : s.setEntry g { s.openFileTable g with ofOffset := 1024 } = s₁ at hfirst
  have hoff₁ : (s₁.openFileTable g).ofOffset = 1024 := by simp [← hs₁]
  have hvalue₁' : slotValue s₁ (fileSlot i 1) = c := by
    rw [← hs₁, slotValue_setEntry]
    exact hvalue₁
  have hindex₁ : (s₁.inodeTable i).iIndexBlock = a := by
    rw [← hs₁]
    exact hindex
  have hsecond := readLoop_succ_of_value (fun read => 1025 - read) 1025 8 block₀ (h := g) (s := s₁)
    (k := 1) (o := 1024) (n := 1) (b := c) (row_direct i a) hindex₁ rfl hoff₁ (by omega)
        (by rw [hlength]; rfl) (by omega) hc hvalue₁'
  simp only [hlength, htwo] at hsecond
  have hlength₁ : (block₀ ++ (List.range 1).map fun j => byteAt s₁ i (1024 + j)).length = 1025 := by
    simp [hlength]
  generalize block₀ ++ (List.range 1).map (fun j => byteAt s₁ i (1024 + j)) = out at hsecond hlength₁
  have hloop : readLoop (directSlots i) (fun read => 1025 - read) g 1025 (directBlocksQuantity - 0) 0 [] s =
      .done 2 out (s₁.setEntry g { s₁.openFileTable g with ofOffset := 2049 }) := by
    have hleft : directBlocksQuantity - 0 = 9 + 1 := rfl
    rw [hleft, hfirst, hsecond]
    exact readLoop_of_le (by omega)
  have hget₁ : dataBlockGet ((s₁.setEntry g
      { s₁.openFileTable g with ofOffset := 2049 }).inodeTable i).iIndexBlock = some (a * 1024) := by
    rw [State.setEntry_inodeTable, hindex₁, dataBlockGet_natCast ha]
  have hcast : castLong (1025 : ℕ) = 1025 := by decide
  have hdone : ¬ out.length < 1025 := by omega
  have hblocksEq : readBlocks g i 1025 0 s =
      (1025, out, s₁.setEntry g { s₁.openFileTable g with ofOffset := 2049 }) := by
    unfold readBlocks
    simp only [hloop, hget₁, readLoop_of_le hdone, hlength₁, hcast]
  rw [hblocksEq] at hexec
  have hinv := hr.inv.tfsRead ⟨g, hr.handle.1, rfl, hr.handle.2⟩ hexec
  refine ⟨out, { s.openFileTable g with ofOffset := 2049 }, _, hexec, hlength₁, ?_, hinv, ?_, ?_, ?_, ?_, ?_⟩
  · simp [← hs₁, State.setEntry]
  · rw [← hs₁]
    exact hr.live
  · rw [← hs₁]
    exact hr.handle
  · simpa [← hs₁] using hr.inumber
  · simp
  · rw [← hs₁]
    exact hr.size

end TwoBlocks

/-! ## Which files survive every cutting -/

section Cuttings

variable {s : State} {p q : CString} {flags again : ℤ} {D : List Byte} {ws rs : List ℕ}

/-- The calls are deterministic: a round trip delivers what one run of them delivers. -/
theorem RoundTrip.delivered_eq (hrt : RoundTrip s p q flags again D ws rs) {h g : ℤ}
    {s₁ s₂ s₃ s₄ : State} {written replies : List Reply}
    (hopen : tfsOpen (some p) flags s = some (h, s₁))
    (hrun : fileSystem.run (writeCalls h D ws) s₁ = some (written, s₂))
    (hagain : tfsOpen (some q) again s₂ = some (g, s₃))
    (hreads : fileSystem.run (readCalls g rs) s₃ = some (replies, s₄)) :
    delivered replies = D.take (min D.length rs.sum) := by
  rcases hrt with ⟨h', s₁', written', s₂', g', s₃', replies', s₄', hopen', _, hrun', hagain', _, hreads',
    hdelivered⟩
  rw [hopen, Option.some.injEq, Prod.mk.injEq] at hopen'
  rcases hopen' with ⟨rfl, rfl⟩
  rw [hrun, Option.some.injEq, Prod.mk.injEq] at hrun'
  rcases hrun' with ⟨rfl, rfl⟩
  rw [hagain, Option.some.injEq, Prod.mk.injEq] at hagain'
  rcases hagain' with ⟨rfl, rfl⟩
  rw [hreads, Option.some.injEq, Prod.mk.injEq] at hreads'
  rcases hreads' with ⟨rfl, rfl⟩
  exact hdelivered

/-- 1025 bytes written by one call read back, byte by byte, as more than 1025. -/
theorem not_roundTrip_of_write_1025 (hs : Inv s) (hroom : Room s p q flags again D)
    (hD : D.length = 1025) :
    ¬ RoundTrip s p q flags again D [1025] (List.replicate 1026 1) := by
  intro hrt
  rcases hroom.opened hs with ⟨h, i, g, s₁, hopen, hw, hname, hg, hfree, hblocks⟩
  have htwo : 2 ≤ freeBlockCount s₁.disk := by
    have hneed : blocksFor D.length = 2 := by
      rw [hD]
      decide
    omega
  rcases hw.write_1025 htwo with ⟨s₂, hwrite, hs₂, hlive, hsize, hkeep, hvalues⟩
  rcases tfsOpen_again hs₂ hlive hsize hroom.pathAgain (hname.congr hkeep.dir) hroom.plain hg
      (by rw [hkeep.freeOpenFileEntries]; exact hfree) with ⟨g, s₃, hagain, hr, hdisk, hinodes⟩
  -- the open for reading leaves both blocks where they are
  have hvalue : ∀ k < 2, slotValue s₃ (fileSlot i k) ≠ -1 := by
    intro k hk
    have hdirect : fileSlot i k = .direct i k := by
      unfold fileSlot
      rw [if_pos (by omega)]
    have hne := hvalues k hk
    rw [hdirect] at hne ⊢
    simpa only [slotValue, hinodes] using hne
  have hsum : (List.replicate 1026 1).sum = 1026 := by
    rw [List.sum_replicate_nat, Nat.mul_one]
  rcases hr.run_reads (List.replicate 1026 1) 0 0 1026 s₃ (by omega) (by rw [hsum]; omega)
      (withinBlocks_replicate _ _ _) (by omega) (fun k _ hk => hvalue _ (by omega)) with
    ⟨replies, s₄, hreads, hdelivered⟩
  have hrun : fileSystem.run (writeCalls h D [1025]) s₁ = some ([⟨1025, []⟩], s₂) := by
    have hfirst : fileSystem.exec (.write h (fun k => D.getD k 0) 1025) s₁ = some (⟨1025, []⟩, s₂) := by
      simp only [fileSystem, exec, hwrite, Option.map_some]
    simp only [writeCalls, Machine.run, hfirst, Option.bind_some, Option.map_some]
  -- the reads deliver 1026 bytes, one more than was written
  have hlength := congrArg List.length (hrt.delivered_eq hopen hrun hagain hreads)
  rw [hdelivered, List.length_map, List.length_range, List.length_take] at hlength
  omega

/-- A file of more than 1025 bytes, written byte by byte, loses bytes after a read of 1025. -/
theorem not_roundTrip_of_read_1025 (hs : Inv s) (hroom : Room s p q flags again D)
    (hlong : 1025 < D.length) (hD : D.length ≤ 272384) :
    ¬ RoundTrip s p q flags again D (List.replicate D.length 1)
      (1025 :: List.replicate D.length 1) := by
  intro hrt
  rcases hroom.opened hs with ⟨h, i, g, s₁, hopen, hw, hname, hg, hfree, hblocks⟩
  rcases hw.run_writes hD (List.replicate D.length 1) 0 s₁ (by simp) (withinBlocks_replicate _ _ _)
      (by omega) with ⟨written, s₂, hrun, hw₂, hkeep⟩
  rcases tfsOpen_again hw₂.inv hw₂.live hw₂.size hroom.pathAgain (hname.congr hkeep.dir) hroom.plain hg
      (by rw [hkeep.freeOpenFileEntries]; exact hfree) with ⟨g, s₃, hagain, hr, hdisk, hinodes⟩
  have hvalue : ∀ x, slotValue s₃ x = slotValue s₂ x := by
    intro x
    cases x with
    | direct j k => simp only [slotValue, hinodes]
    | index j => simp only [slotValue, hinodes]
    | entry j k => simp only [slotValue, indexAddress, hinodes, hdisk]
  have hblocks₃ : ∀ k < D.length, slotValue s₃ (fileSlot i (k / 1024)) ≠ -1 := by
    intro k hk
    rw [hvalue]
    exact (hw₂.content k hk).1
  rcases hr.read_1025 (by omega) (by
      intro k hk
      have hblock := hblocks₃ (k * 1024) (by omega)
      rwa [Nat.mul_div_cancel k (by omega)] at hblock) with ⟨out, e, s₄, hread, hlength, rfl, hr₄⟩
  -- what is left behind offset 2049 is less than what was left to read
  rcases hr₄.run_reads (List.replicate D.length 1) 2049 (min 2049 D.length)
      (min D.length (D.length - min 2049 D.length)) (s₃.setEntry g e) rfl (by simp)
      (withinBlocks_replicate _ _ _) (by omega)
      (fun k _ hk => by rw [slotValue_setEntry]; exact hblocks₃ k (by omega)) with
    ⟨replies, s₅, hreads, hdelivered⟩
  have hall : fileSystem.run (readCalls g (1025 :: List.replicate D.length 1)) s₃ =
      some (⟨1025, out⟩ :: replies, s₅) := by
    have hfirst : fileSystem.exec (.read g 1025) s₃ = some (⟨1025, out⟩, s₃.setEntry g e) := by
      simp only [fileSystem, exec, hread, Option.map_some]
    unfold readCalls at hreads ⊢
    rw [List.map_cons, Machine.run, hfirst, Option.bind_some, hreads]
    rfl
  have htotal := congrArg List.length (hrt.delivered_eq hopen hrun hagain hall)
  unfold delivered at htotal hdelivered
  rw [List.flatMap_cons, hdelivered, List.length_append, List.length_map, List.length_range,
    List.length_take, List.sum_cons, List.sum_replicate_nat] at htotal
  simp only [hlength, Nat.mul_one] at htotal
  omega

/-- After a run that truncates no file but empty ones, a byte string survives every way of cutting it
exactly when it fits in one block; a longer one survives the cuttings that stay within blocks. -/
theorem roundTrip_iff_one_block {hist : List (State × Call)} (he : properCalls.Execution hist s)
    (hC : System.EachStep (fun s a => ¬ TruncatesFile s a) hist)
    (hroom : Room s p q flags again D) (hD : D.length ≤ 272384) :
    ((∀ ws rs : List ℕ, ws.sum = D.length → RoundTrip s p q flags again D ws rs) ↔
        D.length ≤ blockSize) ∧
      ∀ ws rs : List ℕ, ws.sum = D.length → WithinBlocks D.length 0 ws →
        WithinBlocks D.length 0 rs → RoundTrip s p q flags again D ws rs := by
  have hs := (inv_of_execution he hC).1
  refine ⟨⟨?_, ?_⟩, ?_⟩
  · intro hall
    by_contra hlong
    have hsize : blockSize = 1024 := rfl
    rcases Nat.lt_or_ge 1025 D.length with hlt | hge
    · exact not_roundTrip_of_read_1025 hs hroom hlt hD (hall _ _ (by simp))
    · exact not_roundTrip_of_write_1025 hs hroom (by omega) (hall _ _ (by simp; omega))
  · intro hshort ws rs hcut
    exact roundTrip_of_withinBlocks hs hroom hD hcut (withinBlocks_of_le hshort ws 0 (by omega))
      (withinBlocks_of_le hshort rs 0 (by omega))
  · intro ws rs hcut hws hrs
    exact roundTrip_of_withinBlocks hs hroom hD hcut hws hrs

/-- `tfs_init` leaves room for any byte string of at most 272384 bytes. -/
theorem room_tfsInit {D : List Byte} (hD : D.length ≤ 272384) :
    Room tfsInit.2 slashA slashA tfsOCreat 0 D := by
  rcases tfsInit_room with ⟨hinode, hblocks, hhandles⟩
  have hunused := not_entryUsed_tfsInit
  have hcount : freeBlockCount tfsInit.2.disk = 1023 := by
    have herase : ((Finset.range dataBlocks).filter fun b => tfsInit.2.disk.freeBlocks b = .free) =
        (Finset.range dataBlocks).erase 0 := by
      ext b
      simp [hblocks, and_comm]
    unfold freeBlockCount
    rw [herase, Finset.card_erase_of_mem (by simp), Finset.card_range]
    rfl
  refine ⟨by decide, by decide, (cutName_of_le (by decide)).symm, ?_, by decide, by decide, hinode, ?_, ?_, ?_⟩
  · intro k hk hused
    exact absurd hused (hunused k hk)
  · exact ⟨0, by omega, hunused 0 (by omega)⟩
  · exact ⟨0, by omega, 1, by omega, by omega, hhandles 0, hhandles 1⟩
  · rw [hcount, blocksFor]
    simp only [blockSize]
    omega

instance (s : State) (p q : CString) (flags again : ℤ) (D : List Byte) :
    Decidable (Room s p q flags again D) :=
  decidable_of_iff ((validPathname (some p) = true ∧ validPathname (some q) = true ∧ q.tail = cutName p.tail) ∧
      (∀ k < 23, EntryUsed s.disk.fsData 0 k → entryName s.disk.fsData 0 k ≠ cutName p.tail) ∧
      (hasFlag flags tfsOCreat = true ∧ hasFlag again tfsOTrunc = false ∧ hasFlag again tfsOAppend = false) ∧
      (∃ i < 50, s.freeinodeTs i = .free) ∧ (∃ k < 23, ¬ EntryUsed s.disk.fsData 0 k) ∧
      (∃ h < 20, ∃ g < 20, h ≠ g ∧ s.freeOpenFileEntries h = .free ∧ s.freeOpenFileEntries g = .free) ∧
      1 + blocksFor D.length ≤ freeBlockCount s.disk)
    ⟨fun ⟨⟨hp, hq, hname⟩, hfresh, ⟨hcreat, hplain⟩, hinode, hentry, hhandles, hblocks⟩ =>
      ⟨hp, hq, hname, hfresh, hcreat, hplain, hinode, hentry, hhandles, hblocks⟩,
      fun hr => ⟨⟨hr.path, hr.pathAgain, hr.name⟩, hr.fresh, ⟨hr.creat, hr.plain⟩, hr.inode, hr.entry,
        hr.handles, hr.blocks⟩⟩

theorem performAll_truncateEmpty_room :
    (System.performAll (fileSystem.record OnOpenHandle) truncateEmpty ([], tfsInit.2)).any
      (fun x => System.EachStep (fun s a => ¬ TruncatesFile s a) x.1 ∧
        Room x.2 (slash 0x63 (by decide)) (slash 0x63 (by decide)) tfsOCreat 0 [1, 2, 3]) = true := by
  rw [tfsInit_eq]
  decide +kernel

/-- Three bytes for a new file beside `/a` and `/b`. -/
theorem roundTrip_iff_one_block_truncateEmpty : ∃ hist s, properCalls.Execution hist s ∧
    hist.map Prod.snd = truncateEmpty.reverse ∧
    RoundTrip s (slash 0x63 (by decide)) (slash 0x63 (by decide)) tfsOCreat 0 [1, 2, 3] [2, 1] [1, 5] := by
  rcases Machine.execution_of_any performAll_truncateEmpty_room with ⟨hist, s, he, hlabels, hC, hroom⟩
  have h := roundTrip_iff_one_block he hC hroom (by decide)
  exact ⟨hist, s, he, hlabels, h.1.2 (by decide) _ _ rfl⟩

/-- A file of 1025 bytes, written by one call and read byte by byte. -/
theorem roundTrip_fails_1025 :
    Room tfsInit.2 slashA slashA tfsOCreat 0 (List.replicate 1025 0x41) ∧
      ¬ RoundTrip tfsInit.2 slashA slashA tfsOCreat 0 (List.replicate 1025 0x41) [1025]
        (List.replicate 1026 1) := by
  have hroom : Room tfsInit.2 slashA slashA tfsOCreat 0 (List.replicate 1025 0x41) :=
    room_tfsInit (by rw [List.length_replicate]; omega)
  exact ⟨hroom, not_roundTrip_of_write_1025 inv_tfsInit hroom List.length_replicate⟩

end Cuttings

end Tfs
end TecnicoFs
