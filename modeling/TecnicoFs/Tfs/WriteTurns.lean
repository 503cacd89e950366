import Mathlib.Logic.Function.Iterate
import TecnicoFs.Tfs.ReadLaw

/-!
# Write turns — a whole `tfs_write`, block by block

The two loops of `tfs_write` are one loop over the 266 blocks of a file.  After `j` turns that all found a
block, the counters `writen` and `of_offset` depend only on where the write started and how long it is:
`progress` computes them, with the slip that each turn adds the running total to the offset.  `AfterTurns`
says what the file holds then, and the run lemma how many turns there are.
-/

namespace TecnicoFs
namespace Tfs

open Lib

/-! ## One loop over the blocks of a file -/

/-- Block `k` of file `i`, in `i_data_block` or in the index block at address `a`. -/
def fileSlots (i a : ℕ) : BlockSlots where
  get s k := if k < directBlocksQuantity then (directSlots i).get s k
    else (indexSlots a).get s (k - directBlocksQuantity)
  set s k b := if k < directBlocksQuantity then (directSlots i).set s k b
    else (indexSlots a).set s (k - directBlocksQuantity) b

/-- How `tfs_write` ends: the size is stored only if no block was missing. -/
def WriteEnd.finish (h i : ℕ) : WriteEnd → ℤ × State
  | .noBlock writen s => (castLong writen, s)
  | .done _ writen s => (castLong writen, growFile h i s)

section OneLoop

variable {s : State} {h i a N : ℕ} {buffer : ℕ → Byte} {slots : BlockSlots}

theorem row_file (i a : ℕ) : Row i a (fileSlots i (a * 1024)) (fileSlot i) 266 where
  isSlot _ _ hs hi hk := hs.isSlot_fileSlot hi hk
  notIndex := fileSlot_ne_index i
  notRoot := fileSlot_ne_root
  get := by
    intro s k ha
    unfold fileSlots fileSlot
    by_cases hk : k < 10
    · simp only [directBlocksQuantity, hk, if_true]
      exact (row_direct i a).get s k ha
    · simp only [directBlocksQuantity, hk, if_false]
      exact (row_index i a).get s (k - 10) ha
  set := by
    intro s k b ha
    unfold fileSlots fileSlot
    by_cases hk : k < 10
    · simp only [directBlocksQuantity, hk, if_true]
      exact (row_direct i a).set s k b ha
    · simp only [directBlocksQuantity, hk, if_false]
      exact (row_index i a).set s (k - 10) b ha

/-- A loop in two parts. -/
theorem writeLoop_add (left₂ left₁ : ℕ) : ∀ (index writen : ℕ) (s : State),
    writeLoop slots h buffer N (left₁ + left₂) index writen s =
      match writeLoop slots h buffer N left₁ index writen s with
      | .noBlock writen t => .noBlock writen t
      | .done index writen t => writeLoop slots h buffer N left₂ index writen t := by
  induction left₁ with
  | zero =>
      intro index writen s
      simp only [writeLoop, Nat.zero_add]
  | succ left₁ ih =>
      intro index writen s
      rw [Nat.succ_add]
      by_cases hw : writen < N
      · simp only [writeLoop, if_pos hw]
        rcases dataBlockGet (slots.get (allocSlot slots index s) index) with _ | block
        · rfl
        · exact ih _ _ _
      · simp only [writeLoop, if_neg hw]
        exact (writeLoop_of_le hw).symm

/-- On the first ten blocks the loop is that over `i_data_block`. -/
theorem writeLoop_fileSlots_direct (left : ℕ) : ∀ (index writen : ℕ) (s : State), index + left ≤ 10 →
    writeLoop (fileSlots i a) h buffer N left index writen s =
      writeLoop (directSlots i) h buffer N left index writen s := by
  induction left with
  | zero =>
      intro index writen s _
      rfl
  | succ left ih =>
      intro index writen s hle
      have hten : index < directBlocksQuantity := by
        simp only [directBlocksQuantity]
        omega
      have hget : ∀ t, (fileSlots i a).get t index = (directSlots i).get t index :=
        fun t => if_pos hten
      have halloc : allocSlot (fileSlots i a) index s = allocSlot (directSlots i) index s := by
        simp only [allocSlot, fileSlots, if_pos hten]
      simp only [writeLoop, halloc, hget]
      split
      · rcases dataBlockGet ((directSlots i).get (allocSlot (directSlots i) index s) index) with _ | block
        · rfl
        · exact ih _ _ _ (by omega)
      · rfl

/-- Behind them it is that over the entries of the index block, ten less. -/
theorem writeLoop_fileSlots_index (left : ℕ) : ∀ (index writen : ℕ) (s : State),
    (writeLoop (fileSlots i a) h buffer N left (index + 10) writen s).finish h i =
      (writeLoop (indexSlots a) h buffer N left index writen s).finish h i := by
  induction left with
  | zero =>
      intro index writen s
      rfl
  | succ left ih =>
      intro index writen s
      -- from slot 10 on the file's slots are those of the index block
      have hten : ¬ index + 10 < directBlocksQuantity := by
        simp only [directBlocksQuantity]
        omega
      have hback : index + 10 - directBlocksQuantity = index := by
        simp only [directBlocksQuantity]
        omega
      have hget : ∀ t, (fileSlots i a).get t (index + 10) = (indexSlots a).get t index := by
        intro t
        simp only [fileSlots, if_neg hten, hback]
      have halloc : allocSlot (fileSlots i a) (index + 10) s = allocSlot (indexSlots a) index s := by
        simp only [allocSlot, fileSlots, if_neg hten, hback]
      simp only [writeLoop, halloc, hget]
      split
      · rcases dataBlockGet ((indexSlots a).get (allocSlot (indexSlots a) index s) index) with _ | block
        · rfl
        · have hnext := ih (index + 1)
          rw [show index + 1 + 10 = index + 10 + 1 by omega] at hnext
          exact hnext _ _
      · rfl

/-- A loop that stops before everything is written has used all its slots. -/
theorem writeLoop_done_index (left : ℕ) : ∀ (index writen : ℕ) (s : State) {index' writen' : ℕ} {t : State},
    writeLoop slots h buffer N left index writen s = .done index' writen' t → writen' < N →
      index' = index + left := by
  induction left with
  | zero =>
      intro index writen s index' writen' t hEq _
      cases hEq
      rfl
  | succ left ih =>
      intro index writen s index' writen' t hEq hlt
      rw [writeLoop] at hEq
      split at hEq
      · rcases hget : dataBlockGet (slots.get (allocSlot slots index s) index) with _ | block
        · simp only [hget] at hEq
          cases hEq
        · simp only [hget] at hEq
          have hnext := ih _ _ _ hEq hlt
          omega
      · next hge =>
          cases hEq
          exact absurd hlt hge

/-- The two loops of `tfs_write` are one. -/
theorem writeBlocks_eq (ha : a < 1024) (hindex : (s.inodeTable i).iIndexBlock = a) {index : ℕ}
    (hoff : index < 10 → (s.openFileTable h).ofOffset ≤ 272384) :
    writeBlocks h i buffer N index s =
      (writeLoop (fileSlots i (a * 1024)) h buffer N (266 - index) index 0 s).finish h i := by
  have hentries : indexEntries = 256 := rfl
  have hget : dataBlockGet (s.inodeTable i).iIndexBlock = some (a * 1024) := by
    rw [hindex, dataBlockGet_natCast ha]
  have hfinish : ∀ e : WriteEnd, (match e with
      | .noBlock writen s => (castLong writen, s)
      | .done _ writen s =>
          let offset := (s.openFileTable h).ofOffset
          if (s.inodeTable i).iSize < offset then
            (castLong writen, s.setInode i { s.inodeTable i with iSize := offset })
          else
            (castLong writen, s)) = e.finish h i := by
    intro e
    rcases e with ⟨w, t⟩ | ⟨k, w, t⟩
    · rfl
    · exact growFile_eq _
  unfold writeBlocks
  by_cases hten : index < 10
  · -- the direct slots, and after them the 256 entries of the index block
    have hsplit : 266 - index = directBlocksQuantity - index + 256 := by
      simp only [directBlocksQuantity]
      omega
    have hfit : index + (directBlocksQuantity - index) ≤ 10 := by
      simp only [directBlocksQuantity]
      omega
    rw [hsplit, writeLoop_add, writeLoop_fileSlots_direct _ _ _ _ hfit]
    rcases writeLoop_moves (h := h) buffer N (fun s k => moved_allocSlot_direct h i k s)
        (directBlocksQuantity - index) index 0 0 s (by have := hoff hten; omega) (by omega)
        (by simp only [directBlocksQuantity]; omega) with ⟨_, _, _, _, _, hmoved⟩
    rcases hloop : writeLoop (directSlots i) h buffer N (directBlocksQuantity - index) index 0 s with
      ⟨w, t⟩ | ⟨index₁, w, t⟩
    · rfl
    · rw [hloop] at hmoved
      have hget₁ : dataBlockGet (t.inodeTable i).iIndexBlock = some (a * 1024) := by
        rw [show (t.inodeTable i).iIndexBlock = (s.inodeTable i).iIndexBlock from hmoved.iIndexBlock i]
        exact hget
      simp only [hget₁]
      refine (hfinish _).trans ?_
      by_cases hw : w < N
      · -- bytes are left, so the first loop has passed all its slots
        have hlast := writeLoop_done_index _ _ _ _ hloop hw
        have hindex₁ : index₁ = 0 + 10 := by
          simp only [directBlocksQuantity] at hlast
          omega
        subst hindex₁
        rw [writeLoop_fileSlots_index]
        rfl
      · rw [writeLoop_of_le hw, writeLoop_of_le hw]
        rfl
  · -- the write starts in the index block
    have hdirect : directBlocksQuantity - index = 0 := directLeft_of_ge (by omega)
    have hindirect : indirectIndex index = index - 10 := indirectIndex_of_ge (by omega)
    have hleft : indexEntries - (index - 10) = 266 - index := by omega
    simp only [hdirect, writeLoop, hget, hindirect, hleft]
    refine (hfinish _).trans ?_
    rw [← writeLoop_fileSlots_index, show index - 10 + 10 = index by omega]

end OneLoop

/-! ## The counters -/

/-- The counters of a write: the bytes written so far and the offset of the handle. -/
structure Counters where
  writen : ℕ
  ofOffset : ℕ

/-- The counters after one more turn of a write of `N` bytes. -/
def Counters.turn (N : ℕ) (c : Counters) : Counters :=
  ⟨c.writen + writeInBlock c.ofOffset N c.writen,
    c.ofOffset + (c.writen + writeInBlock c.ofOffset N c.writen)⟩

/-- The counters after `j` turns of a write of `N` bytes that starts at offset `o`. -/
def progress (o N j : ℕ) : Counters :=
  (Counters.turn N)^[j] ⟨0, o⟩

/-- The bytes that the turn after the first `j` stores. -/
def turnLength (o N j : ℕ) : ℕ :=
  writeInBlock (progress o N j).ofOffset N (progress o N j).writen

section Counters

variable {o N n j l : ℕ}

theorem writeInBlock_eq_min (offset toWrite writen : ℕ) :
    writeInBlock offset toWrite writen = min (1024 - offset % 1024) (toWrite - writen) := by
  unfold writeInBlock
  simp only [blockSize]
  split <;> omega

@[simp] theorem progress_zero (o N : ℕ) : progress o N 0 = ⟨0, o⟩ :=
  rfl

theorem progress_succ (o N j : ℕ) : progress o N (j + 1) =
    ⟨(progress o N j).writen + turnLength o N j,
      (progress o N j).ofOffset + ((progress o N j).writen + turnLength o N j)⟩ :=
  Function.iterate_succ_apply' _ _ _

theorem turnLength_fit (o N j : ℕ) : (progress o N j).ofOffset % 1024 + turnLength o N j ≤ 1024 :=
  writeInBlock_fit _ _ _

theorem progress_writen_le (o N j : ℕ) : (progress o N j).writen ≤ N := by
  induction j with
  | zero => simp
  | succ j ih =>
      have hle : turnLength o N j ≤ N - (progress o N j).writen := by
        rw [turnLength, writeInBlock_eq_min]
        exact min_le_right _ _
      rw [progress_succ]
      simp only
      omega

theorem turnLength_pos (h : (progress o N j).writen < N) : 0 < turnLength o N j := by
  have hmod : (progress o N j).ofOffset % 1024 < 1024 := Nat.mod_lt _ (by omega)
  rw [turnLength, writeInBlock_eq_min]
  omega

theorem progress_writen_mono (o N : ℕ) : Monotone fun j => (progress o N j).writen := by
  apply monotone_nat_of_le_succ
  intro j
  rw [progress_succ]
  exact Nat.le_add_right _ _

/-- The first turn. -/
theorem progress_one (o N : ℕ) : (progress o N 1).writen = min (1024 - o % 1024) N := by
  rw [show (1 : ℕ) = 0 + 1 from rfl, progress_succ, turnLength, writeInBlock_eq_min]
  simp

theorem progress_ofOffset_mono (o N : ℕ) : Monotone fun j => (progress o N j).ofOffset := by
  apply monotone_nat_of_le_succ
  intro j
  rw [progress_succ]
  exact Nat.le_add_right _ _

theorem add_writen_le_ofOffset (o N j : ℕ) : o + (progress o N j).writen ≤ (progress o N j).ofOffset := by
  have hstart : o ≤ (progress o N j).ofOffset := progress_ofOffset_mono o N (Nat.zero_le j)
  rcases j with _ | j
  · exact le_rfl
  · have hbefore : o ≤ (progress o N j).ofOffset := progress_ofOffset_mono o N (Nat.zero_le j)
    rw [progress_succ]
    exact Nat.add_le_add_right hbefore _

/-- After two turns or more the offset is past the bytes written, by those of the first turn at least. -/
theorem progress_ofOffset_ge (o N j : ℕ) : o + (progress o N 1).writen + (progress o N (j + 2)).writen ≤
    (progress o N (j + 2)).ofOffset := by
  induction j with
  | zero =>
      rw [progress_succ o N 1]
      have hone : (progress o N 1).ofOffset = o + (progress o N 1).writen := by
        rw [show (1 : ℕ) = 0 + 1 from rfl, progress_succ]
        simp
      simp only [hone]
      omega
  | succ j ih =>
      rw [progress_succ o N (j + 2)]
      simp only
      omega

/-- A turn that is not the last one fills its block. -/
theorem turnLength_of_lt (h : (progress o N (j + 1)).writen < N) :
    turnLength o N j = 1024 - (progress o N j).ofOffset % 1024 := by
  rw [progress_succ] at h
  simp only at h
  have hmin : turnLength o N j = min (1024 - (progress o N j).ofOffset % 1024)
      (N - (progress o N j).writen) := writeInBlock_eq_min _ _ _
  omega

/-- A write of the bytes that some turns stored goes through the same turns. -/
theorem progress_of_writen (hn : (progress o N j).writen = n) : ∀ l ≤ j, progress o n l = progress o N l := by
  intro l
  induction l with
  | zero => simp
  | succ l ih =>
      intro hl
      have hsame := ih (by omega)
      have hle : (progress o N (l + 1)).writen ≤ n := by
        rw [← hn]
        exact progress_writen_mono o N hl
      have hN := progress_writen_le o N j
      have hlen : turnLength o n l = turnLength o N l := by
        rw [progress_succ] at hle
        simp only at hle
        rw [turnLength, turnLength, hsame, writeInBlock_eq_min, writeInBlock_eq_min]
        rw [turnLength, writeInBlock_eq_min] at hle
        omega
      rw [progress_succ, progress_succ, hsame, hlen]

end Counters

/-! ## What the file holds after some turns -/

/-- How many of the `j` blocks of file `i` from block `k` on are missing. -/
def missingBlocks (s : State) (i k : ℕ) : ℕ → ℕ
  | 0 => 0
  | j + 1 => missingBlocks s i k j + if slotValue s (fileSlot i (k + j)) = -1 then 1 else 0

/-- `s` comes from `s₀` by `j` turns of a write of `N` bytes to file `i` from offset `o` on. -/
structure AfterTurns (s₀ : State) (h i a o N : ℕ) (buffer : ℕ → Byte) (j : ℕ) (s : State) : Prop where
  head : AtHead h i a N j (fileSlot i (o / 1024 + j)) (progress o N j).writen s
  nodes : SameNodes s₀ s
  sizes : ∀ k, (s.inodeTable k).iSize = (s₀.inodeTable k).iSize
  openFileTable : s.openFileTable = Function.update s₀.openFileTable h
    { s₀.openFileTable h with ofOffset := (progress o N j).ofOffset }
  freeOpenFileEntries : s.freeOpenFileEntries = s₀.freeOpenFileEntries
  /-- The bytes of each turn are in the block of that turn. -/
  placed : ∀ l < j, slotValue s (fileSlot i (o / 1024 + l)) ≠ -1 ∧ ∀ q < turnLength o N l,
    slotByte s (fileSlot i (o / 1024 + l)) ((progress o N l).ofOffset % 1024 + q) =
      buffer ((progress o N l).writen + q)
  /-- The blocks that were there stay, with all bytes that no turn stored. -/
  kept : ∀ y, IsSlot s₀ y → (∀ k, y ≠ .index k) → slotValue s₀ y ≠ -1 →
    slotValue s y = slotValue s₀ y ∧ ∀ p < 1024, (∀ l < j, y = fileSlot i (o / 1024 + l) →
      ¬ ((progress o N l).ofOffset % 1024 ≤ p ∧
        p < (progress o N l).ofOffset % 1024 + turnLength o N l)) → slotByte s y p = slotByte s₀ y p
  others : ∀ y, IsSlot s₀ y → (∀ l < j, y ≠ fileSlot i (o / 1024 + l)) → slotValue s y = slotValue s₀ y
  blocks : freeBlockCount s.disk + missingBlocks s₀ i (o / 1024) j = freeBlockCount s₀.disk

section Turns

variable {s₀ s t : State} {h i a o N j b : ℕ} {buffer : ℕ → Byte}

theorem AfterTurns.ofOffset (hs : AfterTurns s₀ h i a o N buffer j s) :
    (s.openFileTable h).ofOffset = (progress o N j).ofOffset := by
  rw [hs.openFileTable, Function.update_self]

theorem afterTurns_zero (hs : Inv s) (hh : h < 20) (htaken : s.freeOpenFileEntries h = .taken)
    (hnum : (s.openFileTable h).ofInumber = i) (hlive : LiveFile s i)
    (ha : (s.inodeTable i).iIndexBlock = a) (ho : (s.openFileTable h).ofOffset = o)
    (hfar : o < 272384) : AfterTurns s h i a o N buffer 0 s where
  head := by
    refine ⟨hs, ⟨hh, htaken⟩, hnum, hlive, ha, by omega, by simp, ?_⟩
    intro _
    -- an offset behind the first block means that the first block is there
    by_cases hzero : o / 1024 = 0
    · left
      simp [hzero, fileSlot]
    · right
      rcases hs.handles h hh htaken with ⟨k, hk, _, hpos⟩
      have hki : k = i := by
        rw [hnum] at hk
        omega
      subst hki
      exact hpos.2 (by omega)
  nodes := SameNodes.refl s
  sizes _ := rfl
  openFileTable := by
    simp only [progress_zero, ← ho]
    exact (Function.update_eq_self _ _).symm
  freeOpenFileEntries := rfl
  placed l hl := absurd hl (by omega)
  kept _ _ _ _ := ⟨rfl, fun _ _ _ => rfl⟩
  others _ _ _ := rfl
  blocks := by rw [missingBlocks, Nat.add_zero]

/-- One more turn. -/
theorem AfterTurns.next (hs : AfterTurns s₀ h i a o N buffer j s) (hw : (progress o N j).writen < N)
    (hk : o / 1024 + j < 266) (hj : j < 266)
    (hst : Stored s h (fileSlot i (o / 1024 + j)) b ((s.openFileTable h).ofOffset % 1024)
      (fun k => buffer ((progress o N j).writen + k)) (turnLength o N j)
      (sizeAdd (s.openFileTable h).ofOffset ((progress o N j).writen + turnLength o N j)) t) :
    AfterTurns s₀ h i a o N buffer (j + 1) t := by
  have hoff := hs.ofOffset
  have hinv := hs.head.inv
  have hslot : ∀ l < 266, IsSlot s (fileSlot i l) := fun l hl => hinv.isSlot_fileSlot hs.head.live hl
  have hfit := turnLength_fit o N j
  have hsum : sizeAdd (s.openFileTable h).ofOffset ((progress o N j).writen + turnLength o N j) =
      (progress o N (j + 1)).ofOffset := by
    have hbound := hs.head.offset_le
    have hwriten := hs.head.writen_le
    rw [sizeAdd_of_lt (by omega), hoff, progress_succ]
  -- the turns are in different blocks
  have hne : ∀ l < j, fileSlot i (o / 1024 + l) ≠ fileSlot i (o / 1024 + j) := by
    intro l hl hEq
    have := fileSlot_inj.1 hEq
    omega
  have hvalue : ∀ y, IsSlot s y → y ≠ fileSlot i (o / 1024 + j) → slotValue t y = slotValue s y := by
    intro y hy hyx
    rw [hst.value y hy, if_neg hyx]
  have hbyte : ∀ y p, IsSlot s y → (∀ k, y ≠ .index k) → slotValue s y ≠ -1 → p < 1024 →
      ¬ (y = fileSlot i (o / 1024 + j) ∧ (progress o N j).ofOffset % 1024 ≤ p ∧
        p < (progress o N j).ofOffset % 1024 + turnLength o N j) → slotByte t y p = slotByte s y p := by
    intro y p hy hyi hold hp hout
    rw [hst.slotByte_eq hinv (hslot _ hk) (fileSlot_ne_index i _) hy hyi hp (Or.inr hold), hoff,
      if_neg hout]
  constructor
  · have hhead := hs.head.stored (z := fileSlot i (o / 1024 + (j + 1))) hw hj (hslot _ hk)
      (fileSlot_ne_root hs.head.live.1 _) (by omega) rfl hst
    rw [progress_succ]
    exact hhead
  · exact hs.nodes.trans hst.nodes
  · intro k
    rw [hst.sizes, hs.sizes]
  · rw [hst.openFileTable, hsum, hs.openFileTable, Function.update_idem, Function.update_self]
  · exact hst.freeOpenFileEntries.trans hs.freeOpenFileEntries
  · intro l hl
    by_cases hlj : l = j
    · subst hlj
      refine ⟨by rw [hst.value _ (hslot _ hk), if_pos rfl]; omega, ?_⟩
      intro q hq
      have hin : fileSlot i (o / 1024 + l) = fileSlot i (o / 1024 + l) ∧
          (s.openFileTable h).ofOffset % 1024 ≤ (progress o N l).ofOffset % 1024 + q ∧
          (progress o N l).ofOffset % 1024 + q <
            (s.openFileTable h).ofOffset % 1024 + turnLength o N l := by
        rw [hoff]
        exact ⟨rfl, by omega, by omega⟩
      rw [hst.slotByte_eq hinv (hslot _ hk) (fileSlot_ne_index i _) (hslot _ hk)
        (fileSlot_ne_index i _) (by omega) (Or.inl hin), if_pos hin, hoff]
      congr 1
      omega
    · have hold := hs.placed l (by omega)
      have hfitL := turnLength_fit o N l
      refine ⟨by rw [hvalue _ (hslot _ (by omega)) (hne l (by omega))]; exact hold.1, ?_⟩
      intro q hq
      rw [hbyte _ _ (hslot _ (by omega)) (fileSlot_ne_index i _) hold.1 (by omega)
        (fun hc => hne l (by omega) hc.1)]
      exact hold.2 q hq
  · intro y hy hyi hold
    have hy₁ := (hs.nodes.isSlot_iff y).2 hy
    rcases hs.kept y hy hyi hold with ⟨hsame, hbytes⟩
    have hsome : slotValue s y ≠ -1 := by
      rw [hsame]
      exact hold
    refine ⟨?_, ?_⟩
    · rw [hst.value y hy₁]
      split
      · next hyx =>
          rcases hst.block with ⟨hb, _⟩ | ⟨hempty, _⟩
          · rw [← hsame, hyx, hb]
          · exact absurd (hyx ▸ hempty) hsome
      · exact hsame
    · intro p hp hout
      rw [hbyte y p hy₁ hyi hsome hp (fun hc => hout j (by omega) hc.1 hc.2)]
      exact hbytes p hp fun l hl => hout l (by omega)
  · intro y hy hout
    rw [hvalue y ((hs.nodes.isSlot_iff y).2 hy) (hout j (by omega))]
    exact hs.others y hy fun l hl => hout l (by omega)
  · have hcount := hst.toSlotEffect.freeBlockCount_eq
    have hblocks := hs.blocks
    have hsame : slotValue s (fileSlot i (o / 1024 + j)) = slotValue s₀ (fileSlot i (o / 1024 + j)) := by
      apply hs.others _ ((hs.nodes.isSlot_iff _).1 (hslot _ hk))
      exact fun l hl => Ne.symm (hne l hl)
    rw [hsame] at hcount
    rw [missingBlocks]
    omega

/-- The turn after the first `J` finds no block: there is none, and none is free. -/
structure OutOfBlocks (s : State) (i o N J : ℕ) : Prop where
  more : (progress o N J).writen < N
  block : o / 1024 + J < 266
  missing : slotValue s (fileSlot i (o / 1024 + J)) = -1
  used : freeBlockCount s.disk = missingBlocks s i (o / 1024) J

/-- There is no turn after the first `J`. -/
def Complete (o N J : ℕ) : Prop :=
  N ≤ (progress o N J).writen ∨ 266 ≤ o / 1024 + J

/-- The turns of a whole loop, by induction on the blocks that are left. -/
theorem AfterTurns.run (left : ℕ) : ∀ (j : ℕ) (s : State), AfterTurns s₀ h i a o N buffer j s →
    (∀ l < j, (progress o N l).writen < N) → o / 1024 + j + left = 266 →
    ∃ J t, AfterTurns s₀ h i a o N buffer J t ∧ (∀ l < J, (progress o N l).writen < N) ∧
      o / 1024 + J ≤ 266 ∧
      (OutOfBlocks s₀ i o N J ∧ writeLoop (fileSlots i (a * 1024)) h buffer N left (o / 1024 + j)
          (progress o N j).writen s = .noBlock (progress o N J).writen t ∨
        Complete o N J ∧ ∃ k, writeLoop (fileSlots i (a * 1024)) h buffer N left (o / 1024 + j)
          (progress o N j).writen s = .done k (progress o N J).writen t) := by
  induction left with
  | zero =>
      intro j s hs hbefore hleft
      exact ⟨j, s, hs, hbefore, by omega, Or.inr ⟨Or.inr (by omega), _, rfl⟩⟩
  | succ left ih =>
      intro j s hs hbefore hleft
      by_cases hw : (progress o N j).writen < N
      · have hk : o / 1024 + j < 266 := by omega
        rcases writeLoop_succ_cases (h := h) left buffer hs.head.inv (row_file i a) hs.head.live
            hs.head.index hk hw with ⟨hfull, hempty, hEq⟩ | ⟨n, b, t, hn, hst, hEq⟩
        · -- no block for this turn: the file had none there, and the turns before took all free ones
          refine ⟨j, s, hs, hbefore, by omega, Or.inl ⟨⟨hw, hk, ?_, ?_⟩, hEq⟩⟩
          · rw [← hempty]
            apply (hs.others _ ?_ ?_).symm
            · exact (hs.nodes.isSlot_iff _).1 (hs.head.inv.isSlot_fileSlot hs.head.live hk)
            · intro l hl hEq
              have := fileSlot_inj.1 hEq
              omega
          · have hnone : freeBlockCount s.disk = 0 := by
              by_contra hpos
              rcases exists_free_of_count (Nat.pos_of_ne_zero hpos) with ⟨b, hb, hfree⟩
              simp [hfull b hb] at hfree
            have hblocks := hs.blocks
            omega
        · -- one more turn, and the hypothesis for the rest of the loop
          have hlen : n = turnLength o N j := by
            rw [hn, hs.ofOffset]
            rfl
          subst hlen
          have hnext := hs.next hw hk (by omega) hst
          have hbefore₁ : ∀ l < j + 1, (progress o N l).writen < N := by
            intro l hl
            by_cases hlj : l = j
            · rw [hlj]
              exact hw
            · exact hbefore l (by omega)
          rcases ih (j + 1) t hnext hbefore₁ (by omega) with ⟨J, u, hu, hall, hJ, hcases⟩
          refine ⟨J, u, hu, hall, hJ, ?_⟩
          rw [hEq]
          rw [progress_succ] at hcases
          exact hcases
      · exact ⟨j, s, hs, hbefore, by omega, Or.inr ⟨Or.inl (by omega), _, writeLoop_of_le hw⟩⟩

theorem missingBlocks_congr (hvalue : ∀ x, slotValue t x = slotValue s x) (i k j : ℕ) :
    missingBlocks t i k j = missingBlocks s i k j := by
  induction j with
  | zero => rfl
  | succ j ih => rw [missingBlocks, missingBlocks, ih, hvalue]

theorem slotByte_setEntry {g : ℕ} (e : OpenFileEntry) (x : Slot) (p : ℕ) :
    slotByte (s.setEntry g e) x p = slotByte s x p := by
  unfold slotByte
  rw [slotValue_setEntry]
  rfl

/-- The seek to the end of the file before the first turn does not matter. -/
theorem AfterTurns.of_setEntry {p : ℕ}
    (hs : AfterTurns (s.setEntry h { s.openFileTable h with ofOffset := p }) h i a o N buffer j t) :
    AfterTurns s h i a o N buffer j t where
  head := hs.head
  nodes := ⟨hs.nodes.freeinodeTs, hs.nodes.iNodeType, hs.nodes.iIndexBlock⟩
  sizes := hs.sizes
  openFileTable := by
    rw [hs.openFileTable]
    simp
  freeOpenFileEntries := hs.freeOpenFileEntries
  placed := hs.placed
  kept y hy hyi hold := by
    have hkeep := hs.kept y hy hyi (by rw [slotValue_setEntry]; exact hold)
    simp only [slotValue_setEntry, slotByte_setEntry] at hkeep
    exact hkeep
  others y hy hout := by
    rw [hs.others y hy hout, slotValue_setEntry]
  blocks := by
    rw [← missingBlocks_congr (fun x => slotValue_setEntry _ x) i (o / 1024) j]
    exact hs.blocks

/-- The turns of a `tfs_write` that starts within the 266 blocks of a file. -/
theorem tfsWrite_turns (hs : Inv s) (hshape : Shape s) (hh : h < 20)
    (htaken : s.freeOpenFileEntries h = .taken) (hnum : (s.openFileTable h).ofInumber = i)
    (hlive : LiveFile s i) (ha : a < 1024) (hindex : (s.inodeTable i).iIndexBlock = a)
    (buffer : ℕ → Byte) (hN : 0 ≤ castInt N) (ho : startPosition s h = o) (hfar : o < 272384) :
    ∃ J t, AfterTurns s h i a o N buffer J t ∧ (∀ l < J, (progress o N l).writen < N) ∧
      o / 1024 + J ≤ 266 ∧
      (OutOfBlocks s i o N J ∧ tfsWrite h buffer N s = some (((progress o N J).writen : ℤ), t) ∨
        Complete o N J ∧
          tfsWrite h buffer N s = some (((progress o N J).writen : ℤ), growFile h i t)) := by
  rcases hshape.startsAt hh buffer hN with ⟨k, hk, hEq⟩
  have hki : k = i := by
    rw [hnum] at hk
    omega
  subst hki
  have hseek := (hs.seekForAppend hh htaken hnum hlive).1
  rw [seekForAppend_eq hnum, ho] at hseek
  rw [hEq, ho]
  generalize hu : s.setEntry h { s.openFileTable h with ofOffset := o } = u at hseek
  have hoff : (u.openFileTable h).ofOffset = o := by simp [← hu]
  have hnode : u.inodeTable = s.inodeTable := by
    rw [← hu]
    rfl
  rw [writeBlocks_eq ha (by rw [hnode]; exact hindex) (fun _ => by omega)]
  -- the turns start after the seek, which `of_setEntry` takes back at the end
  have hstart : AfterTurns u h k a o N buffer 0 u := by
    apply afterTurns_zero hseek hh ?_ ?_ ?_ (by rw [hnode]; exact hindex) hoff hfar
    · rw [← hu]
      exact htaken
    · simpa [← hu] using hnum
    · rw [← hu]
      exact hlive
  rcases hstart.run (266 - o / 1024) 0 u (fun l hl => absurd hl (by omega)) (by omega) with
    ⟨J, t, ht, hall, hJ, hcases⟩
  have hcast : castLong (progress o N J).writen = (progress o N J).writen := by
    have := ht.head.writen_le
    exact castLong_of_range (by omega) (by omega)
  have hmissing := missingBlocks_congr (t := u) (s := s)
    (fun x => by rw [← hu, slotValue_setEntry]) k (o / 1024) J
  refine ⟨J, t, ?_, hall, hJ, ?_⟩
  · rw [← hu] at ht
    exact ht.of_setEntry
  · simp only [Nat.add_zero, progress_zero] at hcases
    rcases hcases with ⟨hout, hloop⟩ | ⟨hdone, _, hloop⟩
    · left
      refine ⟨⟨hout.more, hout.block, ?_, ?_⟩, ?_⟩
      · rw [← hout.missing, ← hu, slotValue_setEntry]
      · rw [← hmissing, ← hout.used, ← hu]
        rfl
      · rw [show o / blockSize = o / 1024 from rfl, hloop, WriteEnd.finish, hcast]
    · right
      refine ⟨hdone, ?_⟩
      rw [show o / blockSize = o / 1024 from rfl, hloop, WriteEnd.finish, hcast]

end Turns

end Tfs
end TecnicoFs
