import TecnicoFs.Tfs.Invariant

/-!
# Write loop — what one turn stores, and what a whole loop keeps

Both loops of `tfs_write` are one definition, run over the direct slots of a file or over the entries of its
index block.  `Row` says which slot an index stands for.  A turn of the loop is described by `Stored`: the
slot refers to a block, old or new, the bytes are in that block, and the offset of the handle grew.  The
run lemma goes by induction on the number of turns.
-/

namespace TecnicoFs
namespace Tfs

open Lib

/-! ## Rows of slots -/

/-- At index `k < n`, `slots` reads and sets the slot `x k` of the file `i` whose index block is `a`. -/
structure Row (i : ℕ) (a : ℕ) (slots : BlockSlots) (x : ℕ → Slot) (n : ℕ) : Prop where
  isSlot : ∀ s k, Inv s → LiveFile s i → k < n → IsSlot s (x k)
  notIndex : ∀ k j, x k ≠ .index j
  notRoot : 0 < i → ∀ k, x k ≠ .direct 0 0
  get : ∀ (s : State) k, (s.inodeTable i).iIndexBlock = a → slots.get s k = slotValue s (x k)
  set : ∀ (s : State) k b, (s.inodeTable i).iIndexBlock = a → slots.set s k b = setSlot s (x k) b

theorem row_direct (i a : ℕ) : Row i a (directSlots i) (Slot.direct i) 10 where
  isSlot _ _ _ hi hk := hi.isSlot_direct hk
  notIndex := by simp
  notRoot := by
    intro hi k hk
    have hzero := (Slot.direct.inj hk).1
    omega
  get _ _ _ := rfl
  set _ _ _ _ := rfl

theorem row_index (i a : ℕ) : Row i a (indexSlots (a * 1024)) (Slot.entry i) 256 where
  isSlot _ _ hs hi hk := hs.isSlot_entry hi hk
  notIndex := by simp
  notRoot := by simp
  get := by
    intro s k ha
    simp [indexSlots, slotValue, indexAddress, ha]
  set := by
    intro s k b ha
    simp [indexSlots, setSlot, indexAddress, ha]

/-! ## Giving a block to a slot -/

/-- From `s` to `t`, slot `x` refers to block `b`, which it had before or which was free. -/
structure SlotEffect (s : State) (x : Slot) (b : ℕ) (t : State) : Prop where
  nodes : SameNodes s t
  sizes : ∀ j, (t.inodeTable j).iSize = (s.inodeTable j).iSize
  value : ∀ y, IsSlot s y → slotValue t y = if y = x then (b : ℤ) else slotValue s y
  bound : b < 1024
  block : (slotValue s x = b ∧ t.disk.freeBlocks = s.disk.freeBlocks) ∨
    (slotValue s x = -1 ∧ s.disk.freeBlocks b = .free ∧
      t.disk.freeBlocks = Function.update s.disk.freeBlocks b .taken)

namespace SlotEffect

variable {s t : State} {x : Slot} {i b : ℕ}

theorem refers_self (he : SlotEffect s x b t) (hx : IsSlot s x) : Refers t x b :=
  ⟨(he.nodes.isSlot_iff x).2 hx, by rw [he.value x hx, if_pos rfl]⟩

theorem refers_iff (he : SlotEffect s x b t) (hx : IsSlot s x) (y : Slot) (c : ℕ) :
    Refers t y c ↔ (y = x ∧ c = b) ∨ (y ≠ x ∧ Refers s y c) := by
  unfold Refers
  rw [he.nodes.isSlot_iff]
  by_cases hyx : y = x
  · subst hyx
    constructor
    · rintro ⟨hy, hvalue⟩
      rw [he.value y hy, if_pos rfl] at hvalue
      exact Or.inl ⟨rfl, by omega⟩
    · rintro (⟨_, rfl⟩ | ⟨hne, _⟩)
      · exact ⟨hx, by rw [he.value y hx, if_pos rfl]⟩
      · exact absurd rfl hne
  · constructor
    · rintro ⟨hy, hvalue⟩
      rw [he.value y hy, if_neg hyx] at hvalue
      exact Or.inr ⟨hyx, hy, hvalue⟩
    · rintro (⟨hEq, _⟩ | ⟨_, hy, hvalue⟩)
      · exact absurd hEq hyx
      · exact ⟨hy, by rw [he.value y hy, if_neg hyx]; exact hvalue⟩

theorem exclusive (he : SlotEffect s x b t) (hs : Inv s) (hx : IsSlot s x) :
    Exclusive (Refers t) (BlockTaken t) := by
  rcases he.block with ⟨hvalue, hblocks⟩ | ⟨hempty, hfree, hblocks⟩
  · -- the slot had the block, and no slot changes
    apply hs.blocks.congr
    · intro y c
      rw [he.refers_iff hx]
      constructor
      · rintro (⟨rfl, rfl⟩ | ⟨_, hy⟩)
        · exact ⟨hx, hvalue⟩
        · exact hy
      · intro hy
        by_cases hyx : y = x
        · subst hyx
          have hc : (c : ℤ) = b := hy.2.symm.trans hvalue
          exact Or.inl ⟨rfl, by omega⟩
        · exact Or.inr ⟨hyx, hy⟩
    · intro c
      simp only [BlockTaken, hblocks]
  · -- the slot was empty, and takes a free block
    apply hs.blocks.alloc (i := x) (b := b)
    · simp [BlockTaken, hfree]
    · intro y c
      rw [he.refers_iff hx]
      constructor
      · rintro (hnew | ⟨_, hy⟩)
        · exact Or.inl hnew
        · exact Or.inr hy
      · rintro (hnew | hy)
        · exact Or.inl hnew
        · refine Or.inr ⟨?_, hy⟩
          rintro rfl
          have hc : (c : ℤ) = -1 := hy.2.symm.trans hempty
          omega
    · intro c
      have hb := he.bound
      by_cases hcb : c = b
      · subst hcb
        simp [BlockTaken, hblocks, hb]
      · simp [BlockTaken, hblocks, hcb]

/-- A first block stays. -/
theorem first_ne (he : SlotEffect s x b t) (hi : LiveFile s i)
    (hfirst : slotValue s (.direct i 0) ≠ -1) : slotValue t (.direct i 0) ≠ -1 := by
  rw [he.value _ (hi.isSlot_direct (by omega))]
  split
  · omega
  · exact hfirst

theorem inv (he : SlotEffect s x b t) (hs : Inv s) (hx : IsSlot s x) (hroot : x ≠ .direct 0 0)
    (hdir : SameBlock s.disk.fsData t.disk.fsData 0)
    (hhandles : ∀ h < 20, t.freeOpenFileEntries h = .taken → EntryOk t (t.openFileTable h)) :
    Inv t := by
  apply hs.of_sameNodes he.nodes ?_ hdir (he.exclusive hs hx) ?_ ?_ hhandles
  · have hkeep := he.value _ hs.refers_root.1
    rw [if_neg (Ne.symm hroot)] at hkeep
    exact hkeep
  · intro y hy
    rw [he.value y hy]
    split
    · exact Or.inr ⟨b, he.bound, rfl⟩
    · exact hs.valid y hy
  · intro j hj halloc
    rw [he.sizes]
    have hsize := hs.sizes j hj halloc
    refine ⟨hsize.1, ?_⟩
    intro hpos
    have hold := hsize.2 hpos
    rw [he.value (.direct j 0) ⟨halloc, by decide⟩]
    split
    · omega
    · exact hold

end SlotEffect

/-! ## One turn -/

/-- `t` comes from `s` by storing `n` bytes of `src` in the block `b` of slot `x`, at position `o` of the
block, and moving the handle `h` to `offset`. -/
structure Stored (s : State) (h : ℕ) (x : Slot) (b o : ℕ) (src : ℕ → Byte) (n offset : ℕ)
    (t : State) : Prop extends SlotEffect s x b t where
  data : ∀ c, (∀ j, ¬ Refers s (.index j) c) → ∀ p < 1024, t.disk.fsData (c * 1024 + p) =
    if c = b ∧ o ≤ p ∧ p < o + n then src (p - o) else s.disk.fsData (c * 1024 + p)
  openFileTable : t.openFileTable =
    Function.update s.openFileTable h { s.openFileTable h with ofOffset := offset }
  freeOpenFileEntries : t.freeOpenFileEntries = s.freeOpenFileEntries

/-- What a turn of the loop does once the slot refers to block `b`. -/
def storeTurn (s : State) (h b o : ℕ) (src : ℕ → Byte) (n offset : ℕ) : State :=
  (s.setData (memcpy s.disk.fsData (b * 1024 + o) src n)).setEntry h
    { s.openFileTable h with ofOffset := offset }

section Turn

variable {s t : State} {h i a b o n offset : ℕ} {x : Slot} {src : ℕ → Byte}

/-- The block of a slot that is not an index block is no index block. -/
theorem Inv.not_refers_index (hs : Inv s) (hx : Refers s x b) (hxi : ∀ j, x ≠ .index j) (j : ℕ) :
    ¬ Refers s (.index j) b :=
  fun hj => hxi j (hs.blocks.unique _ _ b hx hj)

/-- Copying into a block that is no index block changes no slot. -/
theorem slotValue_storeTurn (hs : Inv s) (hb : ∀ j, ¬ Refers s (.index j) b) (hfit : o + n ≤ 1024)
    {y : Slot} (hy : IsSlot s y) :
    slotValue (storeTurn s h b o src n offset) y = slotValue s y := by
  cases y with
  | direct j k => rfl
  | index j => rfl
  | entry j k =>
      have hk : k < 256 := hy.2.2.2
      rcases (hs.liveFile_of_isSlot_entry hy).refers_index with ⟨c, _, _, _, haddr, hrefers⟩
      have hne : c ≠ b := by
        rintro rfl
        exact hb j hrefers
      have haddr' : indexAddress (storeTurn s h b o src n offset) j = c * 1024 := haddr
      simp only [slotValue, haddr, haddr']
      exact readInt_memcpy_of_disjoint (by omega)

/-- A turn that finds its block in the slot. -/
theorem stored_of_refers (hs : Inv s) (hx : IsSlot s x) (hxi : ∀ j, x ≠ .index j) (hb : b < 1024)
    (hvalue : slotValue s x = b) (hfit : o + n ≤ 1024) :
    Stored s h x b o src n offset (storeTurn s h b o src n offset) where
  nodes := ⟨rfl, fun _ => rfl, fun _ => rfl⟩
  sizes _ := rfl
  value := by
    intro y hy
    rw [slotValue_storeTurn hs (hs.not_refers_index ⟨hx, hvalue⟩ hxi) hfit hy]
    split
    · next hEq => rw [hEq, hvalue]
    · rfl
  bound := hb
  block := Or.inl ⟨hvalue, rfl⟩
  data := by
    intro c _ p hp
    by_cases hin : c = b ∧ o ≤ p ∧ p < o + n
    · rw [if_pos hin]
      rcases hin with ⟨rfl, hlo, hhi⟩
      have hoff : c * 1024 + p - (c * 1024 + o) = p - o := by omega
      have hcopy : (storeTurn s h c o src n offset).disk.fsData (c * 1024 + p) =
          src (c * 1024 + p - (c * 1024 + o)) := memcpy_of_mem (by omega) (by omega)
      rw [hcopy, hoff]
    · rw [if_neg hin]
      exact memcpy_of_disjoint (by omega)
  openFileTable := rfl
  freeOpenFileEntries := rfl

/-- The state in which slot `x` got the free block `b`. -/
def giveBlock (s : State) (x : Slot) (b : ℕ) : State :=
  (setSlot s x b).setDisk ((setSlot s x b).disk.markBlock b .taken)

theorem setSlot_setDisk : setSlot (s.setDisk (s.disk.markBlock b .taken)) x b = giveBlock s x b := by
  cases x with
  | direct i k => rfl
  | index i => rfl
  | entry i k => rfl

theorem sameNodes_giveBlock (hxi : ∀ j, x ≠ .index j) : SameNodes s (giveBlock s x b) :=
  (sameNodes_setSlot s hxi b).trans ⟨rfl, fun _ => rfl, fun _ => rfl⟩

theorem slotEffect_giveBlock (hs : Inv s) (hx : IsSlot s x) (hxi : ∀ j, x ≠ .index j) (hb : b < 1024)
    (hempty : slotValue s x = -1) (hfree : s.disk.freeBlocks b = .free) :
    SlotEffect s x b (giveBlock s x b) where
  nodes := sameNodes_giveBlock hxi
  sizes := setSlot_iSize s x b
  value := by
    intro y hy
    rw [← hs.slotValue_setSlot hxi hx hy (Or.inr ⟨b, hb, rfl⟩)]
    cases y with
    | direct j l => rfl
    | index j => rfl
    | entry j l => rfl
  bound := hb
  block := Or.inr ⟨hempty, hfree, by simp [giveBlock, Disk.markBlock]⟩

theorem Inv.giveBlock (hs : Inv s) (hx : IsSlot s x) (hxi : ∀ j, x ≠ .index j)
    (hroot : x ≠ .direct 0 0) (hb : b < 1024) (hempty : slotValue s x = -1)
    (hfree : s.disk.freeBlocks b = .free) : Inv (giveBlock s x b) := by
  have he := slotEffect_giveBlock hs hx hxi hb hempty hfree
  apply he.inv hs hx hroot
  · have hdir := hs.sameBlock_setSlot (b := b) hx (fun j => hs.not_refers_zero (x := .index j) (by simp))
    simpa [Tfs.giveBlock] using hdir
  · intro h hh htaken
    have hopen : (Tfs.giveBlock s x b).openFileTable = s.openFileTable := setSlot_openFileTable s x b
    have hfreeOpen : (Tfs.giveBlock s x b).freeOpenFileEntries = s.freeOpenFileEntries :=
      setSlot_freeOpenFileEntries s x b
    rw [hopen]
    rw [hfreeOpen] at htaken
    exact (hs.handles h hh htaken).congr he.nodes (fun i hi => he.first_ne hi)

/-- A turn whose slot is empty and gets a free block. -/
theorem stored_of_alloc (hs : Inv s) (hx : IsSlot s x) (hxi : ∀ j, x ≠ .index j)
    (hroot : x ≠ .direct 0 0) (hb : b < 1024) (hempty : slotValue s x = -1)
    (hfree : s.disk.freeBlocks b = .free) (hfit : o + n ≤ 1024) :
    Stored s h x b o src n offset (storeTurn (Tfs.giveBlock s x b) h b o src n offset) := by
  have he := slotEffect_giveBlock hs hx hxi hb hempty hfree
  have hs₁ := hs.giveBlock hx hxi hroot hb hempty hfree
  have hx₁ := (he.nodes.isSlot_iff x).2 hx
  -- with its new block the slot is one that has a block
  have hst : Stored (Tfs.giveBlock s x b) h x b o src n offset
      (storeTurn (Tfs.giveBlock s x b) h b o src n offset) :=
    stored_of_refers hs₁ hx₁ hxi hb (he.refers_self hx).2 hfit
  constructor
  · constructor
    · exact he.nodes.trans hst.nodes
    · intro j
      exact (hst.sizes j).trans (he.sizes j)
    · intro y hy
      rw [hst.value y ((he.nodes.isSlot_iff y).2 hy), he.value y hy]
      split <;> rfl
    · exact hb
    · exact Or.inr ⟨hempty, hfree, by simp [storeTurn, Tfs.giveBlock, Disk.markBlock]⟩
  · intro c hc p hp
    have hkeep : (Tfs.giveBlock s x b).disk.fsData (c * 1024 + p) = s.disk.fsData (c * 1024 + p) :=
      hs.sameBlock_setSlot hx hc p hp
    -- an index slot refers to the same block as before
    have hc₁ : ∀ j, ¬ Refers (Tfs.giveBlock s x b) (.index j) c := by
      intro j hj
      rcases (he.refers_iff hx _ c).1 hj with ⟨hEq, _⟩ | ⟨_, hj⟩
      · exact hxi j hEq.symm
      · exact hc j hj
    rw [hst.data c hc₁ p hp, hkeep]
  · rw [hst.openFileTable, show (Tfs.giveBlock s x b).openFileTable = s.openFileTable from
      setSlot_openFileTable s x b]
  · exact hst.freeOpenFileEntries.trans (setSlot_freeOpenFileEntries s x b)

/-- A turn leaves the root directory as it was. -/
theorem Stored.sameRoot (hst : Stored s h x b o src n offset t) (hs : Inv s) (hx : IsSlot s x)
    (hroot : x ≠ .direct 0 0) : SameBlock s.disk.fsData t.disk.fsData 0 := by
  have hb : b ≠ 0 := by
    rintro rfl
    rcases hst.block with ⟨hvalue, _⟩ | ⟨_, hfree, _⟩
    · exact hs.not_refers_zero hroot ⟨hx, hvalue⟩
    · exact absurd (hs.pos_of_free hfree) (by omega)
  intro k hk
  have hdata := hst.data 0 (fun j => hs.not_refers_zero (by simp)) k hk
  simpa [Ne.symm hb] using hdata

theorem Stored.inv (hst : Stored s h x b o src n offset t) (hs : Inv s) (hx : IsSlot s x)
    (hroot : x ≠ .direct 0 0) (hi : (s.openFileTable h).ofInumber = i) (hlive : LiveFile s i)
    (hpos : PositionOk t i offset) : Inv t := by
  apply hst.toSlotEffect.inv hs hx hroot (hst.sameRoot hs hx hroot)
  intro g hg htaken
  rw [hst.freeOpenFileEntries] at htaken
  rw [hst.openFileTable]
  by_cases hgh : g = h
  · subst hgh
    simpa [EntryOk, hi] using ⟨hst.nodes.liveFile_iff.2 hlive, hpos⟩
  · rw [Function.update_of_ne hgh]
    exact (hs.handles g hg htaken).congr hst.nodes (fun j hj => hst.toSlotEffect.first_ne hj)

end Turn

/-! ## The blocks that a turn finds -/

section Alloc

variable {s : State} {i a k m : ℕ} {slots : BlockSlots} {x : ℕ → Slot}

/-- What `allocSlot` does to the slot at index `k`. -/
theorem allocSlot_cases (hs : Inv s) (hrow : Row i a slots x m) (hi : LiveFile s i)
    (ha : (s.inodeTable i).iIndexBlock = a) (hk : k < m) :
    (∃ b < 1024, slotValue s (x k) = (b : ℕ) ∧ allocSlot slots k s = s ∧
      slots.get (allocSlot slots k s) k = b) ∨
    (slotValue s (x k) = -1 ∧ ∃ b < 1024, s.disk.freeBlocks b = .free ∧
      allocSlot slots k s = giveBlock s (x k) b ∧ slots.get (allocSlot slots k s) k = b) ∨
    (slotValue s (x k) = -1 ∧ (∀ b < 1024, s.disk.freeBlocks b = .taken) ∧
      allocSlot slots k s = s ∧ slots.get (allocSlot slots k s) k = -1) := by
  have hx := hrow.isSlot s k hs hi hk
  have hxi := hrow.notIndex k
  unfold allocSlot
  rw [hrow.get s k ha]
  rcases hs.valid _ hx with hempty | ⟨b, hb, hvalue⟩
  · rw [if_pos hempty]
    rcases Disk.dataBlockAlloc_cases s.disk with ⟨b, hb, hfree, hEq⟩ | ⟨hfull, hEq⟩
    · have hset : slots.set (s.setDisk (s.disk.markBlock b .taken)) k b = giveBlock s (x k) b := by
        rw [hrow.set (s.setDisk (s.disk.markBlock b .taken)) k b ha, setSlot_setDisk]
      have hnodes := sameNodes_giveBlock (s := s) (b := b) hxi
      refine Or.inr (Or.inl ⟨hempty, b, hb, hfree, ?_, ?_⟩)
      · simpa only [hEq] using hset
      · simp only [hEq, hset]
        rw [hrow.get _ k ((hnodes.iIndexBlock i).trans ha),
          (slotEffect_giveBlock hs hx hxi hb hempty hfree).value _ hx, if_pos rfl]
    · -- the failed allocation stores -1 where -1 was
      have hset : slots.set (s.setDisk s.disk) k (-1) = s := by
        rw [hrow.set (s.setDisk s.disk) k (-1) ha, ← hempty]
        exact setSlot_self s (x k)
      refine Or.inr (Or.inr ⟨hempty, hfull, ?_, ?_⟩)
      · simpa only [hEq] using hset
      · simp only [hEq, hset]
        rw [hrow.get s k ha, hempty]
  · have hne : slotValue s (x k) ≠ -1 := by omega
    rw [if_neg hne]
    exact Or.inl ⟨b, hb, hvalue, rfl, (hrow.get s k ha).trans hvalue⟩

end Alloc

/-! ## Turns and whole loops -/

section Loop

variable {s : State} {h i a m index writen toWrite : ℕ} {slots : BlockSlots} {x : ℕ → Slot}
  {buffer : ℕ → Byte}

theorem writeInBlock_fit (offset toWrite writen : ℕ) :
    offset % 1024 + writeInBlock offset toWrite writen ≤ 1024 := by
  have hmod : offset % 1024 < 1024 := Nat.mod_lt _ (by omega)
  unfold writeInBlock
  simp only [blockSize]
  split <;> omega

/-- A turn of a write loop finds no block, or stores bytes in the block of its slot. -/
theorem writeLoop_succ_cases (left : ℕ) (buffer : ℕ → Byte) (hs : Inv s) (hrow : Row i a slots x m)
    (hi : LiveFile s i) (ha : (s.inodeTable i).iIndexBlock = a) (hk : index < m) (hw : writen < toWrite) :
    ((∀ b < 1024, s.disk.freeBlocks b = .taken) ∧ slotValue s (x index) = -1 ∧
      writeLoop slots h buffer toWrite (left + 1) index writen s = .noBlock writen s) ∨
    ∃ n b t, n = writeInBlock (s.openFileTable h).ofOffset toWrite writen ∧
      Stored s h (x index) b ((s.openFileTable h).ofOffset % 1024) (fun k => buffer (writen + k)) n
        (sizeAdd (s.openFileTable h).ofOffset (writen + n)) t ∧
      writeLoop slots h buffer toWrite (left + 1) index writen s =
        writeLoop slots h buffer toWrite left (index + 1) (writen + n) t := by
  have hx := hrow.isSlot s index hs hi hk
  have hxi := hrow.notIndex index
  have hroot := hrow.notRoot hi.1 index
  have hfit := writeInBlock_fit (s.openFileTable h).ofOffset toWrite writen
  rw [writeLoop, if_pos hw]
  -- the slot has a block, gets one, or the disk is full
  rcases allocSlot_cases hs hrow hi ha hk with
    ⟨b, hb, hvalue, hEq, hget⟩ | ⟨hempty, b, hb, hfree, hEq, hget⟩ | ⟨hempty, hfull, hEq, hget⟩
  · right
    rw [hEq] at hget ⊢
    refine ⟨_, b, _, rfl, stored_of_refers hs hx hxi hb hvalue hfit, ?_⟩
    simp only [hget, dataBlockGet_natCast hb]
    rfl
  · right
    rw [hEq] at hget ⊢
    refine ⟨_, b, _, rfl, stored_of_alloc hs hx hxi hroot hb hempty hfree hfit, ?_⟩
    have hopen : (giveBlock s (x index) b).openFileTable = s.openFileTable :=
      setSlot_openFileTable s (x index) b
    simp only [hget, dataBlockGet_natCast hb, storeTurn, State.setData_openFileTable, hopen]
  · left
    rw [hEq] at hget ⊢
    refine ⟨hfull, hempty, ?_⟩
    simp only [hget, dataBlockGet_neg_one]

/-- The head of a write loop after `v` turns: the handle `h` is open on file `i`, and either the next slot
`y` is the file's first one or the file has its first block. -/
structure AtHead (h i a : ℕ) (toWrite v : ℕ) (y : Slot) (writen : ℕ) (s : State) : Prop where
  inv : Inv s
  handle : h < 20 ∧ s.freeOpenFileEntries h = .taken
  inumber : (s.openFileTable h).ofInumber = i
  live : LiveFile s i
  index : (s.inodeTable i).iIndexBlock = a
  offset_le : (s.openFileTable h).ofOffset ≤ 272384 * (v + 1)
  writen_le : writen ≤ 1024 * v
  first : writen < toWrite → y = .direct i 0 ∨ slotValue s (.direct i 0) ≠ -1

/-- One turn brings a loop from head to head. -/
theorem AtHead.stored {v n b o offset : ℕ} {y z : Slot} {src : ℕ → Byte} {t : State}
    (hh : AtHead h i a toWrite v y writen s) (hw : writen < toWrite) (hv : v < 266)
    (hy : IsSlot s y) (hroot : y ≠ .direct 0 0) (hn : n ≤ 1024)
    (hoffset : offset = sizeAdd (s.openFileTable h).ofOffset (writen + n))
    (hst : Stored s h y b o src n offset t) :
    AtHead h i a toWrite (v + 1) z (writen + n) t := by
  have hoff := hh.offset_le
  have hwriten := hh.writen_le
  have hsum : offset = (s.openFileTable h).ofOffset + (writen + n) := by
    rw [hoffset]
    exact sizeAdd_of_lt (by omega)
  -- the first block is this one, or was there before
  have hfirst : slotValue t (.direct i 0) ≠ -1 := by
    rcases hh.first hw with rfl | hfirst
    · rw [(hst.refers_self hy).2]
      omega
    · exact hst.toSlotEffect.first_ne hh.live hfirst
  have hinv : Inv t := by
    apply hst.inv hh.inv hy hroot hh.inumber hh.live
    exact ⟨by omega, fun _ => hfirst⟩
  constructor
  · exact hinv
  · rw [hst.freeOpenFileEntries]
    exact hh.handle
  · rw [hst.openFileTable, Function.update_self]
    exact hh.inumber
  · exact hst.nodes.liveFile_iff.2 hh.live
  · exact (hst.nodes.iIndexBlock i).trans hh.index
  · rw [hst.openFileTable, Function.update_self]
    simp only
    omega
  · omega
  · intro _
    exact Or.inr hfirst

/-- What a write loop keeps, by induction on the slots that are left. -/
theorem writeLoop_inv (buffer : ℕ → Byte) (hrow : Row i a slots x m) (left : ℕ) :
    ∀ (index v writen : ℕ) (s : State), AtHead h i a toWrite v (x index) writen s →
      (0 < left → index + left ≤ m) → v + left ≤ 266 →
      match writeLoop slots h buffer toWrite left index writen s with
      | .noBlock _ t => Inv t
      | .done index' writen' t => (writen' < toWrite → index' = index + left) ∧
          ∃ v' ≤ v + left, AtHead h i a toWrite v' (x index') writen' t := by
  induction left with
  | zero =>
      intro index v writen s hh _ _
      exact ⟨fun _ => rfl, v, le_rfl, hh⟩
  | succ left ih =>
      intro index v writen s hh hm hv
      by_cases hw : writen < toWrite
      · have hk : index < m := by
          have := hm (by omega)
          omega
        have hx := hrow.isSlot s index hh.inv hh.live hk
        -- one turn: no block was free, or n bytes were stored and the loop goes on from the next slot
        rcases writeLoop_succ_cases (h := h) left buffer hh.inv hrow hh.live
          hh.index hk hw with ⟨_, _, hEq⟩ | ⟨n, b, t, hn, hst, hEq⟩
        · rw [hEq]
          exact hh.inv
        · have hle : n ≤ 1024 := by
            have hfit := writeInBlock_fit (s.openFileTable h).ofOffset toWrite writen
            omega
          have hnext := hh.stored (z := x (index + 1)) hw (by omega) hx (hrow.notRoot hh.live.1 index)
            hle rfl hst
          have hrun := ih (index + 1) (v + 1) (writen + n) t hnext
            (fun hpos => by have := hm (by omega); omega) (by omega)
          rw [hEq]
          rcases hend : writeLoop slots h buffer toWrite left (index + 1) (writen + n) t with
            ⟨w', t'⟩ | ⟨index', w', t'⟩
          · rw [hend] at hrun
            exact hrun
          · rw [hend] at hrun
            rcases hrun with ⟨hindex, v', hv', hhead⟩
            refine ⟨?_, v', by omega, hhead⟩
            intro hlt
            have := hindex hlt
            omega
      · -- all bytes are written before the last slot
        rw [writeLoop, if_neg hw]
        refine ⟨fun hlt => absurd hlt hw, v, by omega, hh⟩

end Loop

end Tfs
end TecnicoFs
