import TecnicoFs.Tfs.Creation

/-!
# Multi-block ownership — the law, and the one call that breaks it

Every call keeps the invariant but one: `tfs_open` with `TFS_O_TRUNC` on a file that is not empty.
`inode_datablocks_erase` gets the i-node by value, so it frees the blocks and leaves the block numbers of
the real i-node in place.  This is exactly when the law of block ownership is lost.
-/

namespace TecnicoFs
namespace Tfs

open Lib

/-! ## Every call -/

/-- A `tfs_open` with `TFS_O_TRUNC` on an existing file with `i_size > 0`. -/
def TruncatesFile (s : State) : Call → Prop
  | .open name flags => ∃ i : ℕ, tfsLookup name s = i ∧ Truncates flags i s
  | .close _ => False
  | .write _ _ _ => False
  | .read _ _ => False

section Calls

variable {s t : State} {r : ℤ}

theorem Inv.tfsOpen (hs : Inv s) {path : Path} {flags : ℤ}
    (htrunc : ¬ TruncatesFile s (.open path flags)) (h : tfsOpen path flags s = some (r, t)) : Inv t := by
  unfold Tfs.tfsOpen at h
  split at h
  · cases h
    exact hs
  · rcases tfsLookup_cases hs path with ⟨p, _, _, k, _, _, _, i, hlive, _, hEq⟩ | ⟨hEq, _⟩
    · have hfound : (i : ℤ) ≥ 0 := by omega
      simp only [hEq, hfound, if_true, Option.some.injEq] at h
      have hopen := hs.openExisting hlive (fun htr => htrunc ⟨i, hEq, htr⟩)
      rw [h] at hopen
      exact hopen
    · have hmiss : ¬ tfsLookup path s ≥ 0 := by omega
      simp only [hmiss, if_false] at h
      by_cases hcreate : hasFlag flags tfsOCreat = true
      · simp only [hcreate, if_true] at h
        exact hs.openCreate h
      · simp only [hcreate, if_false, Option.some.injEq, Prod.mk.injEq, Bool.false_eq_true] at h
        rw [← h.2]
        exact hs

theorem Inv.exec (hs : Inv s) {a : Call} (hok : OnOpenHandle s a) (htrunc : ¬ TruncatesFile s a)
    {reply : Reply} (h : exec a s = some (reply, t)) : Inv t := by
  cases a with
  | «open» name flags =>
      rcases Option.map_eq_some_iff.1 h with ⟨⟨r, s'⟩, hopen, hEq⟩
      cases hEq
      exact hs.tfsOpen htrunc hopen
  | close fhandle =>
      cases h
      exact hs.tfsClose fhandle
  | write fhandle buffer n =>
      rcases Option.map_eq_some_iff.1 h with ⟨⟨r, s'⟩, hwrite, hEq⟩
      cases hEq
      exact hs.tfsWrite hok hwrite
  | read fhandle n =>
      rcases Option.map_eq_some_iff.1 h with ⟨⟨r, out, s'⟩, hread, hEq⟩
      cases hEq
      exact hs.tfsRead hok hread

end Calls

/-! ## The state after `tfs_init` -/

section Init

/-- The i-node of the root directory. -/
def rootInode : Inode :=
  ⟨.directory, 1024, Function.update (fun _ => -1) 0 0, -1⟩

/-- `tfs_init` succeeds: it makes i-node 0 the root directory and gives it block 0. -/
theorem tfsInit_eq : tfsInit = (0,
    { stateInit staticState with
      disk := ⟨clearEntries (fun _ => 0) 0 maxDirEntries, Function.update (fun _ => .free) 0 .taken⟩
      inodeTable := Function.update staticState.inodeTable 0 rootInode
      freeinodeTs := Function.update (fun _ => .free) 0 .taken }) := by
  have hinode : firstFree (stateInit staticState).freeinodeTs inodeTableSize = some 0 :=
    firstFree_all_free (by decide)
  have hblock : firstFree (fun _ => .free) dataBlocks = some 0 :=
    firstFree_all_free (by decide)
  have halloc : Disk.dataBlockAlloc ⟨fun _ => 0, fun _ => .free⟩ =
      (0, ⟨fun _ => 0, Function.update (fun _ => .free) 0 .taken⟩) := by
    unfold Disk.dataBlockAlloc
    rw [hblock]
    rfl
  have hdir : dataBlockGet 0 = some 0 := by decide
  have hcreate : inodeCreate .directory (stateInit staticState) = (0,
      { stateInit staticState with
        disk := ⟨clearEntries (fun _ => 0) 0 maxDirEntries, Function.update (fun _ => .free) 0 .taken⟩
        inodeTable := Function.update staticState.inodeTable 0 rootInode
        freeinodeTs := Function.update (fun _ => .free) 0 .taken }) := by
    unfold inodeCreate
    simp only [hinode]
    simp [State.markInode, State.setInode, State.setDisk, State.setData, stateInit, staticState, halloc,
      hdir, emptyDirectory, rootInode]
  unfold tfsInit
  rw [hcreate]
  rfl

theorem not_entryUsed_tfsInit : ∀ k < 23, ¬ EntryUsed tfsInit.2.disk.fsData 0 k := by
  intro k hk
  rw [tfsInit_eq]
  exact not_entryUsed_clearEntries hk

theorem inv_tfsInit : Inv tfsInit.2 := by
  have hempty := not_entryUsed_tfsInit
  have halloc : ∀ i, Allocated tfsInit.2 i ↔ i = 0 := by
    intro i
    rw [tfsInit_eq]
    by_cases hi : i = 0
    · subst hi
      simp [Allocated]
    · simp [Allocated, hi]
  have hnode : tfsInit.2.inodeTable 0 = rootInode := by
    rw [tfsInit_eq]
    rfl
  have htaken : ∀ b, BlockTaken tfsInit.2 b ↔ b = 0 := by
    intro b
    rw [tfsInit_eq]
    by_cases hb : b = 0
    · subst hb
      simp [BlockTaken]
    · simp [BlockTaken, hb]
  -- the root's first block is the only reference there is
  have hvalue : ∀ x, IsSlot tfsInit.2 x → (x = .direct 0 0 ∧ slotValue tfsInit.2 x = 0) ∨
      (x ≠ .direct 0 0 ∧ slotValue tfsInit.2 x = -1) := by
    intro x hx
    cases x with
    | direct i k =>
        have hi := (halloc i).1 hx.1
        subst hi
        by_cases hk : k = 0
        · subst hk
          simp [slotValue, hnode, rootInode]
        · simp [slotValue, hnode, rootInode, hk]
    | index i =>
        have hi := (halloc i).1 hx
        subst hi
        simp [slotValue, hnode, rootInode]
    | entry i k =>
        have hi := (halloc i).1 hx.1
        subst hi
        simp [IsSlot, hnode, rootInode] at hx
  have hrefers : ∀ x b, Refers tfsInit.2 x b ↔ x = .direct 0 0 ∧ b = 0 := by
    intro x b
    constructor
    · rintro ⟨hx, hb⟩
      rcases hvalue x hx with ⟨hEq, hzero⟩ | ⟨_, hminus⟩
      · exact ⟨hEq, by omega⟩
      · omega
    · rintro ⟨rfl, rfl⟩
      exact ⟨⟨(halloc 0).2 rfl, by decide⟩, by simp [slotValue, hnode, rootInode]⟩
  constructor
  · constructor
    · intro b
      simp [htaken, hrefers]
    · intro x y b hx hy
      rw [((hrefers x b).1 hx).1, ((hrefers y b).1 hy).1]
  · intro x hx
    rcases hvalue x hx with ⟨_, hzero⟩ | ⟨_, hminus⟩
    · exact Or.inr ⟨0, by omega, hzero⟩
    · exact Or.inl hminus
  · exact (halloc 0).2 rfl
  · simp [hnode, rootInode]
  · simp [hnode, rootInode]
  · intro i hpos hi
    rw [halloc] at hi
    omega
  · intro k hk hused
    exact absurd hused (hempty k hk)
  · intro k hk hused
    exact absurd hused (hempty k hk)
  · intro i hpos hi
    rw [halloc] at hi
    omega
  · intro h _ htakenH
    rw [tfsInit_eq] at htakenH
    simp [stateInit] at htakenH

end Init

/-! ## What an erase does -/

section Erase

variable {s t : State} {node : Inode} {d : Disk} {a b i : ℕ}

theorem dataBlockFree_fsData (z : ℤ) : (d.dataBlockFree z).2.fsData = d.fsData := by
  unfold Disk.dataBlockFree
  split <;> rfl

theorem dataBlockFree_free (z : ℤ) (h : d.freeBlocks b = .free) :
    (d.dataBlockFree z).2.freeBlocks b = .free := by
  unfold Disk.dataBlockFree
  split
  · by_cases hb : b = z.toNat
    · subst hb
      simp
    · simpa [Disk.markBlock_freeBlocks_of_ne hb] using h
  · exact h

theorem freeDirect_fsData (ks : List ℕ) : (freeDirect node ks d).2.fsData = d.fsData := by
  induction ks generalizing d with
  | nil => rfl
  | cons k ks ih =>
      unfold freeDirect
      split
      · exact ih
      · simp only
        split
        · exact dataBlockFree_fsData _
        · rw [ih]
          exact dataBlockFree_fsData _

theorem freeDirect_free (ks : List ℕ) (h : d.freeBlocks b = .free) :
    (freeDirect node ks d).2.freeBlocks b = .free := by
  induction ks generalizing d with
  | nil => exact h
  | cons k ks ih =>
      unfold freeDirect
      split
      · exact ih h
      · simp only
        split
        · exact dataBlockFree_free _ h
        · exact ih (dataBlockFree_free _ h)

theorem freeIndirect_free (ks : List ℕ) (h : d.freeBlocks b = .free) :
    (freeIndirect a ks d).2.freeBlocks b = .free := by
  induction ks generalizing d with
  | nil => exact h
  | cons k ks ih =>
      unfold freeIndirect
      split
      · exact ih h
      · simp only
        split
        · exact dataBlockFree_free _ h
        · apply ih
          exact dataBlockFree_free _ h

/-- Entries of index blocks only ever become `-1`. -/
theorem freeIndirect_entry (ks : List ℕ) (c l : ℕ) (ha : 4 ∣ a) (hc : 4 ∣ c) :
    indexEntry (freeIndirect a ks d).2.fsData c l = indexEntry d.fsData c l ∨
      indexEntry (freeIndirect a ks d).2.fsData c l = -1 := by
  induction ks generalizing d with
  | nil => exact Or.inl rfl
  | cons k ks ih =>
      unfold freeIndirect
      split
      · exact ih
      · simp only
        split
        · exact Or.inl (by rw [dataBlockFree_fsData])
        · -- the turn sets one entry to -1, and it may be the one that is asked for
          have hset : indexEntry (setIndexEntry (d.dataBlockFree (indexEntry d.fsData a k)).2.fsData a k
              (-1)) c l = indexEntry d.fsData c l ∨
              indexEntry (setIndexEntry (d.dataBlockFree (indexEntry d.fsData a k)).2.fsData a k
                (-1)) c l = -1 := by
            rw [dataBlockFree_fsData]
            by_cases hEq : a + 4 * k = c + 4 * l
            · right
              rw [indexEntry, setIndexEntry, hEq]
              exact readInt_writeInt (by decide) (by decide)
            · left
              exact readInt_writeInt_of_disjoint (by omega)
          rcases ih (d := { (d.dataBlockFree (indexEntry d.fsData a k)).2 with
              fsData := setIndexEntry (d.dataBlockFree (indexEntry d.fsData a k)).2.fsData a k (-1) })
            with hkeep | hminus
          · rw [hkeep]
            exact hset
          · exact Or.inr hminus

theorem erase_entry (c l : ℕ) (hc : 4 ∣ c) :
    indexEntry (inodeDatablocksErase node d).2.fsData c l = indexEntry d.fsData c l ∨
      indexEntry (inodeDatablocksErase node d).2.fsData c l = -1 := by
  unfold inodeDatablocksErase
  simp only
  split
  · exact Or.inl (by rw [freeDirect_fsData])
  · rcases hget : dataBlockGet node.iIndexBlock with _ | a
    · exact Or.inl (by simp only [freeDirect_fsData])
    · rcases dataBlockGet_eq_some_iff.1 hget with ⟨n, _, _, rfl⟩
      have hentry := freeIndirect_entry (a := n * 1024)
        (d := (freeDirect node (List.range directBlocksQuantity) d).2) (List.range indexEntries) c l
        (by omega) hc
      rw [freeDirect_fsData] at hentry
      exact hentry

/-- The first block of the file is freed. -/
theorem erase_first (hb : b < 1024) (hfirst : node.iDataBlock 0 = b) :
    (inodeDatablocksErase node d).2.freeBlocks b = .free := by
  have hdirect : (freeDirect node (List.range directBlocksQuantity) d).2.freeBlocks b = .free := by
    have hcons : List.range directBlocksQuantity = 0 :: (List.range 9).map Nat.succ := by
      exact List.range_succ_eq_map
    have hne : ¬ (b : ℤ) = -1 := by omega
    have hmark : (d.markBlock b .free).freeBlocks b = .free := by simp
    rw [hcons, freeDirect, hfirst, if_neg hne, Disk.dataBlockFree_of_valid hb]
    simpa using freeDirect_free _ hmark
  unfold inodeDatablocksErase
  simp only
  split
  · exact hdirect
  · rcases dataBlockGet node.iIndexBlock with _ | a
    · exact hdirect
    · exact freeIndirect_free _ hdirect

end Erase

/-! ## The law -/

/-- A block is taken exactly when one slot refers to it; no two slots share a block, and no slot refers to
a free one. -/
structure BlockLaw (s : State) : Prop where
  taken_iff : ∀ b < dataBlocks, s.disk.freeBlocks b = .taken ↔ ∃! x, Refers s x b
  unique : ∀ x y b, Refers s x b → Refers s y b → x = y
  taken : ∀ x b, Refers s x b → b < dataBlocks ∧ s.disk.freeBlocks b = .taken

theorem Inv.blockLaw {s : State} (hs : Inv s) : BlockLaw s where
  taken_iff := by
    intro b hb
    rw [← hs.blocks.taken_iff_existsUnique b]
    simp [BlockTaken, hb]
  unique := hs.blocks.unique
  taken _ _ hx := hs.blocks.taken_of_refers hx

/-- The state after the erase still refers to the first block, which is free. -/
theorem not_blockLaw_of_erase {s t : State} {i : ℕ} (hs : Inv s) (hlive : LiveFile s i)
    (hsize : 0 < (s.inodeTable i).iSize) (hnodes : SameNodes s t)
    (hdirect : ∀ j, (t.inodeTable j).iDataBlock = (s.inodeTable j).iDataBlock)
    (hdisk : t.disk = (inodeDatablocksErase (s.inodeTable i) s.disk).2) : ¬ BlockLaw t := by
  have hslot : IsSlot s (.direct i 0) := hlive.isSlot_direct (by omega)
  have hfirst := (hs.sizes i hlive.1 hlive.2.1).2 hsize
  rcases (hs.valid _ hslot).resolve_left hfirst with ⟨b, hb, hvalue⟩
  have hfree : t.disk.freeBlocks b = .free := by
    rw [hdisk]
    exact erase_first hb hvalue
  -- an erase makes no slot refer to a block
  have hold : ∀ y, Refers t y b → Refers s y b := by
    rintro y ⟨hy, hEq⟩
    refine ⟨(hnodes.isSlot_iff y).1 hy, ?_⟩
    cases y with
    | direct j k =>
        rw [← hEq]
        simp only [slotValue, hdirect]
    | index j =>
        rw [← hEq]
        simp only [slotValue, hnodes.iIndexBlock]
    | entry j k =>
        have haddr : 4 ∣ indexAddress s j := by
          unfold indexAddress
          simp only [blockSize]
          omega
        simp only [slotValue, hnodes.indexAddress_eq, hdisk] at hEq ⊢
        rcases erase_entry (d := s.disk) (indexAddress s j) k haddr with
          hkeep | hminus
        · rw [← hkeep]
          exact hEq
        · omega
  intro hlaw
  have hrefers : Refers t (.direct i 0) b := by
    refine ⟨(hnodes.isSlot_iff _).2 hslot, ?_⟩
    simp only [slotValue, hdirect]
    exact hvalue
  have htaken : t.disk.freeBlocks b = .taken := by
    refine (hlaw.taken_iff b hb).2 ⟨_, hrefers, ?_⟩
    intro y hy
    exact hs.blocks.unique _ _ b (hold y hy) ⟨hslot, hvalue⟩
  simp [hfree] at htaken

/-- What an open leaves of the slots when it truncates: only the disk differs. -/
theorem openExisting_of_truncates {s : State} {i : ℕ} {flags : ℤ} (hi : i < 50)
    (htrunc : Truncates flags i s) :
    SameNodes s (openExisting i flags s).2 ∧
      (∀ j, ((openExisting i flags s).2.inodeTable j).iDataBlock = (s.inodeTable j).iDataBlock) ∧
      (openExisting i flags s).2.disk = (inodeDatablocksErase (s.inodeTable i) s.disk).2 := by
  have hcond : hasFlag flags tfsOTrunc = true ∧ (s.inodeTable i).iSize > 0 := htrunc
  -- adding the handle changes neither the i-nodes nor the disk
  have hadd : ∀ (u : State) (offset : ℕ) (append : ℤ), SameNodes s u →
      (∀ j, (u.inodeTable j).iDataBlock = (s.inodeTable j).iDataBlock) →
      u.disk = (inodeDatablocksErase (s.inodeTable i) s.disk).2 →
      SameNodes s (addToOpenFileTable i offset append u).2 ∧
        (∀ j, ((addToOpenFileTable i offset append u).2.inodeTable j).iDataBlock =
          (s.inodeTable j).iDataBlock) ∧
        (addToOpenFileTable i offset append u).2.disk =
          (inodeDatablocksErase (s.inodeTable i) s.disk).2 := by
    intro u offset append hnodes hdirect hdisk
    rcases addToOpenFileTable_cases i offset append u with ⟨g, _, _, _, hEq⟩ | ⟨_, hEq⟩
    · rw [hEq]
      exact ⟨⟨hnodes.freeinodeTs, hnodes.iNodeType, hnodes.iIndexBlock⟩, hdirect, hdisk⟩
    · rw [hEq]
      exact ⟨hnodes, hdirect, hdisk⟩
  -- the size goes to 0, the block numbers stay
  have hnode : ∀ j, (Function.update s.inodeTable i { s.inodeTable i with iSize := 0 } j).iNodeType =
      (s.inodeTable j).iNodeType ∧
      (Function.update s.inodeTable i { s.inodeTable i with iSize := 0 } j).iIndexBlock =
        (s.inodeTable j).iIndexBlock ∧
      (Function.update s.inodeTable i { s.inodeTable i with iSize := 0 } j).iDataBlock =
        (s.inodeTable j).iDataBlock := by
    intro j
    by_cases hji : j = i
    · subst hji
      simp
    · simp [hji]
  unfold openExisting truncateFile
  simp only [inodeGet_natCast hi, hcond, and_self, if_true]
  by_cases hr : (inodeDatablocksErase (s.inodeTable i) s.disk).1 = -1
  · simp only [hr, if_true]
    exact ⟨⟨rfl, fun _ => rfl, fun _ => rfl⟩, fun _ => rfl, rfl⟩
  · simp only [hr, if_false]
    split
    · exact hadd _ _ _ ⟨rfl, fun j => (hnode j).1, fun j => (hnode j).2.1⟩ (fun j => (hnode j).2.2) rfl
    · exact hadd _ _ _ ⟨rfl, fun j => (hnode j).1, fun j => (hnode j).2.1⟩ (fun j => (hnode j).2.2) rfl

theorem not_blockLaw_of_truncatesFile {s t : State} (hs : Inv s) {a : Call}
    (htrunc : TruncatesFile s a) {reply : Reply} (h : exec a s = some (reply, t)) : ¬ BlockLaw t := by
  cases a with
  | «open» path flags =>
      rcases htrunc with ⟨i, hlookup, htrunc⟩
      rcases Option.map_eq_some_iff.1 h with ⟨⟨r, t'⟩, hopen, hEq⟩
      cases hEq
      rcases tfsLookup_cases hs path with ⟨p, _, hvalid, _, _, _, _, j, hlive, _, hEq⟩ | ⟨hEq, _⟩
      · have hij : j = i := by omega
        subst hij
        have hfound : (j : ℤ) ≥ 0 := by omega
        unfold Tfs.tfsOpen at hopen
        simp only [hvalid, Bool.not_true, Bool.false_eq_true, if_false, hlookup, hfound, if_true,
          Option.some.injEq] at hopen
        rcases openExisting_of_truncates hlive.2.1.1 htrunc with ⟨hnodes, hdirect, hdisk⟩
        rw [hopen] at hnodes hdirect hdisk
        exact not_blockLaw_of_erase hs hlive htrunc.2 hnodes hdirect hdisk
      · omega
  | close fhandle => exact absurd htrunc id
  | write fhandle buffer n => exact absurd htrunc id
  | read fhandle n => exact absurd htrunc id

/-! ## Every run -/

theorem inv_of_execution {h : List (State × Call)} {s : State} (he : properCalls.Execution h s)
    (hC : System.EachStep (fun s a => ¬ TruncatesFile s a) h) : System.Always Inv h s := by
  refine he.always_of_eachStep ?_ ?_ hC
  · intro s hinit
    rw [show s = tfsInit.2 from hinit]
    exact inv_tfsInit
  · rintro s a t hs htrunc ⟨hok, r, hexec⟩
    exact hs.exec hok htrunc hexec

/-- A run without `TFS_O_TRUNC` truncates nothing. -/
theorem eachStep_of_flags {hist : List (State × Call)}
    (hflags : ∀ a ∈ hist.map Prod.snd, ∀ name flags, a = .open name flags → hasFlag flags tfsOTrunc = false) :
    System.EachStep (fun s a => ¬ TruncatesFile s a) hist := by
  rintro ⟨s, a⟩ hp htrunc
  have hmem : a ∈ hist.map Prod.snd := List.mem_map.2 ⟨(s, a), hp, rfl⟩
  cases a with
  | «open» name flags =>
      rcases htrunc with ⟨_, _, htrunc, _⟩
      rw [hflags _ hmem name flags rfl] at htrunc
      cases htrunc
  | close fhandle => exact htrunc
  | write fhandle buffer n => exact htrunc
  | read fhandle n => exact htrunc

/-- The law holds in every state of a run iff no step of the run truncates a file that is not empty. -/
theorem blockLaw_iff_no_truncation {h : List (State × Call)} {s : State}
    (he : properCalls.Execution h s) :
    System.Always BlockLaw h s ↔ System.EachStep (fun s a => ¬ TruncatesFile s a) h := by
  constructor
  · intro hlaw
    induction he with
    | start _ => simp [System.EachStep]
    | next hprev hst ih =>
        rcases System.always_cons.1 hlaw with ⟨hlast, hbefore⟩
        have hsteps := ih hbefore
        refine System.eachStep_cons.2 ⟨?_, hsteps⟩
        intro htrunc
        rcases hst with ⟨_, r, hexec⟩
        exact not_blockLaw_of_truncatesFile (inv_of_execution hprev hsteps).1 htrunc hexec hlast
  · intro hC
    rcases inv_of_execution he hC with ⟨hlast, hbefore⟩
    exact ⟨hlast.blockLaw, fun p hp => (hbefore p hp).blockLaw⟩

theorem tfsInit_room :
    (∃ i < 50, tfsInit.2.freeinodeTs i = .free) ∧
      (∀ b, tfsInit.2.disk.freeBlocks b = .free ↔ b ≠ 0) ∧
      ∀ h, tfsInit.2.freeOpenFileEntries h = .free := by
  rw [tfsInit_eq]
  refine ⟨⟨1, by omega, rfl⟩, ?_, fun _ => rfl⟩
  intro b
  by_cases hb : b = 0
  · subst hb
    simp
  · simp [hb]

/-- Create `/a`, write one byte to it, and open it with `TFS_O_TRUNC`. -/
theorem truncation_loses_law : ∃ h s, properCalls.Execution h s ∧
    h.map Prod.snd = [.open (some slashA) tfsOTrunc, .write 0 (fun _ => 0x41) 1,
      .open (some slashA) tfsOCreat] ∧ ¬ BlockLaw s := by
  have hs := inv_tfsInit
  have hunused := not_entryUsed_tfsInit
  rcases tfsInit_room with ⟨hinode, hblocks, hhandles⟩
  generalize hinit : tfsInit.2 = s at hs hunused hinode hblocks hhandles
  have hmiss : tfsLookup (some slashA) s = -1 := by
    rcases tfsLookup_cases hs (some slashA) with ⟨_, _, _, k, hk, hused, _⟩ | ⟨hEq, _⟩
    · exact absurd hused (hunused k hk)
    · exact hEq
  rcases tfsOpen_new hs (p := slashA) (by decide) (by decide : hasFlag tfsOCreat tfsOCreat = true) hmiss hinode
      ⟨1, by omega, (hblocks 1).2 (by omega)⟩ ⟨0, by omega, hunused 0 (by omega)⟩
      ⟨0, by omega, hhandles 0⟩ with
    ⟨i, hi, hfree, b, hb, hfreeB, k, hk, _, h, hh, _, hbefore, hopen⟩
  have hzero : h = 0 := by
    by_contra hne
    have htaken := hbefore 0 (by omega)
    simp [hhandles 0] at htaken
  subst hzero
  rcases hs.openedFile (k := k) (h := 0) hi hfree hb hfreeB hk with ⟨hs₁, hlive⟩
  have hnames : NamesFile (openedFile s i b k 0 slashA.tail) (cutName slashA.tail) i :=
    namesFile_namedFile hs hi hfreeB hk (fun j hj hused => absurd hused (hunused j hj))
  have hempty : slotValue (openedFile s i b k 0 slashA.tail) (fileSlot i 0) = -1 :=
    slotValue_openedFile hs hi hfree hb hfreeB hk (by omega)
  have hentry : (openedFile s i b k 0 slashA.tail).openFileTable 0 = ⟨i, 0, 0⟩ := by simp [openedFile]
  have htaken : (openedFile s i b k 0 slashA.tail).freeOpenFileEntries 0 = .taken := by simp [openedFile]
  have hsize : ((openedFile s i b k 0 slashA.tail).inodeTable i).iSize = 0 := by
    simp [openedFile, namedFile, createdFile, preparedFile]
  have hroom : ∃ c < 1024, (openedFile s i b k 0 slashA.tail).disk.freeBlocks c = .free := by
    have hblocks₁ : (openedFile s i b k 0 slashA.tail).disk.freeBlocks =
        Function.update s.disk.freeBlocks b .taken := rfl
    by_cases hb1 : b = 1
    · exact ⟨2, by omega, by rw [hblocks₁, Function.update_of_ne (by omega)]; exact (hblocks 2).2 (by omega)⟩
    · exact ⟨1, by omega, by
        rw [hblocks₁, Function.update_of_ne (Ne.symm hb1)]; exact (hblocks 1).2 (by omega)⟩
  generalize openedFile s i b k 0 slashA.tail = s₁ at *
  -- the write of one byte gives the file its first block
  rcases writeBlocks_one (n := 1) (o := 0) (h := 0) hs₁ hlive
      (by rw [hentry]) (by omega) (by omega) (by omega) (Or.inr hroom) with ⟨c, t, hst, hwrite⟩
  have hexec : tfsWrite (0 : ℕ) (fun _ => 0x41) 1 s₁ = some (1, growFile 0 i t) := by
    rw [tfsWrite_eq hs₁ (by omega) htaken (by rw [hentry]) (by simp [hentry]) (by omega), hentry]
    exact congrArg some hwrite
  have hs₂ := hs₁.tfsWrite ⟨0, by omega, rfl, htaken⟩ hexec
  have hgrown : (growFile 0 i t).disk = t.disk ∧ ((growFile 0 i t).inodeTable i).iSize = 1 := by
    have hoff : (t.openFileTable 0).ofOffset = 1 := by simp [hst.openFileTable]
    have hsizeT : (t.inodeTable i).iSize = 0 := (hst.sizes i).trans hsize
    simp [growFile, hoff, hsizeT]
  have hslot := hs₁.isSlot_fileSlot hlive (k := 0) (by omega)
  have hnames₂ : NamesFile (growFile 0 i t) (cutName slashA.tail) i := by
    apply hnames.congr
    rw [hgrown.1]
    exact hst.sameRoot hs₁ hslot (fileSlot_ne_root hlive.1 0)
  have hlookup : tfsLookup (some slashA) (growFile 0 i t) = i := by
    apply NamesFile.tfsLookup hs₂ ?_ (by decide)
    rwa [cutName_of_le (by decide)] at hnames₂
  -- the open that truncates has an outcome, whatever it is
  have hvalid : validPathname (some slashA) = true := by decide
  have hfound : (i : ℤ) ≥ 0 := by omega
  have hlast : exec (.open (some slashA) tfsOTrunc) (growFile 0 i t) =
      some (⟨(openExisting i tfsOTrunc (growFile 0 i t)).1, []⟩,
        (openExisting i tfsOTrunc (growFile 0 i t)).2) := by
    simp [exec, Tfs.tfsOpen, hvalid, hlookup, hfound]
  refine ⟨[(growFile 0 i t, .open (some slashA) tfsOTrunc), (s₁, .write 0 (fun _ => 0x41) 1),
    (s, .open (some slashA) tfsOCreat)], (openExisting i tfsOTrunc (growFile 0 i t)).2, ?_, rfl, ?_⟩
  · refine (((System.Execution.start (s := s) hinit.symm).next ?_).next ?_).next ?_
    · exact ⟨trivial, ⟨((0 : ℕ) : ℤ), []⟩, by simp [fileSystem, exec, hopen]⟩
    · exact ⟨⟨0, by omega, rfl, htaken⟩, ⟨1, []⟩, by simpa [fileSystem, exec] using hexec⟩
    · exact ⟨trivial, _, hlast⟩
  · have htrunc : Truncates tfsOTrunc i (growFile 0 i t) := ⟨by decide, by omega⟩
    exact not_blockLaw_of_truncatesFile hs₂ (a := .open (some slashA) tfsOTrunc) ⟨i, hlookup, htrunc⟩
      hlast

theorem truncatesFile_open {s : State} {name : Path} {flags : ℤ} :
    TruncatesFile s (.open name flags) ↔
      0 ≤ tfsLookup name s ∧ Truncates flags (tfsLookup name s).toNat s := by
  constructor
  · rintro ⟨i, hlookup, htrunc⟩
    rw [hlookup]
    exact ⟨Int.natCast_nonneg i, htrunc⟩
  · rintro ⟨hfound, htrunc⟩
    exact ⟨_, (Int.toNat_of_nonneg hfound).symm, htrunc⟩

instance (s : State) (flags : ℤ) (i : ℕ) : Decidable (Truncates flags i s) :=
  inferInstanceAs (Decidable (_ ∧ _))

instance (s : State) (a : Call) : Decidable (TruncatesFile s a) :=
  match a with
  | .open _ _ => decidable_of_iff _ truncatesFile_open.symm
  | .close _ => inferInstanceAs (Decidable False)
  | .write _ _ _ => inferInstanceAs (Decidable False)
  | .read _ _ => inferInstanceAs (Decidable False)

instance (h : List (State × Call)) : Decidable (System.EachStep (fun s a => ¬ TruncatesFile s a) h) :=
  inferInstanceAs (Decidable (∀ _ ∈ h, _))

/-- Write one byte to `/a`, and open the new file `/b`, still empty, with `TFS_O_TRUNC`. -/
def truncateEmpty : List Call :=
  [.open (some slashA) tfsOCreat, .write 0 (fun _ => 0x41) 1,
    .open (some slashB) tfsOCreat, .open (some slashB) tfsOTrunc]

theorem performAll_truncateEmpty :
    (System.performAll (fileSystem.record OnOpenHandle) truncateEmpty ([], tfsInit.2)).any
      (fun x => System.EachStep (fun s a => ¬ TruncatesFile s a) x.1 ∧
        (x.2.inodeTable 1).iSize = 1 ∧ tfsLookup (some slashB) x.2 = 2) = true := by
  rw [tfsInit_eq]
  decide +kernel

theorem blockLaw_iff_no_truncation_truncateEmpty : ∃ h s, properCalls.Execution h s ∧
    h.map Prod.snd = truncateEmpty.reverse ∧ (s.inodeTable 1).iSize = 1 ∧
    tfsLookup (some slashB) s = 2 ∧ System.Always BlockLaw h s := by
  rcases Machine.execution_of_any performAll_truncateEmpty with ⟨h, s, he, hlabels, hC, hsize, hfound⟩
  exact ⟨h, s, he, hlabels, hsize, hfound, (blockLaw_iff_no_truncation he).2 hC⟩

end Tfs
end TecnicoFs
