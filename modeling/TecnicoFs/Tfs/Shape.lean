import TecnicoFs.Tfs.Ownership

/-!
# Multi-block shape — what every call keeps, whatever the blocks hold

The invariant of block ownership is lost at the first truncation, and a write through a handle that is not
open can reach the root directory.  Some facts survive all that: handles refer to i-nodes of the table,
offsets and sizes stay far below the range of an `int`, and i-node 0 remains a directory in block 0.
-/

namespace TecnicoFs
namespace Tfs

open Lib

/-! ## What a transfer moves -/

/-- From `s` to `t`, the offset of handle `h` became `offset`, and only empty slots changed. -/
structure Moved (s : State) (h offset : ℕ) (t : State) : Prop extends SameNodes s t where
  sizes : ∀ j, (t.inodeTable j).iSize = (s.inodeTable j).iSize
  blocks : ∀ j k, (s.inodeTable j).iDataBlock k ≠ -1 →
    (t.inodeTable j).iDataBlock k = (s.inodeTable j).iDataBlock k
  openFileTable : t.openFileTable =
    Function.update s.openFileTable h { s.openFileTable h with ofOffset := offset }
  freeOpenFileEntries : t.freeOpenFileEntries = s.freeOpenFileEntries

namespace Moved

variable {s t u : State} {h offset offset' : ℕ}

theorem of_disk (h : ℕ) (hinodes : t.inodeTable = s.inodeTable) (hfree : t.freeinodeTs = s.freeinodeTs)
    (hopen : t.openFileTable = s.openFileTable)
    (hfreeOpen : t.freeOpenFileEntries = s.freeOpenFileEntries) :
    Moved s h (s.openFileTable h).ofOffset t := by
  refine ⟨⟨hfree, by simp [hinodes], by simp [hinodes]⟩, by simp [hinodes], by simp [hinodes], ?_,
    hfreeOpen⟩
  rw [hopen, Function.update_eq_self]

theorem refl (s : State) (h : ℕ) : Moved s h (s.openFileTable h).ofOffset s :=
  of_disk h rfl rfl rfl rfl

theorem trans (h₁ : Moved s h offset t) (h₂ : Moved t h offset' u) : Moved s h offset' u where
  toSameNodes := h₁.toSameNodes.trans h₂.toSameNodes
  sizes j := (h₂.sizes j).trans (h₁.sizes j)
  blocks := by
    intro j k hne
    have hfirst := h₁.blocks j k hne
    rw [h₂.blocks j k (by rw [hfirst]; exact hne), hfirst]
  openFileTable := by
    rw [h₂.openFileTable, h₁.openFileTable, Function.update_idem, Function.update_self]
  freeOpenFileEntries := h₂.freeOpenFileEntries.trans h₁.freeOpenFileEntries

theorem ofOffset (hm : Moved s h offset t) : (t.openFileTable h).ofOffset = offset := by
  rw [hm.openFileTable, Function.update_self]

theorem of_setEntry (s : State) (h offset : ℕ) :
    Moved s h offset (s.setEntry h { s.openFileTable h with ofOffset := offset }) :=
  ⟨⟨rfl, fun _ => rfl, fun _ => rfl⟩, fun _ => rfl, fun _ _ _ => rfl, rfl, rfl⟩

theorem of_setData (s : State) (m : Memory) (h : ℕ) :
    Moved s h (s.openFileTable h).ofOffset (s.setData m) :=
  of_disk h rfl rfl rfl rfl

end Moved

section Loops

variable {s : State} {h i toWrite : ℕ} {slots : BlockSlots}

theorem moved_allocSlot_direct (h i k : ℕ) (s : State) :
    Moved s h (s.openFileTable h).ofOffset (allocSlot (directSlots i) k s) := by
  unfold allocSlot
  rcases s.disk.dataBlockAlloc with ⟨b, d⟩
  split
  · next hempty =>
      have hempty : (s.inodeTable i).iDataBlock k = -1 := hempty
      have hslot := sameNodes_setSlot (s.setDisk d) (x := .direct i k) (by simp) b
      refine ⟨⟨rfl, hslot.iNodeType, hslot.iIndexBlock⟩, setSlot_iSize (s.setDisk d) (.direct i k) b,
        ?_, ?_, rfl⟩
      · intro j l hne
        by_cases hj : j = i
        · subst hj
          have hlk : l ≠ k := by
            rintro rfl
            exact hne hempty
          simp [directSlots, hlk]
        · simp [directSlots, hj]
      · rw [Function.update_eq_self]
        rfl
  · exact Moved.refl s h

theorem moved_allocSlot_index (h a k : ℕ) (s : State) :
    Moved s h (s.openFileTable h).ofOffset (allocSlot (indexSlots a) k s) := by
  unfold allocSlot
  rcases s.disk.dataBlockAlloc with ⟨b, d⟩
  split
  · exact Moved.of_disk h rfl rfl rfl rfl
  · exact Moved.refl s h

def WriteEnd.writen : WriteEnd → ℕ
  | .noBlock writen _ => writen
  | .done _ writen _ => writen

def WriteEnd.state : WriteEnd → State
  | .noBlock _ s => s
  | .done _ _ s => s

/-- How far a write loop moves its handle, by induction on the slots that are left.  The offset grows by the
bytes written so far at each turn, so the bound is on their sum. -/
theorem writeLoop_moves (buffer : ℕ → Byte) (toWrite : ℕ)
    (halloc : ∀ s k, Moved s h (s.openFileTable h).ofOffset (allocSlot slots k s)) (left : ℕ) :
    ∀ (index v writen : ℕ) (s : State), (s.openFileTable h).ofOffset ≤ 272384 * (v + 1) →
      writen ≤ 1024 * v → v + left ≤ 266 →
      ∃ v' ≤ v + left, ∃ offset ≤ 272384 * (v' + 1),
        (writeLoop slots h buffer toWrite left index writen s).writen ≤ 1024 * v' ∧
        Moved s h offset (writeLoop slots h buffer toWrite left index writen s).state := by
  induction left with
  | zero =>
      intro index v writen s hoff hw _
      exact ⟨v, le_rfl, _, hoff, hw, Moved.refl s h⟩
  | succ left ih =>
      intro index v writen s hoff hw hv
      rw [writeLoop]
      split
      · have hmoved := halloc s index
        rcases hget : dataBlockGet (slots.get (allocSlot slots index s) index) with _ | block
        · simp only [hget]
          exact ⟨v, by omega, _, hoff, hw, hmoved⟩
        · simp only [hget]
          have hfit := writeInBlock_fit (s.openFileTable h).ofOffset toWrite writen
          generalize writeInBlock (s.openFileTable h).ofOffset toWrite writen = n at hfit ⊢
          have hsum : sizeAdd (s.openFileTable h).ofOffset (writen + n) =
              (s.openFileTable h).ofOffset + (writen + n) := sizeAdd_of_lt (by omega)
          rw [hsum]
          -- the state after the turn
          generalize hu : State.setEntry _ h _ = u
          have hturn : Moved s h ((s.openFileTable h).ofOffset + (writen + n)) u := by
            rw [← hu]
            exact (hmoved.trans (Moved.of_setData _ _ h)).trans (Moved.of_setEntry _ h _)
          rcases ih (index + 1) (v + 1) (writen + n) u (by rw [hturn.ofOffset]; omega) (by omega)
            (by omega) with ⟨v', hv', offset, hoffset, hwriten, hrest⟩
          exact ⟨v', by omega, offset, hoffset, hwriten, hturn.trans hrest⟩
      · exact ⟨v, by omega, _, hoff, hw, Moved.refl s h⟩

/-- A write moves its handle, fills empty slots, and may set the size of its file to the new offset. -/
theorem writeBlocks_moves (i : ℕ) (buffer : ℕ → Byte) (toWrite : ℕ)
    (hoff : (s.openFileTable h).ofOffset ≤ 272384 * 267) :
    ∃ offset ≤ 272384 * 267, ∃ u, Moved s h offset u ∧
      ((writeBlocks h i buffer toWrite ((s.openFileTable h).ofOffset / 1024) s).2 = u ∨
        (writeBlocks h i buffer toWrite ((s.openFileTable h).ofOffset / 1024) s).2 = growFile h i u) := by
  have hentries : indexEntries = 256 := rfl
  generalize hk : (s.openFileTable h).ofOffset / 1024 = index
  unfold writeBlocks
  by_cases hfar : 266 ≤ index
  · rcases slotsLeft_of_le hfar with ⟨hdirect, hindirect⟩
    simp only [hdirect, writeLoop]
    rcases dataBlockGet (s.inodeTable i).iIndexBlock with _ | a
    · exact ⟨_, hoff, s, Moved.refl s h, Or.inl rfl⟩
    · simp only [hindirect, writeLoop, growFile_eq]
      exact ⟨_, hoff, s, Moved.refl s h, Or.inr rfl⟩
  · rcases writeLoop_moves buffer toWrite (fun s k => moved_allocSlot_direct h i k s)
        (directBlocksQuantity - index) index 0 0 s (by omega) (by omega)
        (by simp only [directBlocksQuantity]; omega) with ⟨v, hv, offset, hoffset, hwriten, hmoved⟩
    -- the first loop makes at most 10 turns, which the bound for the second one counts
    have hv₁ : v ≤ 10 := by
      simp only [directBlocksQuantity] at hv
      omega
    rcases hend : writeLoop (directSlots i) h buffer toWrite (directBlocksQuantity - index) index 0 s with
      ⟨w, u⟩ | ⟨index₁, w, u⟩
    · rw [hend] at hmoved
      exact ⟨offset, by omega, u, hmoved, Or.inl rfl⟩
    · rw [hend] at hmoved hwriten
      simp only [WriteEnd.state, WriteEnd.writen] at hmoved hwriten
      simp only
      rcases dataBlockGet (u.inodeTable i).iIndexBlock with _ | a
      · exact ⟨offset, by omega, u, hmoved, Or.inl rfl⟩
      · simp only
        rcases writeLoop_moves buffer toWrite (fun s k => moved_allocSlot_index h a k s)
            (indexEntries - indirectIndex index₁) (indirectIndex index₁) v w u
            (by rw [hmoved.ofOffset]; exact hoffset) hwriten (by omega) with
          ⟨v₂, hv₂, offset₂, hoffset₂, _, hmoved₂⟩
        rcases hend₂ : writeLoop (indexSlots a) h buffer toWrite (indexEntries - indirectIndex index₁)
            (indirectIndex index₁) w u with ⟨w₂, u₂⟩ | ⟨index₂, w₂, u₂⟩
        · rw [hend₂] at hmoved₂
          exact ⟨offset₂, by omega, u₂, hmoved.trans hmoved₂, Or.inl rfl⟩
        · rw [hend₂] at hmoved₂
          simp only [growFile_eq]
          exact ⟨offset₂, by omega, u₂, hmoved.trans hmoved₂, Or.inr rfl⟩

end Loops

/-! ## The shape -/

/-- What holds in every state that any calls reach. -/
structure Shape (s : State) : Prop where
  inumbers : ∀ h, ∃ i : ℕ, i < 50 ∧ (s.openFileTable h).ofInumber = i
  offsets : ∀ h, (s.openFileTable h).ofOffset ≤ 272384 * 267
  sizes : ∀ i, (s.inodeTable i).iSize ≤ 272384 * 267
  rootTaken : s.freeinodeTs 0 = .taken
  root : RootDirectory s

/-- The open file table of `t` has the handles of `s`, perhaps at other offsets. -/
structure SameHandles (s t : State) : Prop where
  taken : t.freeOpenFileEntries = s.freeOpenFileEntries
  inumber : ∀ g, (t.openFileTable g).ofInumber = (s.openFileTable g).ofInumber
  append : ∀ g, (t.openFileTable g).ofAppendFlag = (s.openFileTable g).ofAppendFlag

section Transfers

variable {s t : State} {h i offset : ℕ} {r : ℤ}

theorem SameHandles.refl (s : State) : SameHandles s s :=
  ⟨rfl, fun _ => rfl, fun _ => rfl⟩

theorem SameHandles.trans {u : State} (h₁ : SameHandles s t) (h₂ : SameHandles t u) : SameHandles s u where
  taken := h₂.taken.trans h₁.taken
  inumber g := (h₂.inumber g).trans (h₁.inumber g)
  append g := (h₂.append g).trans (h₁.append g)

theorem Moved.sameHandles (hm : Moved s h offset t) : SameHandles s t := by
  refine ⟨hm.freeOpenFileEntries, ?_, ?_⟩
  · intro g
    by_cases hgh : g = h
    · subst hgh
      simp [hm.openFileTable]
    · simp [hm.openFileTable, hgh]
  · intro g
    by_cases hgh : g = h
    · subst hgh
      simp [hm.openFileTable]
    · simp [hm.openFileTable, hgh]

theorem Moved.shape (hm : Moved s h offset t) (hs : Shape s) (hoff : offset ≤ 272384 * 267) : Shape t where
  inumbers g := by
    rw [hm.sameHandles.inumber]
    exact hs.inumbers g
  offsets g := by
    by_cases hgh : g = h
    · subst hgh
      rw [hm.ofOffset]
      exact hoff
    · rw [hm.openFileTable, Function.update_of_ne hgh]
      exact hs.offsets g
  sizes i := by
    rw [hm.sizes]
    exact hs.sizes i
  rootTaken := by
    rw [hm.freeinodeTs]
    exact hs.rootTaken
  root := by
    refine ⟨(hm.iNodeType 0).trans hs.root.iNodeType, ?_⟩
    rw [hm.blocks 0 0 (by rw [hs.root.firstBlock]; decide)]
    exact hs.root.firstBlock

theorem Shape.setSize (hs : Shape s) {n : ℕ} (hn : n ≤ 272384 * 267) :
    Shape (s.setInode i { s.inodeTable i with iSize := n }) where
  inumbers := hs.inumbers
  offsets := hs.offsets
  sizes j := by
    by_cases hji : j = i
    · subst hji
      simpa using hn
    · simpa [hji] using hs.sizes j
  rootTaken := hs.rootTaken
  root := by
    by_cases hi : i = 0
    · subst hi
      exact ⟨by simpa using hs.root.iNodeType, by simpa using hs.root.firstBlock⟩
    · exact ⟨by simpa [Ne.symm hi] using hs.root.iNodeType,
        by simpa [Ne.symm hi] using hs.root.firstBlock⟩

theorem Shape.growFile (hs : Shape s) (h i : ℕ) : Shape (growFile h i s) := by
  unfold Tfs.growFile
  split
  · exact hs.setSize (hs.offsets h)
  · exact hs

theorem sameHandles_growFile (h i : ℕ) (s : State) : SameHandles s (growFile h i s) := by
  unfold growFile
  split
  · exact ⟨rfl, fun _ => rfl, fun _ => rfl⟩
  · exact SameHandles.refl s

theorem moved_seekForAppend (h i : ℕ) (s : State) :
    Moved s h (if (s.openFileTable h).ofAppendFlag = 1 then (s.inodeTable i).iSize
      else (s.openFileTable h).ofOffset) (seekForAppend h i s) := by
  unfold seekForAppend
  split
  · exact Moved.of_setEntry s h _
  · exact Moved.refl s h

/-- A write keeps the shape and the handles, and always has an outcome. -/
theorem Shape.tfsWrite (hs : Shape s) (fhandle : ℤ) (buffer : ℕ → Byte) (n : ℕ) :
    ∃ r t, tfsWrite fhandle buffer n s = some (r, t) ∧ Shape t ∧ SameHandles s t := by
  unfold Tfs.tfsWrite
  rcases hget : getOpenFileEntry fhandle with _ | h
  · exact ⟨-1, s, rfl, hs, SameHandles.refl s⟩
  rcases hs.inumbers h with ⟨i, hi, hnum⟩
  simp only
  split
  · exact ⟨-1, s, rfl, hs, SameHandles.refl s⟩
  simp only [hnum, inodeGet_natCast hi]
  have hseek := moved_seekForAppend h i s
  -- an appending handle starts at the size, which is bounded as the offsets are
  have hbound : (if (s.openFileTable h).ofAppendFlag = 1 then (s.inodeTable i).iSize
      else (s.openFileTable h).ofOffset) ≤ 272384 * 267 := by
    split
    · exact hs.sizes i
    · exact hs.offsets h
  have hs₁ := hseek.shape hs hbound
  have hoff := hs₁.offsets h
  rw [blockIndex_of_lt (by omega), if_neg (by omega), Int.toNat_natCast]
  rcases writeBlocks_moves i buffer n hoff with ⟨offset, hoffset, u, hmoved, hcase⟩
  have hboth : Shape u ∧ SameHandles s u :=
    ⟨hmoved.shape hs₁ hoffset, hseek.sameHandles.trans hmoved.sameHandles⟩
  rcases hw : writeBlocks h i buffer n (((Tfs.seekForAppend h i s).openFileTable h).ofOffset / 1024)
    (Tfs.seekForAppend h i s) with ⟨r, t⟩
  rw [hw] at hcase
  refine ⟨r, t, rfl, ?_⟩
  rcases hcase with rfl | rfl
  · exact hboth
  · exact ⟨hboth.1.growFile h i, hboth.2.trans (sameHandles_growFile h i u)⟩

/-- A read keeps the shape and the handles, and always has an outcome. -/
theorem Shape.tfsRead (hs : Shape s) (fhandle : ℤ) (len : ℕ) :
    ∃ r out t, tfsRead fhandle len s = some (r, out, t) ∧ Shape t ∧ SameHandles s t := by
  unfold Tfs.tfsRead
  rcases hget : getOpenFileEntry fhandle with _ | h
  · exact ⟨-1, [], s, rfl, hs, SameHandles.refl s⟩
  rcases hs.inumbers h with ⟨i, hi, hnum⟩
  simp only [hnum, inodeGet_natCast hi]
  have hclamp := Moved.of_setEntry s h (min (s.openFileTable h).ofOffset (s.inodeTable i).iSize)
  rw [← clampOffset_eq] at hclamp
  have hbound : min (s.openFileTable h).ofOffset (s.inodeTable i).iSize ≤ 272384 * 267 :=
    (min_le_left _ _).trans (hs.offsets h)
  have hs₁ := hclamp.shape hs hbound
  generalize clampOffset h i s = u at hclamp hs₁ ⊢
  have hoff := hs₁.offsets h
  rw [blockIndex_of_lt (by omega), if_neg (by omega), Int.toNat_natCast]
  rcases hread : readBlocks h i _ ((u.openFileTable h).ofOffset / 1024) u with ⟨r, out, t⟩
  refine ⟨r, out, t, rfl, ?_⟩
  by_cases hfar : 266 ≤ (u.openFileTable h).ofOffset / 1024
  · rw [readBlocks_far hfar hread]
    exact ⟨hs₁, hclamp.sameHandles⟩
  · rcases readBlocks_moves (by omega) hread with ⟨offset, hoffset, rfl⟩
    have hmoved := Moved.of_setEntry u h offset
    exact ⟨hmoved.shape hs₁ hoffset, hclamp.sameHandles.trans hmoved.sameHandles⟩

end Transfers

/-! ## Opens and closes -/

/-- From `s` to `t` no handle moved, no file grew, and the root directory stayed. -/
structure Undisturbed (s t : State) : Prop where
  openFileTable : t.openFileTable = s.openFileTable
  freeOpenFileEntries : t.freeOpenFileEntries = s.freeOpenFileEntries
  sizes : ∀ i, (t.inodeTable i).iSize ≤ (s.inodeTable i).iSize
  rootTaken : t.freeinodeTs 0 = s.freeinodeTs 0
  iNodeType : (t.inodeTable 0).iNodeType = (s.inodeTable 0).iNodeType
  firstBlock : (t.inodeTable 0).iDataBlock 0 = (s.inodeTable 0).iDataBlock 0

section Opens

variable {s t u : State} {i b k : ℕ} {r : ℤ}

theorem Undisturbed.refl (s : State) : Undisturbed s s :=
  ⟨rfl, rfl, fun _ => le_rfl, rfl, rfl, rfl⟩

theorem Undisturbed.trans (h₁ : Undisturbed s t) (h₂ : Undisturbed t u) : Undisturbed s u where
  openFileTable := h₂.openFileTable.trans h₁.openFileTable
  freeOpenFileEntries := h₂.freeOpenFileEntries.trans h₁.freeOpenFileEntries
  sizes i := (h₂.sizes i).trans (h₁.sizes i)
  rootTaken := h₂.rootTaken.trans h₁.rootTaken
  iNodeType := h₂.iNodeType.trans h₁.iNodeType
  firstBlock := h₂.firstBlock.trans h₁.firstBlock

theorem Undisturbed.shape (h : Undisturbed s t) (hs : Shape s) : Shape t where
  inumbers g := by
    rw [h.openFileTable]
    exact hs.inumbers g
  offsets g := by
    rw [h.openFileTable]
    exact hs.offsets g
  sizes i := (h.sizes i).trans (hs.sizes i)
  rootTaken := h.rootTaken.trans hs.rootTaken
  root := ⟨h.iNodeType.trans hs.root.iNodeType, h.firstBlock.trans hs.root.firstBlock⟩

/-- An i-node other than the root directory's may get any contents of size 0. -/
theorem Undisturbed.of_newNode {n : Inode} (hi : 0 < i) (hn : n.iSize = 0)
    (hopen : t.openFileTable = s.openFileTable) (hfreeOpen : t.freeOpenFileEntries = s.freeOpenFileEntries)
    (hnodes : t.inodeTable = Function.update s.inodeTable i n)
    (hroot : t.freeinodeTs 0 = s.freeinodeTs 0) : Undisturbed s t := by
  have hne : (0 : ℕ) ≠ i := by omega
  refine ⟨hopen, hfreeOpen, ?_, hroot, by simp [hnodes, hne], by simp [hnodes, hne]⟩
  intro j
  by_cases hj : j = i
  · subst hj
    simp [hnodes, hn]
  · simp [hnodes, hj]

theorem Shape.pos_of_free (hs : Shape s) (hfree : s.freeinodeTs i = .free) : 0 < i := by
  by_contra hi
  have hzero : i = 0 := by omega
  subst hzero
  simp [hs.rootTaken] at hfree

/-- The creating branch of `tfs_open` adds a handle at offset 0, or fails. -/
theorem Shape.openCreate (hs : Shape s) {path : Path} (hvalid : validPathname path = true) :
    ∃ r t u, openCreate path s = some (r, t) ∧ Undisturbed s u ∧
      ((r = -1 ∧ t = u) ∨ ∃ i : ℕ, i < 50 ∧ (r, t) = addToOpenFileTable i 0 0 u) := by
  unfold Tfs.openCreate
  rcases inodeCreate_file_cases s with ⟨_, hEq⟩ | ⟨i, hi, hfree, hblocks⟩
  · simp only [hEq, if_true]
    exact ⟨-1, s, s, rfl, Undisturbed.refl s, Or.inl ⟨rfl, rfl⟩⟩
  have hpos := hs.pos_of_free hfree
  have hne : (0 : ℕ) ≠ i := by omega
  rcases hblocks with ⟨_, hEq⟩ | ⟨b, hb, hfreeB, hEq⟩
  · simp only [hEq, if_true]
    refine ⟨-1, _, blocklessFile s i, rfl, ?_, Or.inl ⟨rfl, rfl⟩⟩
    exact Undisturbed.of_newNode (n := ⟨.file, 0, fun _ => -1, -1⟩) hpos rfl rfl rfl rfl
      (by simp [blocklessFile, hne])
  · -- the new i-node and its block were free, so nothing that is open sees them
    have hcreated : Undisturbed s (createdFile s i b) :=
      Undisturbed.of_newNode (n := ⟨.file, 0, fun _ => -1, b⟩) hpos rfl rfl rfl rfl
        (by simp [createdFile, preparedFile, hne])
    have hnum : ¬ (i : ℤ) = -1 := by omega
    simp only [hEq, if_neg hnum]
    rcases afterSlash_of_valid hvalid with ⟨p, _, hname, _⟩
    simp only [hname]
    rcases hadd : addDirEntry rootDirInum i (some p.tail) (createdFile s i b) with _ | ⟨r, t⟩
    · rw [addDirEntry_root (hcreated.shape hs).root hi, Option.bind_some] at hadd
      split at hadd
      · cases hadd
      · split at hadd <;> cases hadd
    · rcases addDirEntry_root_cases (hcreated.shape hs).root hi hadd with ⟨_, _, hcases⟩
      rcases hcases with ⟨_, rfl, rfl⟩ | ⟨k, _, _, _, rfl, rfl⟩
      · -- no room in the directory: the i-node is given back
        simp only [if_true, inodeDelete_createdFile hi hfree hb hfreeB]
        refine ⟨-1, _, preparedFile s i b, rfl, ?_, Or.inl ⟨rfl, rfl⟩⟩
        exact Undisturbed.of_newNode (n := ⟨.file, 0, fun _ => -1, b⟩) hpos rfl rfl rfl rfl rfl
      · refine ⟨_, _, namedFile (createdFile s i b) k i _, rfl, hcreated.trans ?_, Or.inr ⟨i, hi, rfl⟩⟩
        exact ⟨rfl, rfl, fun _ => le_rfl, rfl, rfl, rfl⟩

theorem undisturbed_truncate (s : State) (d : Disk) (i : ℕ) :
    Undisturbed s ((s.setDisk d).setInode i { s.inodeTable i with iSize := 0 }) := by
  refine ⟨rfl, rfl, ?_, rfl, ?_, ?_⟩
  · intro j
    by_cases hj : j = i
    · subst hj
      simp
    · simp [hj]
  · by_cases hi : 0 = i
    · subst hi
      simp
    · simp [hi]
  · by_cases hi : 0 = i
    · subst hi
      simp
    · simp [hi]

/-- The branch of `tfs_open` for a name that was found adds a handle, or fails; a truncation before that
does not matter for the handles. -/
theorem openExisting_outcome (inum flags : ℤ) (s : State) :
    ∃ u, Undisturbed s u ∧ (((openExisting inum flags s).1 = -1 ∧ (openExisting inum flags s).2 = u) ∨
      ∃ i : ℕ, i < 50 ∧ openExisting inum flags s =
        if hasFlag flags tfsOAppend then addToOpenFileTable i (u.inodeTable i).iSize 1 u
        else addToOpenFileTable i 0 0 u) := by
  unfold openExisting truncateFile
  rcases hget : inodeGet inum with _ | i
  · exact ⟨s, Undisturbed.refl s, Or.inl ⟨rfl, rfl⟩⟩
  rcases inodeGet_eq_some.1 hget with ⟨rfl, hi⟩
  simp only
  by_cases htrunc : hasFlag flags tfsOTrunc = true ∧ (s.inodeTable i).iSize > 0
  · simp only [htrunc, and_self, if_true]
    rcases inodeDatablocksErase (s.inodeTable i) s.disk with ⟨r, d⟩
    by_cases hr : r = -1
    · subst hr
      exact ⟨s.setDisk d, ⟨rfl, rfl, fun _ => le_rfl, rfl, rfl, rfl⟩, Or.inl ⟨rfl, rfl⟩⟩
    · simp only [hr, if_false]
      exact ⟨_, undisturbed_truncate s d i, Or.inr ⟨i, hi, rfl⟩⟩
  · simp only [htrunc, if_false]
    exact ⟨s, Undisturbed.refl s, Or.inr ⟨i, hi, rfl⟩⟩

/-- `tfs_open` adds a handle, or fails.  The handle appends iff the flags say so and the file was there. -/
theorem Shape.tfsOpen (hs : Shape s) (path : Path) (flags : ℤ) :
    ∃ r t u, tfsOpen path flags s = some (r, t) ∧ Undisturbed s u ∧ ((r = -1 ∧ t = u) ∨
      ∃ (i offset : ℕ) (append : ℤ), i < 50 ∧ offset ≤ 272384 * 267 ∧
        (append = 1 ↔ 0 ≤ tfsLookup path s ∧ hasFlag flags tfsOAppend = true) ∧
        (r, t) = addToOpenFileTable i offset append u) := by
  unfold Tfs.tfsOpen
  by_cases hvalid : validPathname path = true
  · simp only [hvalid, Bool.not_true, Bool.false_eq_true, if_false]
    by_cases hfound : tfsLookup path s ≥ 0
    · simp only [hfound, if_true]
      -- the file exists: it may be truncated, and appending starts at its end
      rcases openExisting_outcome (tfsLookup path s) flags s with ⟨u, hu, hcase⟩
      rcases hopen : openExisting (tfsLookup path s) flags s with ⟨r, t⟩
      rw [hopen] at hcase
      refine ⟨r, t, u, rfl, hu, ?_⟩
      rcases hcase with hfail | ⟨i, hi, hEq⟩
      · exact Or.inl hfail
      · right
        by_cases happend : hasFlag flags tfsOAppend = true
        · rw [if_pos happend] at hEq
          exact ⟨i, _, 1, hi, (hu.shape hs).sizes i, by simp [happend], hEq⟩
        · rw [if_neg happend] at hEq
          exact ⟨i, 0, 0, hi, by omega, by simp [happend], hEq⟩
    · simp only [hfound, if_false]
      -- a created file is never opened for appending
      by_cases hcreat : hasFlag flags tfsOCreat = true
      · simp only [hcreat, if_true]
        rcases hs.openCreate hvalid with ⟨r, t, u, hEq, hu, hcase | ⟨i, hi, hadd⟩⟩
        · exact ⟨r, t, u, hEq, hu, Or.inl hcase⟩
        · refine ⟨r, t, u, hEq, hu, Or.inr ⟨i, 0, 0, hi, by omega, ?_, hadd⟩⟩
          simp
      · simp only [hcreat, if_false, Bool.false_eq_true]
        exact ⟨-1, s, s, rfl, Undisturbed.refl s, Or.inl ⟨rfl, rfl⟩⟩
  · simp only [hvalid, Bool.not_false, if_true]
    exact ⟨-1, s, s, rfl, Undisturbed.refl s, Or.inl ⟨rfl, rfl⟩⟩

theorem Shape.addToOpenFileTable (hs : Shape s) (hi : i < 50) {offset : ℕ} (hoff : offset ≤ 272384 * 267)
    (append : ℤ) : Shape (addToOpenFileTable i offset append s).2 := by
  rcases addToOpenFileTable_cases i offset append s with ⟨h, _, _, _, hEq⟩ | ⟨_, hEq⟩
  · rw [hEq]
    refine ⟨?_, ?_, hs.sizes, hs.rootTaken, ⟨hs.root.iNodeType, hs.root.firstBlock⟩⟩
    · intro g
      by_cases hg : g = h
      · subst hg
        exact ⟨i, hi, by simp⟩
      · simpa [hg] using hs.inumbers g
    · intro g
      by_cases hg : g = h
      · subst hg
        simpa using hoff
      · simpa [hg] using hs.offsets g
  · rw [hEq]
    exact hs

theorem Shape.tfsClose (hs : Shape s) (fhandle : ℤ) : Shape (tfsClose fhandle s).2 := by
  unfold Tfs.tfsClose removeFromOpenFileTable
  split
  · exact hs
  · exact ⟨hs.inumbers, hs.offsets, hs.sizes, hs.rootTaken, ⟨hs.root.iNodeType, hs.root.firstBlock⟩⟩

end Opens

/-! ## Every run -/

theorem Shape.exec {s : State} (hs : Shape s) (a : Call) :
    ∃ reply t, exec a s = some (reply, t) ∧ Shape t := by
  cases a with
  | «open» path flags =>
      rcases hs.tfsOpen path flags with ⟨r, t, u, hEq, hu, hcase⟩
      refine ⟨⟨r, []⟩, t, by simp [Tfs.exec, hEq], ?_⟩
      rcases hcase with ⟨_, rfl⟩ | ⟨i, offset, append, hi, hoff, _, hadd⟩
      · exact hu.shape hs
      · have hshape := (hu.shape hs).addToOpenFileTable hi hoff append
        rw [← hadd] at hshape
        exact hshape
  | close fhandle => exact ⟨_, _, rfl, hs.tfsClose fhandle⟩
  | write fhandle buffer n =>
      rcases hs.tfsWrite fhandle buffer n with ⟨r, t, hEq, hshape, _⟩
      exact ⟨⟨r, []⟩, t, by simp [Tfs.exec, hEq], hshape⟩
  | read fhandle n =>
      rcases hs.tfsRead fhandle n with ⟨r, out, t, hEq, hshape, _⟩
      exact ⟨⟨r, out⟩, t, by simp [Tfs.exec, hEq], hshape⟩

theorem shape_tfsInit : Shape tfsInit.2 := by
  rw [tfsInit_eq]
  refine ⟨fun h => ⟨0, by omega, rfl⟩, fun h => by simp [stateInit, staticState], ?_, rfl, rfl, rfl⟩
  intro i
  by_cases hi : i = 0
  · subst hi
    simp [rootInode]
  · simp [hi, staticState]

/-- Any calls, with any arguments. -/
def anyCalls : System State Call :=
  fileSystem.toSystem tfsInit.2 fun _ _ => True

theorem anyCalls_of_proper {hist : List (State × Call)} {s : State} (he : properCalls.Execution hist s) :
    anyCalls.Execution hist s := by
  induction he with
  | start h0 => exact .start h0
  | next _ hstep ih => exact ih.next ⟨trivial, hstep.2⟩

/-- Whatever calls are made, with whatever handles. -/
theorem shape_of_execution {allowed : State → Call → Prop} {hist : List (State × Call)} {s : State}
    (he : (fileSystem.toSystem tfsInit.2 allowed).Execution hist s) : Shape s := by
  refine System.Reachable.invariant ?_ ?_ ⟨hist, he⟩
  · intro s hinit
    rw [show s = tfsInit.2 from hinit]
    exact shape_tfsInit
  · rintro s a t hs ⟨_, r, hexec⟩
    rcases hs.exec a with ⟨reply, t', hEq, hshape⟩
    have hsame : exec a s = some (r, t) := hexec
    rw [hEq] at hsame
    cases hsame
    exact hshape

end Tfs
end TecnicoFs
