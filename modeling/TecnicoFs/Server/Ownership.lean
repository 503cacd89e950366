import TecnicoFs.Server.Invariant

/-!
# Server ownership — every call keeps the invariant

The calls are taken apart into the few updates they are made of: truncating an i-node, adding an entry to
the open file table, creating an i-node, filling a directory entry, undoing a creation, and the copy of a
write.  Each update keeps `Inv`, and a call is a composition of updates.
-/

namespace TecnicoFs
namespace Server

open Lib

/-! ## Truncation and new handles -/

section Open

variable {s t : State} {i : ℕ} {flags r : ℤ}

/-- The state after the truncation that `tfs_open` makes if it is asked for and the file is not empty. -/
def truncateIf (flags : ℤ) (i : ℕ) (s : State) : State :=
  if hasFlag flags tfsOTrunc ∧ (s.inodeTable i).iSize > 0 then
    (s.setDisk (s.disk.markBlock (s.inodeTable i).iDataBlock.toNat .free)).setInode i
      { s.inodeTable i with iSize := 0 }
  else
    s

/-- The offset of the handle that `tfs_open` gives on an existing file. -/
def openOffset (flags : ℤ) (i : ℕ) (s : State) : ℕ :=
  if hasFlag flags tfsOAppend then ((truncateIf flags i s).inodeTable i).iSize else 0

theorem openExisting_eq (hi : i < 50)
    (hvalid : 0 < (s.inodeTable i).iSize → ∃ b : ℕ, b < 1024 ∧ (s.inodeTable i).iDataBlock = b) :
    openExisting i flags s =
      addToOpenFileTable i (openOffset flags i s) (truncateIf flags i s) := by
  unfold openExisting truncateFile openOffset truncateIf
  rw [inodeGet_natCast hi]
  by_cases htrunc : hasFlag flags tfsOTrunc ∧ (s.inodeTable i).iSize > 0
  · rcases hvalid htrunc.2 with ⟨b, hb, hEq⟩
    simp [htrunc, hEq, Disk.dataBlockFree_of_valid hb]
  · simp [htrunc]

@[simp] theorem truncateIf_fsData (flags : ℤ) (i : ℕ) (s : State) :
    (truncateIf flags i s).disk.fsData = s.disk.fsData := by
  unfold truncateIf
  split <;> rfl

@[simp] theorem truncateIf_freeinodeTs (flags : ℤ) (i : ℕ) (s : State) :
    (truncateIf flags i s).freeinodeTs = s.freeinodeTs := by
  unfold truncateIf
  split <;> rfl

@[simp] theorem truncateIf_openFileTable (flags : ℤ) (i : ℕ) (s : State) :
    (truncateIf flags i s).openFileTable = s.openFileTable := by
  unfold truncateIf
  split <;> rfl

@[simp] theorem truncateIf_freeOpenFileEntries (flags : ℤ) (i : ℕ) (s : State) :
    (truncateIf flags i s).freeOpenFileEntries = s.freeOpenFileEntries := by
  unfold truncateIf
  split <;> rfl

@[simp] theorem truncateIf_stateClosing (flags : ℤ) (i : ℕ) (s : State) :
    (truncateIf flags i s).stateClosing = s.stateClosing := by
  unfold truncateIf
  split <;> rfl

theorem truncateIf_size_le :
    ((truncateIf flags i s).inodeTable i).iSize ≤ (s.inodeTable i).iSize := by
  unfold truncateIf
  split <;> simp

theorem Inv.truncateIf (hs : Inv s) (hi : Named s i) : Inv (truncateIf flags i s) := by
  by_cases htrunc : hasFlag flags tfsOTrunc ∧ (s.inodeTable i).iSize > 0
  · rcases hs.of_named hi with ⟨hpos, halloc⟩
    rcases hs.valid i halloc htrunc.2 with ⟨b, hb, hEq⟩
    have hunfold : Server.truncateIf flags i s =
        (s.setDisk (s.disk.markBlock b .free)).setInode i { s.inodeTable i with iSize := 0 } := by
      simp [Server.truncateIf, htrunc, hEq]
    rw [hunfold]
    have howns : Owns s i b := ⟨halloc, hEq, htrunc.2⟩
    -- only i-node i gives its block up, and every other directory entry and handle stays
    apply hs.of_file hi
    · rfl
    · intro j hj
      simp [hj]
    · exact SameBlock.refl _ _
    · apply hs.blocks.release (fun j => j = i)
      · intro j c
        by_cases hji : j = i
        · subst hji
          simp [Owns]
        · simp [Owns, Allocated, hji]
      · intro c
        -- b is the one block that i has, so it is the one that is freed
        have hunique : (∀ j, j = i → ¬ Owns s j c) ↔ c ≠ b := by
          constructor
          · rintro h rfl
            exact h i rfl howns
          · rintro hcb j rfl hj
            have hcEq : (c : ℤ) = b := hj.2.1.symm.trans hEq
            omega
        rw [hunique]
        by_cases hcb : c = b
        · subst hcb
          simp [BlockTaken]
        · simp [BlockTaken, Disk.markBlock_freeBlocks_of_ne hcb, hcb]
    · simp
    · simp
    · simpa using (hs.files i hpos halloc).2
    · simp
    · intro h hh htaken
      exact hs.handles h hh htaken
  · have hsame : Server.truncateIf flags i s = s := by simp [Server.truncateIf, htrunc]
    rw [hsame]
    exact hs

theorem Named.truncateIf (hi : Named s i) : Named (truncateIf flags i s) i := by
  refine (Named.congr ?_).2 hi
  rw [truncateIf_fsData]
  exact SameBlock.refl _ _

theorem Inv.addToOpenFileTable (hs : Inv s) (hi : Named s i) {offset : ℕ}
    (hoff : offset ≤ 1048576) : Inv (addToOpenFileTable i offset s).2 := by
  rcases addToOpenFileTable_cases i offset s with ⟨h, _, _, _, hEq⟩ | ⟨_, hEq⟩
  · rw [hEq]
    refine hs.of_handles (t := addedHandle s h i offset) rfl rfl rfl ?_
    intro g hg htaken
    by_cases hgh : g = h
    · subst hgh
      simpa [addedHandle, EntryOk] using And.intro hoff hi
    · have htaken' : s.freeOpenFileEntries g = .taken := by
        simpa [addedHandle, hgh] using htaken
      simpa [addedHandle, hgh] using hs.handles g hg htaken'
  · rw [hEq]
    exact hs

theorem Inv.openExisting (hs : Inv s) (flags : ℤ) (hi : Named s i) : Inv (openExisting i flags s).2 := by
  have halloc := (hs.of_named hi).2
  rw [openExisting_eq halloc.1 (hs.valid i halloc)]
  apply (hs.truncateIf hi).addToOpenFileTable hi.truncateIf
  unfold openOffset
  split
  · have hle : ((Server.truncateIf flags i s).inodeTable i).iSize ≤ (s.inodeTable i).iSize :=
      truncateIf_size_le
    have hsize := hs.sizes i halloc
    omega
  · omega

end Open

/-! ## Creation -/

section Create

variable {s t : State} {i : ℕ} {r : ℤ}

theorem Inv.not_named_of_free (hs : Inv s) (hfree : s.freeinodeTs i = .free) : ¬ Named s i := by
  intro hn
  have htaken := (hs.of_named hn).2.2
  simp [hfree] at htaken

/-- The root's i-node is never free. -/
theorem Inv.pos_of_free (hs : Inv s) (hfree : s.freeinodeTs i = .free) : 0 < i := by
  by_contra h
  have hzero : i = 0 := by omega
  subst hzero
  have htaken := hs.root.1.2
  simp [hfree] at htaken

theorem Inv.createdInode (hs : Inv s) (hi : i < 50) (hfree : s.freeinodeTs i = .free) :
    Inv (createdInode s i) := by
  have hpos : 0 < i := hs.pos_of_free hfree
  have hnode : (Server.createdInode s i).inodeTable i = ⟨.file, 0, -1⟩ := by simp [Server.createdInode]
  have hother : ∀ j, j ≠ i → (Server.createdInode s i).inodeTable j = s.inodeTable j := by
    intro j hj
    simp [Server.createdInode, hj]
  have halloc : ∀ j, j ≠ i → (Allocated (Server.createdInode s i) j ↔ Allocated s j) := by
    intro j hj
    simp [Server.createdInode, Allocated, hj]
  -- the new i-node owns no block; every other one is as it was
  have hnot : ¬ Allocated s i := fun h => by simp [h.2] at hfree
  have hdir : SameBlock s.disk.fsData (Server.createdInode s i).disk.fsData 0 := SameBlock.refl _ _
  constructor
  · apply hs.blocks.congr
    · intro j c
      by_cases hji : j = i
      · subst hji
        simp [Owns, hnode, hnot]
      · simp [Owns, hother j hji, halloc j hji]
    · intro c
      rfl
  · intro j hj
    by_cases hji : j = i
    · subst hji
      simp [hnode]
    · rw [hother j hji]
      exact hs.valid j ((halloc j hji).1 hj)
  · rw [halloc 0 (by omega), hother 0 (by omega)]
    exact hs.root
  · intro j hj hallocJ
    by_cases hji : j = i
    · subst hji
      simp [hnode]
    · rw [hother j hji]
      exact hs.files j hj ((halloc j hji).1 hallocJ)
  · intro j hj
    by_cases hji : j = i
    · subst hji
      simp [hnode]
    · rw [hother j hji]
      exact hs.sizes j ((halloc j hji).1 hj)
  · intro k hk hused
    rcases hs.entries k hk hused with ⟨j, hj, hallocJ, hnum⟩
    have hji : j ≠ i := fun h => hnot (h ▸ hallocJ)
    exact ⟨j, hj, (halloc j hji).2 hallocJ, hnum⟩
  · exact hs.distinct
  · exact hs.terminated
  · intro h hh htaken
    exact EntryOk.congr hdir (hs.handles h hh htaken)

/-- Undoing the creation of an i-node that no entry names yet. -/
theorem Inv.markInode_free (hs : Inv s) (hpos : 0 < i) (hnot : ¬ Named s i)
    (hsize : (s.inodeTable i).iSize = 0) : Inv (s.markInode i .free) := by
  have halloc : ∀ j, Allocated (s.markInode i .free) j ↔ j ≠ i ∧ Allocated s j := by
    intro j
    by_cases hji : j = i
    · subst hji
      simp [Allocated]
    · simp [Allocated, hji]
  constructor
  · apply hs.blocks.congr
    · intro j c
      by_cases hji : j = i
      · subst hji
        simp [Owns, hsize]
      · simp [Owns, halloc, hji]
    · intro c
      rfl
  · intro j hj
    exact hs.valid j ((halloc j).1 hj).2
  · exact ⟨(halloc 0).2 ⟨by omega, hs.root.1⟩, hs.root.2⟩
  · intro j hj hallocJ
    exact hs.files j hj ((halloc j).1 hallocJ).2
  · intro j hj
    exact hs.sizes j ((halloc j).1 hj).2
  · intro k hk hused
    rcases hs.entries k hk hused with ⟨j, hj, hallocJ, hnum⟩
    -- an entry that is used does not name the i-node that is freed
    have hji : j ≠ i := by
      rintro rfl
      exact hnot ⟨k, hk, hused, hnum⟩
    exact ⟨j, hj, (halloc j).2 ⟨hji, hallocJ⟩, hnum⟩
  · exact hs.distinct
  · exact hs.terminated
  · exact hs.handles

/-- The state after entry `k` of the root directory was filled. -/
def namedInode (s : State) (k i : ℕ) (name : CString) : State :=
  s.setData (fillEntry s.disk.fsData 0 k i name)

section Filled

variable {k : ℕ} {name : CString}

theorem entryUsed_namedInode (hi : i < 50) {j : ℕ} :
    EntryUsed (namedInode s k i name).disk.fsData 0 j ↔ j = k ∨ EntryUsed s.disk.fsData 0 j :=
  entryUsed_fillEntry (by omega) (by omega)

theorem dInumber_namedInode_self (hi : i < 50) :
    dInumber (namedInode s k i name).disk.fsData 0 k = i :=
  dInumber_fillEntry_self (by omega) (by omega)

theorem dInumber_namedInode_of_ne {j : ℕ} (hj : j ≠ k) :
    dInumber (namedInode s k i name).disk.fsData 0 j = dInumber s.disk.fsData 0 j :=
  dInumber_fillEntry_of_ne hj

theorem named_namedInode (hi : i < 50) (hk : k < 23) (hempty : ¬ EntryUsed s.disk.fsData 0 k)
    {j : ℕ} : Named (namedInode s k i name) j ↔ j = i ∨ Named s j := by
  constructor
  · rintro ⟨l, hl, hused, hnum⟩
    by_cases hlk : l = k
    · subst hlk
      rw [dInumber_namedInode_self hi] at hnum
      exact Or.inl (by omega)
    · rw [dInumber_namedInode_of_ne hlk] at hnum
      rcases (entryUsed_namedInode hi).1 hused with hEq | hused
      · exact absurd hEq hlk
      · exact Or.inr ⟨l, hl, hused, hnum⟩
  · rintro (rfl | ⟨l, hl, hused, hnum⟩)
    · exact ⟨k, hk, (entryUsed_namedInode hi).2 (Or.inl rfl), dInumber_namedInode_self hi⟩
    · have hlk : l ≠ k := fun h => hempty (h ▸ hused)
      exact ⟨l, hl, (entryUsed_namedInode hi).2 (Or.inr hused),
        (dInumber_namedInode_of_ne hlk).trans hnum⟩

theorem Inv.namedInode (hs : Inv s) (name : CString) (hpos : 0 < i) (halloc : Allocated s i)
    (hnot : ¬ Named s i)
    (hk : k < 23) (hempty : ¬ EntryUsed s.disk.fsData 0 k) : Inv (namedInode s k i name) := by
  have hi : i < 50 := halloc.1
  constructor
  · exact hs.blocks
  · exact hs.valid
  · exact hs.root
  · exact hs.files
  · exact hs.sizes
  · intro l hl hused
    by_cases hlk : l = k
    · subst hlk
      exact ⟨i, hpos, halloc, dInumber_namedInode_self hi⟩
    · rcases (entryUsed_namedInode hi).1 hused with hEq | hused
      · exact absurd hEq hlk
      · rw [dInumber_namedInode_of_ne hlk]
        exact hs.entries l hl hused
  · intro l hl j hj husedL husedJ hEq
    -- the new entry is the only one with the number `i`
    have hnew : ∀ j < 23, EntryUsed s.disk.fsData 0 j → dInumber s.disk.fsData 0 j ≠ i :=
      fun j hj hused hnum => hnot ⟨j, hj, hused, hnum⟩
    rw [entryUsed_namedInode hi] at husedL husedJ
    by_cases hlk : l = k
    · subst hlk
      by_cases hjk : j = l
      · exact hjk.symm
      · rw [dInumber_namedInode_self hi, dInumber_namedInode_of_ne hjk] at hEq
        exact absurd hEq.symm (hnew j hj (husedJ.resolve_left hjk))
    · by_cases hjk : j = k
      · subst hjk
        rw [dInumber_namedInode_self hi, dInumber_namedInode_of_ne hlk] at hEq
        exact absurd hEq (hnew l hl (husedL.resolve_left hlk))
      · rw [dInumber_namedInode_of_ne hlk, dInumber_namedInode_of_ne hjk] at hEq
        exact hs.distinct l hl j hj (husedL.resolve_left hlk) (husedJ.resolve_left hjk) hEq
  · exact hs.terminated.fillEntry (by omega) (by omega)
  · intro h hh htaken
    rcases hs.handles h hh htaken with ⟨hoff, j, hj, hn⟩
    exact ⟨hoff, j, hj, (named_namedInode hi hk hempty).2 (Or.inr hn)⟩

end Filled

theorem addDirEntry_root (hs : Inv s) (hi : i < 50) (subName : Option CString) :
    addDirEntry rootDirInum i subName s =
      subName.bind fun name =>
        if name.strlen = 0 then some (-1, s)
        else
          match emptyEntry s.disk.fsData 0 with
          | none => some (-1, s)
          | some k => some (0, namedInode s k i name) := by
  have hroot : validInumber (rootDirInum : ℤ) = true := by decide
  have hnum : validInumber (i : ℤ) = true := validInumber_natCast.2 hi
  have hnode : s.inodeTable (rootDirInum : ℤ).toNat = ⟨.directory, 1024, 0⟩ := hs.root.2
  have hdir : dataBlockGet 0 = some 0 := by decide
  unfold addDirEntry
  rcases subName with _ | name
  · simp only [hroot, hnum, hnode, Bool.not_true, Bool.or_self, Bool.false_eq_true, if_false,
      ne_eq, not_true_eq_false, Option.bind_none]
  · rcases hempty : emptyEntry s.disk.fsData 0 with _ | k
    · simp only [hroot, hnum, hnode, hdir, Bool.not_true, Bool.or_self, Bool.false_eq_true,
        if_false, ne_eq, not_true_eq_false, Option.bind_some, hempty]
    · simp only [hroot, hnum, hnode, hdir, Bool.not_true, Bool.or_self, Bool.false_eq_true,
        if_false, ne_eq, not_true_eq_false, Option.bind_some, namedInode, hempty]

/-- What `add_dir_entry` can do to the root directory. -/
theorem addDirEntry_root_cases (hs : Inv s) (hi : i < 50) {subName : Option CString}
    (h : addDirEntry rootDirInum i subName s = some (r, t)) :
    ∃ name, subName = some name ∧
      (((name.strlen = 0 ∨ ∀ k < 23, EntryUsed s.disk.fsData 0 k) ∧ r = -1 ∧ t = s) ∨
      ∃ k < 23, ¬ EntryUsed s.disk.fsData 0 k ∧ (∀ j < k, EntryUsed s.disk.fsData 0 j) ∧
        name.strlen ≠ 0 ∧ r = 0 ∧ t = namedInode s k i name) := by
  rw [addDirEntry_root hs hi] at h
  rcases subName with _ | name
  · simp at h
  refine ⟨name, rfl, ?_⟩
  rw [Option.bind_some] at h
  by_cases hlen : name.strlen = 0
  · rw [if_pos hlen, Option.some.injEq, Prod.mk.injEq] at h
    exact Or.inl ⟨Or.inl hlen, h.1.symm, h.2.symm⟩
  · rw [if_neg hlen] at h
    rcases hempty : emptyEntry s.disk.fsData 0 with _ | k
    · simp only [hempty, Option.some.injEq, Prod.mk.injEq] at h
      exact Or.inl ⟨Or.inr (emptyEntry_eq_none.1 hempty), h.1.symm, h.2.symm⟩
    · simp only [hempty, Option.some.injEq, Prod.mk.injEq] at h
      rcases emptyEntry_eq_some.1 hempty with ⟨hk, hunused, hbefore⟩
      exact Or.inr ⟨k, hk, hunused, hbefore, hlen, h.1.symm, h.2.symm⟩

/-- Giving back an i-node that was just created. -/
theorem inodeDelete_createdInode (hi : i < 50) :
    (inodeDelete i (createdInode s i)).2 = (createdInode s i).markInode i .free := by
  have hvalid : validInumber (i : ℤ) = true := validInumber_natCast.2 hi
  simp [inodeDelete, hvalid, createdInode]

/-- What the creating branch of `tfs_open` can do: find no i-node, fail to name the one it created and
give it back, or name it and add a handle. -/
theorem openCreate_cases (hs : Inv s) {path : Path} (h : openCreate path s = some (r, t)) :
    ((∀ i < 50, s.freeinodeTs i = .taken) ∧ r = -1 ∧ t = s) ∨
    ∃ i < 50, s.freeinodeTs i = .free ∧ ∃ name, afterSlash path = some name ∧
      (((name.strlen = 0 ∨ ∀ k < 23, EntryUsed s.disk.fsData 0 k) ∧ r = -1 ∧
          t = (createdInode s i).markInode i .free) ∨
      ∃ k < 23, ¬ EntryUsed s.disk.fsData 0 k ∧ (∀ j < k, EntryUsed s.disk.fsData 0 j) ∧
        name.strlen ≠ 0 ∧
        (r, t) = addToOpenFileTable i 0 (namedInode (createdInode s i) k i name)) := by
  unfold openCreate at h
  rcases inodeCreate_file_cases s with ⟨i, hi, hfree, hEq⟩ | ⟨hfull, hEq⟩
  · right
    refine ⟨i, hi, hfree, ?_⟩
    have hne : (i : ℤ) ≠ -1 := by omega
    simp only [hEq, hne, if_false] at h
    rcases hadd : addDirEntry rootDirInum i (afterSlash path) (createdInode s i) with _ | ⟨r₁, t₁⟩
    · rw [hadd] at h
      exact absurd h (by simp)
    · simp only [hadd] at h
      rcases addDirEntry_root_cases (hs.createdInode hi hfree) hi hadd with ⟨name, hname, hcase⟩
      refine ⟨name, hname, ?_⟩
      rcases hcase with ⟨hfail, rfl, rfl⟩ | ⟨k, hk, hunused, hbefore, hlen, rfl, rfl⟩
      · left
        -- no entry was added, and `inode_delete` undoes `inode_create`
        simp only [if_true, inodeDelete_createdInode hi, Option.some.injEq, Prod.mk.injEq] at h
        exact ⟨hfail, h.1.symm, h.2.symm⟩
      · right
        refine ⟨k, hk, hunused, hbefore, hlen, ?_⟩
        have hzero : ¬ ((0 : ℤ) = -1) := by decide
        simp only [hzero, if_false, Option.some.injEq] at h
        exact h.symm
  · left
    simp only [hEq, if_true, Option.some.injEq, Prod.mk.injEq] at h
    exact ⟨hfull, h.1.symm, h.2.symm⟩

theorem Inv.openCreate (hs : Inv s) {path : Path} (h : openCreate path s = some (r, t)) : Inv t := by
  rcases openCreate_cases hs h with ⟨_, _, rfl⟩ | ⟨i, hi, hfree, name, _, hcase⟩
  · exact hs
  · have hcreated := hs.createdInode hi hfree
    have hnot : ¬ Named (Server.createdInode s i) i := hs.not_named_of_free hfree
    have halloc : Allocated (Server.createdInode s i) i := ⟨hi, by simp [Server.createdInode]⟩
    have hpos : 0 < i := hs.pos_of_free hfree
    rcases hcase with ⟨_, _, rfl⟩ | ⟨k, hk, hunused, _, _, hEq⟩
    · exact hcreated.markInode_free hpos hnot (by simp [Server.createdInode])
    · have hnamed := hcreated.namedInode name hpos halloc hnot hk hunused
      have ht : t = (Server.addToOpenFileTable i 0
          (Server.namedInode (Server.createdInode s i) k i name)).2 := by
        rw [← hEq]
      rw [ht]
      apply hnamed.addToOpenFileTable _ (by omega)
      exact (named_namedInode hi hk hunused).2 (Or.inl rfl)

end Create

/-! ## Writing -/

section Write

variable {s t : State} {h i b n : ℕ} {buffer : ℕ → Byte} {r : ℤ}

theorem allocIfEmpty_cases (i : ℕ) (s : State) :
    (0 < (s.inodeTable i).iSize ∧ allocIfEmpty i s = s) ∨
    ((s.inodeTable i).iSize = 0 ∧ ∃ b < 1024, s.disk.freeBlocks b = .free ∧
      allocIfEmpty i s = (s.setDisk (s.disk.markBlock b .taken)).setInode i
        { s.inodeTable i with iDataBlock := b }) ∨
    ((s.inodeTable i).iSize = 0 ∧ (∀ b < 1024, s.disk.freeBlocks b = .taken) ∧
      allocIfEmpty i s = s.setInode i { s.inodeTable i with iDataBlock := -1 }) := by
  by_cases hempty : (s.inodeTable i).iSize = 0
  · right
    rcases Disk.dataBlockAlloc_cases s.disk with ⟨b, hb, hfree, hEq⟩ | ⟨hfull, hEq⟩
    · exact Or.inl ⟨hempty, b, hb, hfree, by simp [allocIfEmpty, hempty, hEq]⟩
    · exact Or.inr ⟨hempty, hfull, by simp [allocIfEmpty, hempty, hEq, State.setDisk]⟩
  · exact Or.inl ⟨by omega, by simp [allocIfEmpty, hempty]⟩

theorem storeBytes_eq {a : ℕ} (hfit : (s.openFileTable h).ofOffset + n ≤ 1024) :
    storeBytes h i a buffer n s =
      ((s.setData (memcpy s.disk.fsData (a + (s.openFileTable h).ofOffset) buffer n)).setEntry h
        { s.openFileTable h with ofOffset := (s.openFileTable h).ofOffset + n }).setInode i
          { s.inodeTable i with
            iSize := max (s.inodeTable i).iSize ((s.openFileTable h).ofOffset + n) } := by
  have hadd : sizeAdd (s.openFileTable h).ofOffset n = (s.openFileTable h).ofOffset + n :=
    sizeAdd_of_lt (by omega)
  unfold storeBytes
  simp only [hadd]
  by_cases hgrow : (s.openFileTable h).ofOffset + n > (s.inodeTable i).iSize
  · have hmax : max (s.inodeTable i).iSize ((s.openFileTable h).ofOffset + n) =
        (s.openFileTable h).ofOffset + n := by omega
    rw [if_pos (by simpa using hgrow), hmax]
    rfl
  · have hmax : max (s.inodeTable i).iSize ((s.openFileTable h).ofOffset + n) =
        (s.inodeTable i).iSize := by omega
    rw [if_neg (by simpa using hgrow), hmax]
    simp [State.setInode, State.setEntry, State.setData]

/-- The effect of a write that copies `n` bytes through handle `h` into block `b` of the file `i`. -/
structure WriteEffect (s : State) (h i b : ℕ) (buffer : ℕ → Byte) (n : ℕ) (t : State) : Prop where
  block : (0 < (s.inodeTable i).iSize ∧ (s.inodeTable i).iDataBlock = b ∧
      t.disk.freeBlocks = s.disk.freeBlocks) ∨
    ((s.inodeTable i).iSize = 0 ∧ s.disk.freeBlocks b = .free ∧
      t.disk.freeBlocks = Function.update s.disk.freeBlocks b .taken)
  node : t.inodeTable i = ⟨(s.inodeTable i).iNodeType,
    max (s.inodeTable i).iSize ((s.openFileTable h).ofOffset + n), b⟩
  nodes : ∀ j, j ≠ i → t.inodeTable j = s.inodeTable j
  data : t.disk.fsData = memcpy s.disk.fsData (b * 1024 + (s.openFileTable h).ofOffset) buffer n
  entries : t.openFileTable = Function.update s.openFileTable h
    { s.openFileTable h with ofOffset := (s.openFileTable h).ofOffset + n }
  freeinodeTs : t.freeinodeTs = s.freeinodeTs
  freeOpenFileEntries : t.freeOpenFileEntries = s.freeOpenFileEntries
  stateClosing : t.stateClosing = s.stateClosing

theorem writeEffect_storeBytes (buffer : ℕ → Byte)
    (hb : ((allocIfEmpty i s).inodeTable i).iDataBlock = b)
    (hfit : (s.openFileTable h).ofOffset + n ≤ 1024) :
    WriteEffect s h i b buffer n (storeBytes h i (b * 1024) buffer n (allocIfEmpty i s)) := by
  rcases allocIfEmpty_cases i s with ⟨hpos, hEq⟩ | ⟨hzero, c, _, hfree, hEq⟩ | ⟨_, _, hEq⟩
  · -- the file has its block, and nothing is allocated
    rw [hEq] at hb
    rw [hEq, storeBytes_eq hfit]
    constructor
    · exact Or.inl ⟨hpos, hb, rfl⟩
    · simp [hb]
    · intro j hj
      simp [hj]
    · rfl
    · rfl
    · rfl
    · rfl
    · rfl
  · -- an empty file takes the free block c
    have hcb : c = b := by
      rw [hEq] at hb
      simpa using hb
    subst hcb
    have hoff : (allocIfEmpty i s).openFileTable = s.openFileTable := by rw [hEq]; rfl
    rw [storeBytes_eq (by rw [hoff]; exact hfit), hEq]
    constructor
    · exact Or.inr ⟨hzero, hfree, rfl⟩
    · simp
    · intro j hj
      simp [hj]
    · rfl
    · rfl
    · rfl
    · rfl
    · rfl
  · -- no free block, so the file has none to write to
    rw [hEq] at hb
    simp at hb

/-- The only failure of a write on a file: no block is left for an empty file. -/
theorem Inv.dataBlockGet_none (hs : Inv s) (hi : Allocated s i)
    (hnone : dataBlockGet ((allocIfEmpty i s).inodeTable i).iDataBlock = none) :
    (s.inodeTable i).iSize = 0 ∧ (∀ b < 1024, s.disk.freeBlocks b = .taken) ∧
      allocIfEmpty i s = s.setInode i { s.inodeTable i with iDataBlock := -1 } := by
  rcases allocIfEmpty_cases i s with ⟨hpos, hEq⟩ | ⟨_, c, hc, _, hEq⟩ | hfull
  · rcases hs.valid i hi hpos with ⟨b, hb, hbEq⟩
    rw [hEq, hbEq, dataBlockGet_natCast hb] at hnone
    simp at hnone
  · rw [hEq] at hnone
    simp [hc] at hnone
  · exact hfull

theorem Inv.setInode_empty (hs : Inv s) (hi : Named s i) (hzero : (s.inodeTable i).iSize = 0) :
    Inv (s.setInode i { s.inodeTable i with iDataBlock := -1 }) := by
  apply hs.of_file hi
  · rfl
  · intro j hj
    simp [hj]
  · exact SameBlock.refl _ _
  · apply hs.blocks.congr
    · intro j c
      by_cases hji : j = i
      · subst hji
        simp [Owns, hzero]
      · simp [Owns, Allocated, hji]
    · intro c
      rfl
  · simp [hzero]
  · simp
  · simp
  · simp [hzero]
  · intro g hg htaken
    exact hs.handles g hg htaken

/-- A file's block after a write is not the root directory's. -/
theorem WriteEffect.block_pos (hw : WriteEffect s h i b buffer n t) (hs : Inv s) (hi : Named s i) :
    0 < b := by
  rcases hs.of_named hi with ⟨hpos, halloc⟩
  rcases hw.block with ⟨hsize, hEq, _⟩ | ⟨_, hfree, _⟩
  · exact hs.block_pos hpos ⟨halloc, hEq, hsize⟩
  · by_contra hzero
    have hzero : b = 0 := by omega
    subst hzero
    simp [hs.rootBlock_taken] at hfree

theorem WriteEffect.sameRoot (hw : WriteEffect s h i b buffer n t) (hs : Inv s) (hi : Named s i) :
    SameBlock s.disk.fsData t.disk.fsData 0 := by
  rw [hw.data]
  exact sameBlock_memcpy (hw.block_pos hs hi)

theorem WriteEffect.exclusive (hw : WriteEffect s h i b buffer n t) (hs : Inv s) (hi : Named s i)
    (hb : b < 1024) (hn : 0 < n) : Exclusive (Owns t) (BlockTaken t) := by
  have hallocI := (hs.of_named hi).2
  have halloc : ∀ j, Allocated t j ↔ Allocated s j := by simp [Allocated, hw.freeinodeTs]
  rcases hw.block with ⟨hsize, hEq, hblocks⟩ | ⟨hsize, hfree, hblocks⟩
  · -- the block is the file's own: the size only grows
    apply hs.blocks.congr
    · intro j c
      by_cases hji : j = i
      · subst hji
        have hgrow : 0 < max (s.inodeTable j).iSize ((s.openFileTable h).ofOffset + n) ↔
            0 < (s.inodeTable j).iSize := by omega
        simp only [Owns, halloc, hw.node, hEq, hgrow]
      · simp [Owns, halloc, hw.nodes j hji]
    · intro c
      simp [BlockTaken, hblocks]
  · -- the file was empty, and owned no block before
    apply hs.blocks.alloc (i := i) (b := b)
    · simp [BlockTaken, hfree]
    · intro j c
      by_cases hji : j = i
      · subst hji
        simp only [Owns, halloc, hw.node, hsize]
        have hc : (b : ℤ) = c ↔ c = b := by omega
        rw [hc]
        constructor
        · rintro ⟨_, hcb, _⟩
          exact Or.inl ⟨trivial, hcb⟩
        · rintro (⟨_, hcb⟩ | ⟨_, _, hlt⟩)
          · exact ⟨hallocI, hcb, by omega⟩
          · omega
      · simp [Owns, halloc, hw.nodes j hji, hji]
    · intro c
      by_cases hcb : c = b
      · subst hcb
        simp [BlockTaken, hblocks, hb]
      · simp [BlockTaken, hblocks, hcb]

theorem Inv.of_writeEffect (hs : Inv s) (hw : WriteEffect s h i b buffer n t) (hi : Named s i)
    (hEntry : (s.openFileTable h).ofInumber = i) (hb : b < 1024) (hn : 0 < n)
    (hfit : (s.openFileTable h).ofOffset + n ≤ 1024) : Inv t := by
  rcases hs.of_named hi with ⟨_, halloc⟩
  have hsize := hs.sizes i halloc
  have hpos := hw.block_pos hs hi
  apply hs.of_file hi hw.freeinodeTs hw.nodes (hw.sameRoot hs hi) (hw.exclusive hs hi hb hn)
  · intro _
    exact ⟨b, hb, by simp [hw.node]⟩
  · simp [hw.node]
  · simp only [hw.node]
    omega
  · simp only [hw.node]
    omega
  · intro g hg htaken
    rw [hw.freeOpenFileEntries] at htaken
    rw [hw.entries]
    by_cases hgh : g = h
    · subst hgh
      have hoff : (s.openFileTable g).ofOffset + n ≤ 1048576 := by omega
      simpa [EntryOk] using And.intro hoff ⟨i, hEntry, hi⟩
    · simpa [hgh] using hs.handles g hg htaken

end Write

/-! ## Every call -/

section Calls

variable {s t : State} {r : ℤ}

/-- The file that an open handle stands for. -/
theorem Inv.handle_file (hs : Inv s) {fhandle : ℤ} (hopen : HandleOpen s fhandle) :
    ∃ h : ℕ, h < 20 ∧ fhandle = h ∧ s.freeOpenFileEntries h = .taken ∧
      (s.openFileTable h).ofOffset ≤ 1048576 ∧
      ∃ i : ℕ, (s.openFileTable h).ofInumber = i ∧ i < 50 ∧ Named s i := by
  rcases hopen with ⟨h, hh, rfl, htaken⟩
  rcases hs.handles h hh htaken with ⟨hoff, i, hi, hn⟩
  exact ⟨h, hh, rfl, htaken, hoff, i, hi, (hs.of_named hn).2.1, hn⟩

theorem Inv.tfsWriteUnsynchronized (hs : Inv s) {fhandle : ℤ} (hopen : HandleOpen s fhandle)
    {buffer : ℕ → Byte} {n : ℕ} (hw : tfsWriteUnsynchronized fhandle buffer n s = some (r, t)) :
    Inv t := by
  rcases hs.handle_file hopen with ⟨h, hh, hEq, _, _, i, hnum, hi, hn⟩
  rcases tfsWriteUnsynchronized_cases hw with ⟨_, _, rfl⟩ | ⟨h', hh', hEq', hcases⟩
  · exact hs
  have hhEq : h' = h := by omega
  subst hhEq
  rcases hcases with ⟨_, _, rfl⟩ | ⟨i', hi', hnum', hcases⟩
  · exact hs
  have hiEq : i' = i := by
    rw [hnum] at hnum'
    omega
  subst hiEq
  rcases hcases with ⟨_, _, rfl⟩ | ⟨_, hnone, _, rfl⟩ | ⟨b, hb, hbEq, hpos, hfit, _, rfl⟩
  · exact hs
  · rcases hs.dataBlockGet_none (hs.of_named hn).2 hnone with ⟨hzero, _, hstate⟩
    rw [hstate]
    exact hs.setInode_empty hn hzero
  · exact hs.of_writeEffect (writeEffect_storeBytes _ hbEq hfit) hn hnum hb hpos hfit

theorem Inv.tfsReadUnsynchronized (hs : Inv s) {fhandle : ℤ} {n : ℕ} {out : List Byte}
    (hr : tfsReadUnsynchronized fhandle n s = some (r, out, t)) : Inv t := by
  rcases tfsReadUnsynchronized_cases hr with ⟨_, _, _, rfl⟩ | ⟨h, hh, _, hcases⟩
  · exact hs
  rcases hcases with ⟨_, _, _, rfl⟩ | ⟨i, _, hnum, hcases⟩
  · exact hs
  rcases hcases with ⟨_, _, _, rfl⟩ | ⟨_, _, _, _, rfl⟩ | ⟨b, _, _, _, hfit, _, _, rfl⟩
  · exact hs
  · exact hs
  · refine hs.of_handles (t := s.setEntry h _) rfl rfl rfl ?_
    intro g hg htaken
    by_cases hgh : g = h
    · subst hgh
      rcases hs.handles g hg htaken with ⟨_, hnamed⟩
      have hoff : (s.openFileTable g).ofOffset +
          readCount (s.inodeTable i).iSize (s.openFileTable g).ofOffset n ≤ 1048576 := by omega
      simpa [EntryOk] using And.intro hoff hnamed
    · simpa [hgh] using hs.handles g hg htaken

theorem Inv.tfsClose (hs : Inv s) (fhandle : ℤ) : Inv (tfsClose fhandle s).2 := by
  unfold Server.tfsClose
  rcases removeFromOpenFileTable_cases fhandle s with ⟨h, _, _, _, hEq⟩ | ⟨_, hEq⟩
  · rw [hEq]
    refine hs.of_handles (t := { s.markHandle h .free with
      openFilesNumber := s.openFilesNumber - 1 }) rfl rfl rfl ?_
    intro g hg htaken
    have hgh : g ≠ h := by
      rintro rfl
      simp at htaken
    exact hs.handles g hg (by simpa [hgh] using htaken)
  · rw [hEq]
    exact hs

theorem findInDir_root (hs : Inv s) (name : CString) :
    findInDir rootDirInum name s =
      (searchEntry s.disk.fsData 0 name).elim (-1) (dInumber s.disk.fsData 0) := by
  have hroot : validInumber (rootDirInum : ℤ) = true := by decide
  have hnode : s.inodeTable (rootDirInum : ℤ).toNat = ⟨.directory, 1024, 0⟩ := hs.root.2
  have hdir : dataBlockGet 0 = some 0 := by decide
  unfold findInDir
  simp only [hroot, hnode, hdir, Bool.not_true, Bool.false_eq_true, ne_eq, not_true_eq_false,
    decide_false, Bool.or_self, if_false]
  rcases searchEntry s.disk.fsData 0 name with _ | k
  · rfl
  · rfl

/-- What the lookup of a path finds: the first entry with its name, or nothing. -/
theorem tfsLookup_cases (hs : Inv s) (path : Path) :
    (∃ p, path = some p ∧ validPathname path = true ∧ ∃ k < 23,
      EntryUsed s.disk.fsData 0 k ∧ entryName s.disk.fsData 0 k = p.tail ∧
      ∃ i : ℕ, dInumber s.disk.fsData 0 k = i ∧ tfsLookupUnsynchronized path s = i) ∨
    (tfsLookupUnsynchronized path s = -1 ∧ ∀ p, path = some p → validPathname path = true →
      ∀ k < 23, EntryUsed s.disk.fsData 0 k → entryName s.disk.fsData 0 k ≠ p.tail) := by
  rcases path with _ | p
  · exact Or.inr ⟨rfl, by simp⟩
  by_cases hvalid : validPathname (some p) = true
  · have hlookup : tfsLookupUnsynchronized (some p) s =
        (searchEntry s.disk.fsData 0 p.tail).elim (-1) (dInumber s.disk.fsData 0) := by
      rw [← findInDir_root hs]
      simp only [tfsLookupUnsynchronized, hvalid, if_true]
    rw [hlookup]
    rcases hsearch : searchEntry s.disk.fsData 0 p.tail with _ | k
    · right
      refine ⟨rfl, ?_⟩
      rintro q hq - k hk hused
      rw [← Option.some.inj hq]
      exact (searchEntry_eq_none hs.terminated).1 hsearch k hk hused
    · left
      rcases (searchEntry_eq_some hs.terminated).1 hsearch with ⟨hk, hused, hname, _⟩
      rcases hs.entries k hk hused with ⟨i, _, _, hnum⟩
      exact ⟨p, rfl, hvalid, k, hk, hused, hname, i, hnum, hnum⟩
  · right
    refine ⟨by simp [tfsLookupUnsynchronized, hvalid], ?_⟩
    rintro q - hq
    exact absurd hq hvalid

theorem Inv.tfsOpenUnsynchronized (hs : Inv s) {path : Path} {flags : ℤ}
    (h : tfsOpenUnsynchronized path flags s = some (r, t)) : Inv t := by
  unfold Server.tfsOpenUnsynchronized at h
  rcases tfsLookup_cases hs path with ⟨p, _, _, k, hk, hused, _, i, hnum, hEq⟩ | ⟨hEq, _⟩
  · have hfound : (i : ℤ) ≥ 0 := by omega
    simp only [hEq, hfound, if_true, Option.some.injEq] at h
    have hopen := hs.openExisting flags (i := i) ⟨k, hk, hused, hnum⟩
    rw [h] at hopen
    exact hopen
  · have hmiss : ¬ tfsLookupUnsynchronized path s ≥ 0 := by omega
    simp only [hmiss, if_false] at h
    by_cases hcreate : hasFlag flags tfsOCreat = true
    · simp only [hcreate, if_true] at h
      exact hs.openCreate h
    · simp only [hcreate, if_false, Option.some.injEq, Prod.mk.injEq, Bool.false_eq_true] at h
      rw [← h.2]
      exact hs

theorem Inv.exec (hs : Inv s) {a : Call} (hok : OnOpenHandle s a) {reply : Reply}
    (h : exec a s = some (reply, t)) : Inv t := by
  cases a with
  | «open» name flags =>
      rcases Option.map_eq_some_iff.1 h with ⟨⟨r, s'⟩, hopen, hEq⟩
      cases hEq
      unfold tfsOpen at hopen
      split at hopen
      · cases hopen
        exact hs
      · exact hs.tfsOpenUnsynchronized hopen
  | close fhandle =>
      cases h
      exact hs.tfsClose fhandle
  | write fhandle buffer n =>
      rcases Option.map_eq_some_iff.1 h with ⟨⟨r, s'⟩, hwrite, hEq⟩
      cases hEq
      exact hs.tfsWriteUnsynchronized hok hwrite
  | read fhandle n =>
      rcases Option.map_eq_some_iff.1 h with ⟨⟨r, out, s'⟩, hread, hEq⟩
      cases hEq
      exact hs.tfsReadUnsynchronized hread

end Calls

/-! ## The state after `tfs_init` -/

section Init

variable {i b : ℕ}

/-- `tfs_init` succeeds: it makes i-node 0 the root directory and gives it block 0. -/
theorem tfsInit_eq : tfsInit = (0,
    { stateInit staticState with
      disk := ⟨clearEntries (fun _ => 0) 0 maxDirEntries, Function.update (fun _ => .free) 0 .taken⟩
      inodeTable := Function.update staticState.inodeTable 0 ⟨.directory, 1024, 0⟩
      freeinodeTs := Function.update (fun _ => .free) 0 .taken }) := by
  have hinode : firstFree (stateInit staticState).freeinodeTs inodeTableSize = some 0 :=
    firstFree_all_free (by decide)
  have hblock : firstFree (fun _ => .free) dataBlocks = some 0 := by
    rw [firstFree_all_free]
    decide
  have halloc : Disk.dataBlockAlloc ⟨fun _ => 0, fun _ => .free⟩ =
      (0, ⟨fun _ => 0, Function.update (fun _ => .free) 0 .taken⟩) := by
    unfold Disk.dataBlockAlloc
    rw [hblock]
    rfl
  have hdir : dataBlockGet 0 = some 0 := by decide
  have hcreate : inodeCreate .directory (stateInit staticState) = (0,
      { stateInit staticState with
        disk := ⟨clearEntries (fun _ => 0) 0 maxDirEntries, Function.update (fun _ => .free) 0 .taken⟩
        inodeTable := Function.update staticState.inodeTable 0 ⟨.directory, 1024, 0⟩
        freeinodeTs := Function.update (fun _ => .free) 0 .taken }) := by
    unfold inodeCreate
    simp only [hinode]
    simp [State.markInode, State.setInode, State.setDisk, State.setData, stateInit, staticState, halloc,
      hdir]
  unfold tfsInit
  rw [hcreate]
  rfl

theorem not_entryUsed_tfsInit : ∀ k < 23, ¬ EntryUsed tfsInit.2.disk.fsData 0 k := by
  intro k hk
  rw [tfsInit_eq]
  exact not_entryUsed_clearEntries hk

theorem allocated_tfsInit : Allocated tfsInit.2 i ↔ i = 0 := by
  rw [tfsInit_eq]
  by_cases hi : i = 0
  · subst hi
    simp [Allocated]
  · simp [Allocated, hi]

theorem rootInode_tfsInit : tfsInit.2.inodeTable 0 = ⟨.directory, 1024, 0⟩ := by
  rw [tfsInit_eq]
  rfl

theorem blockTaken_tfsInit : BlockTaken tfsInit.2 b ↔ b = 0 := by
  rw [tfsInit_eq]
  by_cases hb : b = 0
  · subst hb
    simp [BlockTaken]
  · simp [BlockTaken, hb]

theorem owns_tfsInit : Owns tfsInit.2 i b ↔ i = 0 ∧ b = 0 := by
  rw [Owns, allocated_tfsInit]
  constructor
  · rintro ⟨rfl, hb, _⟩
    rw [rootInode_tfsInit] at hb
    exact ⟨rfl, by simpa using hb.symm⟩
  · rintro ⟨rfl, rfl⟩
    simp [rootInode_tfsInit]

/-- The invariant holds after `tfs_init`: the root is the only i-node, and its directory is empty. -/
theorem inv_tfsInit : Inv tfsInit.2 := by
  have hempty := not_entryUsed_tfsInit
  constructor
  · constructor
    · intro b
      simp [blockTaken_tfsInit, owns_tfsInit]
    · intro i j b hi hj
      rw [owns_tfsInit] at hi hj
      omega
  · intro i hi _
    rw [allocated_tfsInit] at hi
    subst hi
    exact ⟨0, by omega, by simp [rootInode_tfsInit]⟩
  · exact ⟨allocated_tfsInit.2 rfl, rootInode_tfsInit⟩
  · intro i hpos hi
    rw [allocated_tfsInit] at hi
    omega
  · intro i hi
    rw [allocated_tfsInit] at hi
    subst hi
    simp [rootInode_tfsInit]
  · intro k hk hused
    exact absurd hused (hempty k hk)
  · intro j hj k _ hused
    exact absurd hused (hempty j hj)
  · intro k hk hused
    exact absurd hused (hempty k hk)
  · -- no handle is taken
    intro h _ htaken
    rw [tfsInit_eq] at htaken
    simp [stateInit] at htaken

end Init

/-! ## Every reachable state -/

theorem inv_of_reachable {s : State} (hr : properCalls.Reachable s) : Inv s := by
  apply hr.invariant
  · intro s hinit
    rw [show s = tfsInit.2 from hinit]
    exact inv_tfsInit
  · rintro s a t hs ⟨hok, r, hexec⟩
    exact hs.exec hok hexec

/-- Block ownership and directory integrity in every state that calls on open handles reach.  The root
directory is found as the code finds it, through the block number of i-node 0. -/
theorem block_ownership {s : State} (hr : properCalls.Reachable s) :
    (∀ b < dataBlocks, s.disk.freeBlocks b = .taken ↔ ∃! i, Owns s i b) ∧
    (s.disk.freeBlocks 0 = .taken ∧ (s.inodeTable rootDirInum).iDataBlock = 0 ∧
      (∀ i, Owns s i 0 ↔ i = rootDirInum) ∧
      ∀ i, Allocated s i → (s.inodeTable i).iNodeType = .file → (s.inodeTable i).iDataBlock ≠ 0) ∧
    ∃ dir, dataBlockGet (s.inodeTable rootDirInum).iDataBlock = some dir ∧
      (∀ k < maxDirEntries, EntryUsed s.disk.fsData dir k →
        ∃ i : ℕ, dInumber s.disk.fsData dir k = i ∧ Allocated s i ∧
          (s.inodeTable i).iNodeType = .file) ∧
      ∀ j < maxDirEntries, ∀ k < maxDirEntries, j ≠ k → EntryUsed s.disk.fsData dir j →
        EntryUsed s.disk.fsData dir k → dInumber s.disk.fsData dir j ≠ dInumber s.disk.fsData dir k := by
  have hs := inv_of_reachable hr
  refine ⟨?_, ⟨hs.rootBlock_taken, by simp [hs.root.2], ?_, ?_⟩, 0, hs.dataBlockGet_root, ?_, ?_⟩
  · intro b hb
    rw [← hs.blocks.taken_iff_existsUnique b]
    simp [BlockTaken, hb]
  · intro i
    constructor
    · intro hi
      exact hs.blocks.unique i 0 0 hi hs.owns_root
    · rintro rfl
      exact hs.owns_root
  · intro i halloc htype
    -- i-node 0 is the root directory, so a file is another one
    have hpos : 0 < i := by
      by_contra hzero
      have hzero : i = 0 := by omega
      subst hzero
      simp [hs.root.2] at htype
    exact (hs.files i hpos halloc).2
  · intro k hk hused
    rcases hs.entries k hk hused with ⟨i, hpos, halloc, hnum⟩
    exact ⟨i, hnum, halloc, (hs.files i hpos halloc).1⟩
  · intro j hj k hk hjk husedJ husedK hEq
    exact hjk (hs.distinct j hj k hk husedJ husedK hEq)

theorem letters_ne_zero : ∀ c ∈ (List.range 21).map fun k => UInt8.ofNat (0x63 + k), c ≠ 0 := by
  decide +kernel

/-- Write a byte to `/a` and to `/b`, cut `/a`, fill the directory with 21 files more, and ask for one
that finds no entry. -/
def cutAndFill : List Call :=
  [.open (some slashA) tfsOCreat, .write 0 (fun _ => 0x41) 1, .open (some slashB) tfsOCreat,
    .write 1 (fun _ => 0x42) 1, .open (some slashA) tfsOTrunc] ++
  (((List.range 21).map fun k => UInt8.ofNat (0x63 + k)).pmap slash letters_ne_zero).map
    (fun path => .open (some path) tfsOCreat) ++
  [.open (some (slash 0x79 (by decide))) tfsOCreat]

/-- `/a` was cut and `/b` has its byte; the directory is full, and the i-node of the creation that failed
is free again. -/
def CutAndFilled (s : State) : Prop :=
  ((s.inodeTable 1).iSize = 0 ∧ (s.inodeTable 1).iDataBlock = 1 ∧ (s.inodeTable 2).iSize = 1) ∧
    (∀ k < maxDirEntries, EntryUsed s.disk.fsData 0 k) ∧ (s.inodeTable 24).iNodeType = .file ∧
    s.freeinodeTs 24 = .free

instance (s : State) : Decidable (CutAndFilled s) :=
  inferInstanceAs (Decidable (_ ∧ _))

theorem performAll_cutAndFill :
    (System.performAll (library.record OnOpenHandle) cutAndFill ([], tfsInit.2)).any
      (fun x => CutAndFilled x.2) = true := by
  rw [tfsInit_eq]
  decide +kernel

theorem block_ownership_cutAndFill : ∃ h s, properCalls.Execution h s ∧
    h.map Prod.snd = cutAndFill.reverse ∧ CutAndFilled s ∧
    (∀ b < dataBlocks, s.disk.freeBlocks b = .taken ↔ ∃! i, Owns s i b) ∧
    (∀ i, Owns s i 0 ↔ i = rootDirInum) ∧
    ∀ j < maxDirEntries, ∀ k < maxDirEntries, j ≠ k →
      dInumber s.disk.fsData 0 j ≠ dInumber s.disk.fsData 0 k := by
  rcases Machine.execution_of_any performAll_cutAndFill with ⟨h, s, he, hlabels, hfilled⟩
  rcases block_ownership ⟨h, he⟩ with ⟨hblocks, ⟨_, hroot, howner, _⟩, dir, hdir, _, hdistinct⟩
  have hzero : dataBlockGet 0 = some 0 := by decide
  rw [hroot, hzero] at hdir
  rcases Option.some.inj hdir with rfl
  refine ⟨h, s, he, hlabels, hfilled, hblocks, howner, ?_⟩
  intro j hj k hk hjk
  exact hdistinct j hj k hk hjk (hfilled.2.1 j hj) (hfilled.2.1 k hk)

end Server
end TecnicoFs
