import TecnicoFs.Tfs.Locks
import TecnicoFs.Tfs.ShortWrite

/-!
# Failed creations — what `tfs_open` gives back when it cannot create

A creation takes an i-node, an index block and a directory entry, and each of them may be missing.  A full
i-node table is found before anything is taken, and a full directory is undone by `inode_delete`.  Without
an index block `inode_create` returns with the i-node taken, so the condition is that this does not happen:
there is a free block, or no free i-node.
-/

namespace TecnicoFs
namespace Tfs

open Lib

/-- The allocation maps and the root directory are the same. -/
structure KeepsSpace (s t : State) : Prop where
  freeinodeTs : t.freeinodeTs = s.freeinodeTs
  freeBlocks : t.disk.freeBlocks = s.disk.freeBlocks
  rootInode : t.inodeTable rootDirInum = s.inodeTable rootDirInum
  rootBlock : ∀ dir, dataBlockGet ((s.inodeTable rootDirInum).iDataBlock 0) = some dir →
    SameBlock s.disk.fsData t.disk.fsData dir

/-- "no free slots in inode table" -/
def NoFreeInode (s : State) : Prop :=
  firstFree s.freeinodeTs inodeTableSize = none

/-- "no free blocks" -/
def NoFreeBlock (s : State) : Prop :=
  firstFree s.disk.freeBlocks dataBlocks = none

/-- No empty entry in the root directory when `add_dir_entry` looks for one, after `inode_create`. -/
def NoFreeEntry (s : State) : Prop :=
  ∀ dir, dataBlockGet ((s.inodeTable rootDirInum).iDataBlock 0) = some dir →
    emptyEntry (inodeCreate .file s).2.disk.fsData dir = none

/-- A creating open of a path that does not exist, which fails for want of an i-node, a block or an
entry. -/
def FailedCreation (s : State) : Call → Prop
  | .open path flags => hasFlag flags tfsOCreat ∧ validPathname path ∧ tfsLookup path s < 0 ∧
      (NoFreeInode s ∨ NoFreeBlock s ∨ NoFreeEntry s) ∧ ∃ t, tfsOpen path flags s = some (-1, t)
  | _ => False

/-- A creation that fails now can be undone. -/
def CanUndo (s : State) : Prop :=
  NoFreeInode s ∨ ¬ NoFreeBlock s

section Space

variable {s t u : State} {i b : ℕ} {r : ℤ} {path : Path} {flags : ℤ} {a : Call} {reply : Reply}

theorem KeepsSpace.refl (s : State) : KeepsSpace s s :=
  ⟨rfl, rfl, rfl, fun dir _ => SameBlock.refl _ dir⟩

theorem KeepsSpace.trans (h₁ : KeepsSpace s t) (h₂ : KeepsSpace t u) : KeepsSpace s u where
  freeinodeTs := h₂.freeinodeTs.trans h₁.freeinodeTs
  freeBlocks := h₂.freeBlocks.trans h₁.freeBlocks
  rootInode := h₂.rootInode.trans h₁.rootInode
  rootBlock dir hdir := by
    have hdirT : dataBlockGet ((t.inodeTable rootDirInum).iDataBlock 0) = some dir := by
      rw [h₁.rootInode]
      exact hdir
    exact (h₁.rootBlock dir hdir).trans (h₂.rootBlock dir hdirT)

theorem KeepsSpace.canUndo_iff (h : KeepsSpace s t) : CanUndo t ↔ CanUndo s := by
  unfold CanUndo NoFreeInode NoFreeBlock
  rw [h.freeinodeTs, h.freeBlocks]

theorem noFreeInode_iff : NoFreeInode s ↔ ∀ i < 50, s.freeinodeTs i = .taken :=
  firstFree_eq_none

theorem noFreeBlock_iff : NoFreeBlock s ↔ ∀ b < 1024, s.disk.freeBlocks b = .taken :=
  firstFree_eq_none

/-! ## One failed creation -/

theorem keepsSpace_preparedFile (hs : Shape s) (hi : 0 < i) (hb : 0 < b) :
    KeepsSpace s (preparedFile s i b) where
  freeinodeTs := rfl
  freeBlocks := rfl
  rootInode := Function.update_of_ne (by simp only [rootDirInum]; omega) _ _
  rootBlock dir hdir := by
    have hzero : (s.inodeTable rootDirInum).iDataBlock 0 = 0 := hs.root.firstBlock
    rw [hzero] at hdir
    rcases dataBlockGet_eq_some_iff.1 hdir with ⟨c, _, hc, rfl⟩
    exact sameBlock_fillIndexBlock (by omega)

theorem Shape.noFreeEntry_iff (hs : Shape s) :
    NoFreeEntry s ↔ emptyEntry (inodeCreate .file s).2.disk.fsData 0 = none := by
  have hzero : dataBlockGet ((s.inodeTable rootDirInum).iDataBlock 0) = some 0 := by
    rw [show (s.inodeTable rootDirInum).iDataBlock 0 = 0 from hs.root.firstBlock]
    decide
  constructor
  · intro h
    exact h 0 hzero
  · intro h dir hdir
    rw [hzero] at hdir
    cases hdir
    exact h

/-- What a failed creation does: nothing, or it keeps an i-node, or it undoes its steps. -/
theorem Shape.tfsOpen_failedCreation (hs : Shape s) (flags : ℤ) (hcreat : hasFlag flags tfsOCreat = true)
    (hvalid : validPathname path = true) (habsent : tfsLookup path s < 0)
    (hcause : NoFreeInode s ∨ NoFreeBlock s ∨ NoFreeEntry s) :
    ∃ t, Tfs.tfsOpen path flags s = some (-1, t) ∧ ((NoFreeInode s ∧ t = s) ∨
      ∃ i < 50, 0 < i ∧ s.freeinodeTs i = .free ∧
        ((NoFreeBlock s ∧ t = blocklessFile s i) ∨
          ¬ NoFreeBlock s ∧ ∃ b, 0 < b ∧ t = preparedFile s i b)) := by
  have hcreate : Tfs.tfsOpen path flags s = Tfs.openCreate path s := by
    unfold Tfs.tfsOpen
    simp [hvalid, show ¬ tfsLookup path s ≥ 0 by omega, hcreat]
  rw [hcreate]
  unfold Tfs.openCreate
  rcases inodeCreate_file_cases s with ⟨hfull, hEq⟩ | ⟨i, hi, hfree, hblocks⟩
  · simp only [hEq, if_true]
    exact ⟨s, rfl, Or.inl ⟨noFreeInode_iff.2 hfull, rfl⟩⟩
  have hpos := hs.pos_of_free hfree
  have hinode : ¬ NoFreeInode s := fun hnone => by simp [noFreeInode_iff.1 hnone i hi] at hfree
  rcases hblocks with ⟨hfull, hEq⟩ | ⟨b, hb, hfreeB, hEq⟩
  · simp only [hEq, if_true]
    exact ⟨_, rfl, Or.inr ⟨i, hi, hpos, hfree, Or.inl ⟨noFreeBlock_iff.2 hfull, rfl⟩⟩⟩
  have hblock : ¬ NoFreeBlock s := fun hnone => by simp [noFreeBlock_iff.1 hnone b hb] at hfreeB
  -- only the directory can be what was full
  have hentry : emptyEntry (createdFile s i b).disk.fsData 0 = none := by
    have hnone : NoFreeEntry s := by
      rcases hcause with h | h | h
      · exact absurd h hinode
      · exact absurd h hblock
      · exact h
    rw [hs.noFreeEntry_iff, hEq] at hnone
    exact hnone
  have hbpos : 0 < b := by
    by_contra hzero
    exact emptyEntry_createdFile.2 (Or.inl (by omega)) hentry
  have hcreated : Undisturbed s (createdFile s i b) :=
    Undisturbed.of_newNode (n := ⟨.file, 0, fun _ => -1, b⟩) hpos rfl rfl rfl rfl
      (by simp [createdFile, preparedFile, hpos.ne])
  have hnum : ¬ (i : ℤ) = -1 := by omega
  rcases afterSlash_of_valid hvalid with ⟨p, _, hname, hlen⟩
  refine ⟨preparedFile s i b, ?_, Or.inr ⟨i, hi, hpos, hfree, Or.inr ⟨hblock, b, hbpos, rfl⟩⟩⟩
  simp only [hEq, if_neg hnum, hname, addDirEntry_root (hcreated.shape hs).root hi, Option.bind_some,
    if_neg hlen, hentry, if_true, inodeDelete_createdFile hi hfree hb hfreeB]

theorem Shape.failedCreation_cases (hs : Shape s) (hfail : FailedCreation s (.open path flags))
    (hopen : Tfs.tfsOpen path flags s = some (r, t)) :
    (NoFreeInode s ∧ t = s) ∨
      ∃ i < 50, 0 < i ∧ s.freeinodeTs i = .free ∧
        ((NoFreeBlock s ∧ t = blocklessFile s i) ∨
          ¬ NoFreeBlock s ∧ ∃ b, 0 < b ∧ t = preparedFile s i b) := by
  rcases hfail with ⟨hcreat, hvalid, habsent, hcause, _⟩
  rcases hs.tfsOpen_failedCreation flags hcreat hvalid habsent hcause with ⟨u, hEq, hcases⟩
  rw [hopen] at hEq
  cases hEq
  exact hcases

theorem Shape.failedCreation_keepsSpace (hs : Shape s) (hfail : FailedCreation s (.open path flags))
    (hopen : Tfs.tfsOpen path flags s = some (r, t)) (hundo : CanUndo s) : KeepsSpace s t := by
  rcases hs.failedCreation_cases hfail hopen with ⟨_, rfl⟩ | ⟨i, hi, hpos, hfree, hcases⟩
  · exact KeepsSpace.refl t
  rcases hcases with ⟨hfull, rfl⟩ | ⟨_, b, hb, rfl⟩
  · rcases hundo with hnone | hblock
    · simp [noFreeInode_iff.1 hnone i hi] at hfree
    · exact absurd hfull hblock
  · exact keepsSpace_preparedFile hs hpos hb

/-- No failed creation gives an i-node back that it did not take. -/
theorem Shape.failedCreation_taken (hs : Shape s) (hfail : FailedCreation s (.open path flags))
    (hopen : Tfs.tfsOpen path flags s = some (r, t)) {j : ℕ} (hj : s.freeinodeTs j = .taken) :
    t.freeinodeTs j = .taken := by
  rcases hs.failedCreation_cases hfail hopen with ⟨_, rfl⟩ | ⟨i, _, _, hfree, ⟨_, rfl⟩ | ⟨_, b, _, rfl⟩⟩
  · exact hj
  · have hji : j ≠ i := by
      rintro rfl
      simp [hj] at hfree
    simpa [blocklessFile, hji] using hj
  · exact hj

/-- The i-node that is not given back. -/
theorem Shape.failedCreation_leaks (hs : Shape s) (hfail : FailedCreation s (.open path flags))
    (hopen : Tfs.tfsOpen path flags s = some (r, t)) (hundo : ¬ CanUndo s) :
    ∃ i < 50, s.freeinodeTs i = .free ∧ t.freeinodeTs i = .taken := by
  unfold CanUndo at hundo
  push Not at hundo
  rcases hs.failedCreation_cases hfail hopen with ⟨hnone, _⟩ | ⟨i, hi, _, hfree, ⟨_, rfl⟩ | ⟨hblock, _⟩⟩
  · exact absurd hnone hundo.1
  · exact ⟨i, hi, hfree, by simp [blocklessFile]⟩
  · exact absurd hundo.2 hblock

/-! ## Any number of them -/

theorem exec_of_failedCreation (hfail : FailedCreation s a) (hexec : fileSystem.exec a s = some (reply, t)) :
    ∃ path flags r, a = .open path flags ∧ tfsOpen path flags s = some (r, t) := by
  cases a with
  | «open» path flags =>
      rcases Option.map_eq_some_iff.1 hexec with ⟨⟨r, u⟩, hopen, hEq⟩
      cases hEq
      exact ⟨path, flags, r, rfl, hopen⟩
  | close fhandle => exact absurd hfail id
  | write fhandle buffer n => exact absurd hfail id
  | read fhandle n => exact absurd hfail id

theorem Shape.next {s : State} (hs : Shape s) (hexec : fileSystem.exec a s = some (reply, t)) : Shape t := by
  rcases hs.exec a with ⟨reply', t', hEq, ht⟩
  rw [show fileSystem.exec a s = some (reply', t') from hEq] at hexec
  cases hexec
  exact ht

/-- A run of failed creations that can be undone. -/
theorem Shape.failedRun_keepsSpace (as : List Call) {s t : State} {rs : List Reply} (hs : Shape s)
    (hundo : CanUndo s) (hok : fileSystem.RunOk FailedCreation as s)
    (hrun : fileSystem.run as s = some (rs, t)) : KeepsSpace s t := by
  refine Machine.run_preserves (I := fun s => Shape s ∧ CanUndo s) KeepsSpace.refl
    (fun _ _ _ => KeepsSpace.trans) ?_ as ⟨hs, hundo⟩ hok hrun
  rintro s a r t ⟨hs, hundo⟩ hfail hexec
  rcases exec_of_failedCreation hfail hexec with ⟨path, flags, r', rfl, hopen⟩
  have hkeeps := hs.failedCreation_keepsSpace hfail hopen hundo
  exact ⟨⟨hs.next hexec, hkeeps.canUndo_iff.2 hundo⟩, hkeeps⟩

/-- What is taken stays taken in a run of failed creations. -/
theorem Shape.failedRun_taken (as : List Call) {s t : State} {rs : List Reply} (hs : Shape s)
    (hok : fileSystem.RunOk FailedCreation as s) (hrun : fileSystem.run as s = some (rs, t)) :
    ∀ j, s.freeinodeTs j = .taken → t.freeinodeTs j = .taken := by
  refine Machine.run_preserves (I := Shape)
    (R := fun s t => ∀ j, s.freeinodeTs j = .taken → t.freeinodeTs j = .taken) (fun _ _ hj => hj)
    (fun _ _ _ hst htu j hj => htu j (hst j hj)) ?_ as hs hok hrun
  intro s a r t hs hfail hexec
  rcases exec_of_failedCreation hfail hexec with ⟨path, flags, r', rfl, hopen⟩
  exact ⟨hs.next hexec, fun j hj => hs.failedCreation_taken hfail hopen hj⟩

/-- In every state that any calls reach, any number of failed creations keeps the space iff the first one
can be undone. -/
theorem failedCreations_keepSpace_iff {hist : List (State × Call)} (he : anyCalls.Execution hist s)
    {as : List Call} {rs : List Reply} (hfail : fileSystem.RunOk FailedCreation as s)
    (hrun : fileSystem.run as s = some (rs, t)) : KeepsSpace s t ↔ as = [] ∨ CanUndo s := by
  have hs := shape_of_execution he
  constructor
  · intro hkeep
    rcases as with _ | ⟨a, as⟩
    · exact Or.inl rfl
    right
    by_contra hundo
    rcases Machine.run_cons_eq hrun with ⟨reply, u, rs', hexec, hrun', rfl⟩
    rcases exec_of_failedCreation hfail.1 hexec with ⟨path, flags, r, rfl, hopen⟩
    rcases hs.failedCreation_leaks hfail.1 hopen hundo with ⟨i, _, hfree, htaken⟩
    -- the i-node that the first creation kept is still taken at the end
    have hlast : t.freeinodeTs i = .taken :=
      Shape.failedRun_taken as (hs.next hexec) (hfail.2 reply u hexec) hrun' i htaken
    rw [hkeep.freeinodeTs, hfree] at hlast
    cases hlast
  · rintro (rfl | hundo)
    · cases hrun
      exact KeepsSpace.refl s
    · exact Shape.failedRun_keepsSpace as hs hundo hfail hrun

/-- In a full directory the space is kept. -/
theorem failedCreations_keepSpace_iff_fullDirectory : ∃ hist s t, anyCalls.Execution hist s ∧
    hist.map Prod.snd = fillDirectory.reverse ∧
    tfsOpen (some (slash 0x78 (by decide))) tfsOCreat s = some (-1, t) ∧ KeepsSpace s t := by
  rcases exists_fullDirectory with ⟨hist, s, he, hlabels, hfull⟩
  have hs := shape_of_execution he
  have habsent : tfsLookup (some (slash 0x78 (by decide))) s < 0 := by
    rw [hfull.absent]
    omega
  have hentry : NoFreeEntry s := by
    rw [hs.noFreeEntry_iff, inodeCreate_file_some hfull.inode hfull.block]
    by_contra hsome
    rcases emptyEntry_createdFile.1 hsome with hzero | ⟨k, hk, hunused⟩
    · omega
    · exact hunused (hfull.entries k hk)
  rcases hs.tfsOpen_failedCreation tfsOCreat (by decide) (by decide) habsent
    (Or.inr (Or.inr hentry)) with ⟨t, hopen, _⟩
  have hrun : fileSystem.run [.open (some (slash 0x78 (by decide))) tfsOCreat] s = some ([⟨-1, []⟩], t) := by
    simp [Machine.run, fileSystem, exec, hopen]
  refine ⟨hist, s, t, he, hlabels, hopen, (failedCreations_keepSpace_iff he ?_ hrun).2 (Or.inr (Or.inr ?_))⟩
  · exact ⟨⟨by decide, by decide, habsent, Or.inr (Or.inr hentry), t, hopen⟩, fun _ _ _ => trivial⟩
  · intro hnone
    rw [NoFreeBlock, hfull.block] at hnone
    cases hnone

/-- The write to `/d` takes the last blocks; creating `/e` then fails and keeps an i-node. -/
theorem fullDisk_keeps_inode : ∃ hist s t, anyCalls.Execution hist s ∧
    hist.map Prod.snd = [.write 3 (fun _ => 0x41) 272384, .write 2 (fun _ => 0x41) 272384,
      .write 1 (fun _ => 0x41) 272384, .write 0 (fun _ => 0x41) 272384] ++ fourFiles.reverse ∧
    FailedCreation s (.open (some (slash 0x65 (by decide))) tfsOCreat) ∧
    tfsOpen (some (slash 0x65 (by decide))) tfsOCreat s = some (-1, t) ∧ ¬ KeepsSpace s t := by
  rcases exists_almostFull with ⟨hist, s, hfull⟩
  have hinv := (inv_of_execution hfull.run hfull.steps).1
  have hcount := hfull.count
  rcases hfull.last.tfsWrite_turns hfull.run hfull.steps (fun _ => 0x41) with
    ⟨a, J, t, ht, hblocks, ⟨_, hzero, hEq⟩ | ⟨rfl, _⟩⟩
  · have hexec : exec (.write (3 : ℕ) (fun _ => 0x41) 272384) s =
      some (⟨(progress 0 272384 J).writen, []⟩, t) :=
      congrArg (Option.map _) hEq
    have he : anyCalls.Execution ((s, .write (3 : ℕ) (fun _ => 0x41) 272384) :: hist) t :=
      (anyCalls_of_proper hfull.run).next ⟨trivial, _, hexec⟩
    have hs := shape_of_execution he
    have habsent : tfsLookup (some (slash 0x65 (by decide))) t < 0 := by
      rw [tfsLookup_of_sameBlock hinv ht.head.inv (ht.sameBlock_root hinv (hfull.last.live hinv).2.2),
          hfull.absent]
      omega
    -- the write took every block that was free
    have hnone : NoFreeBlock t := by
      rw [noFreeBlock_iff]
      intro b hb
      by_contra hfree
      have hpos := freeBlockCount_pos hb (AllocationState.ne_taken.1 hfree)
      omega
    have hinode : t.freeinodeTs 5 = .free := by rw [ht.nodes.freeinodeTs, hfull.inode]
    rcases hs.tfsOpen_failedCreation tfsOCreat (by decide) (by decide) habsent
      (Or.inr (Or.inl hnone)) with ⟨u, hopen, _⟩
    have hfail : FailedCreation t (.open (some (slash 0x65 (by decide))) tfsOCreat) :=
      ⟨by decide, by decide, habsent, Or.inr (Or.inl hnone), u, hopen⟩
    -- an i-node is free but no block is: the creation fails after it took the i-node
    have hundo : ¬ CanUndo t := by
      rintro (hfull | hblock)
      · simp [noFreeInode_iff.1 hfull 5 (by omega)] at hinode
      · exact hblock hnone
    rcases hs.failedCreation_leaks hfail hopen hundo with ⟨i, _, hfree, htaken⟩
    refine ⟨_, t, u, he, by simp [hfull.labels], hfail, hopen, ?_⟩
    intro hkeep
    rw [hkeep.freeinodeTs, hfree] at htaken
    cases htaken
  · omega

end Space

end Tfs
end TecnicoFs
