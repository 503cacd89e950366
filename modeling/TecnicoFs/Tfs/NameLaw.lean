import TecnicoFs.Tfs.Threads

/-!
# Multi-block names — when concurrent opens create a file once

The directory search of `tfs_open` and the insertion are separate critical sections. As long as no
two threads create the same name at the same time, the name a thread is creating stays out of the
directory until the thread itself enters it, and names stay distinct. Two overlapping creations of
one name enter it twice.
-/

namespace TecnicoFs
namespace Tfs
namespace Threads

open Lib

/-! ## What the tables say about one i-node or one name -/

section Facts

variable {s t : State} {i b k : ℕ} {z : ℤ} {name : CString}

/-- An empty file: no call of this module writes. -/
def FileNode (s : State) (i : ℕ) : Prop :=
  0 < i ∧ i < 50 ∧ s.freeinodeTs i = .taken ∧ (s.inodeTable i).iSize = 0 ∧
    ∀ k, (s.inodeTable i).iDataBlock k = -1

def Named (s : State) (name : CString) (z : ℤ) : Prop :=
  ∃ k < 23, EntryUsed s.disk.fsData 0 k ∧ entryName s.disk.fsData 0 k = name ∧
    dInumber s.disk.fsData 0 k = z

/-- An i-node that a thread has taken and not named. -/
def Held (s : State) (i : ℕ) : Prop :=
  FileNode s i ∧ ∀ name, ¬ Named s name i

def Absent (s : State) (name : CString) : Prop :=
  ∀ z, ¬ Named s name z

/-- Erasing the blocks of the i-node can free no more than its index block, which is not the root
directory's block. -/
def Prepared (s : State) (i : ℕ) : Prop :=
  (∀ k, (s.inodeTable i).iDataBlock k = -1) ∧
    ((s.inodeTable i).iIndexBlock = -1 ∨
      ∃ b, 0 < b ∧ b < 1024 ∧ (s.inodeTable i).iIndexBlock = (b : ℕ) ∧
        ∀ k < 256, indexEntry s.disk.fsData (b * 1024) k = -1)

/-- The handle is taken, and stands for the i-node with this name. -/
def Registered (s : State) (name : CString) (h : ℤ) : Prop :=
  ∃ k : ℕ, h = k ∧ s.freeOpenFileEntries k = .taken ∧ Named s name (s.openFileTable k).ofInumber

/-- The root directory is in place, its entries stand for files, and no name is there twice. -/
structure DirectoryOk (s : State) : Prop where
  root : RootDirectory s
  rootTaken : s.freeinodeTs 0 = .taken
  blockTaken : s.disk.freeBlocks 0 = .taken
  terminated : Terminated s.disk.fsData 0
  entries : ∀ name z, Named s name z → ∃ i : ℕ, z = i ∧ FileNode s i
  names : ∀ j < 23, ∀ k < 23, EntryUsed s.disk.fsData 0 j → EntryUsed s.disk.fsData 0 k →
    entryName s.disk.fsData 0 j = entryName s.disk.fsData 0 k → j = k

/-- A name stands for one number. -/
theorem DirectoryOk.named_unique (hs : DirectoryOk s) {y : ℤ} (hy : Named s name y)
    (hz : Named s name z) : y = z := by
  rcases hy with ⟨j, hj, husedJ, hnameJ, rfl⟩
  rcases hz with ⟨k, hk, husedK, hnameK, rfl⟩
  rw [hs.names j hj k hk husedJ husedK (hnameJ.trans hnameK.symm)]

theorem DirectoryOk.lookup_cases (hs : DirectoryOk s) {path : CString}
    (hpath : validPathname (some path) = true) :
    (0 ≤ tfsLookup (some path) s ∧ Named s path.tail (tfsLookup (some path) s)) ∨
      (tfsLookup (some path) s = -1 ∧ Absent s path.tail) := by
  have hlookup : tfsLookup (some path) s =
      (searchEntry s.disk.fsData 0 path.tail).elim (-1) (dInumber s.disk.fsData 0) := by
    rw [← findInDir_root hs.root]
    simp only [tfsLookup, hpath, if_true]
  rw [hlookup]
  rcases hsearch : searchEntry s.disk.fsData 0 path.tail with _ | k
  · right
    refine ⟨rfl, ?_⟩
    rintro z ⟨k, hk, hused, hname, -⟩
    exact (searchEntry_eq_none hs.terminated).1 hsearch k hk hused hname
  · left
    rcases (searchEntry_eq_some hs.terminated).1 hsearch with ⟨hk, hused, hname, _⟩
    have hnamed : Named s path.tail (dInumber s.disk.fsData 0 k) := ⟨k, hk, hused, hname, rfl⟩
    rcases hs.entries _ _ hnamed with ⟨i, hi, _⟩
    exact ⟨by simp only [Option.elim]; omega, hnamed⟩

end Facts

/-! ## Steps that leave the directory alone -/

section Keeps

variable {s t : State} {i b k : ℕ} {z : ℤ} {name : CString} {gone : ℕ → Prop}

/-- What every step but an insertion keeps; `gone` are the i-nodes it frees. -/
structure Keeps (gone : ℕ → Prop) (s t : State) : Prop where
  directory : SameBlock s.disk.fsData t.disk.fsData 0
  root : t.inodeTable 0 = s.inodeTable 0
  rootTaken : s.freeinodeTs 0 = .taken → t.freeinodeTs 0 = .taken
  blockTaken : s.disk.freeBlocks 0 = .taken → t.disk.freeBlocks 0 = .taken
  files : ∀ i, ¬ gone i → FileNode s i → FileNode t i
  prepared : ∀ i, Prepared s i → Prepared t i
  opened : ∀ h, s.freeOpenFileEntries h = .taken →
    t.freeOpenFileEntries h = .taken ∧ t.openFileTable h = s.openFileTable h

theorem Keeps.refl (s : State) : Keeps gone s s where
  directory := SameBlock.refl _ _
  root := rfl
  rootTaken h := h
  blockTaken h := h
  files _ _ h := h
  prepared _ h := h
  opened _ h := ⟨h, rfl⟩

theorem named_iff_of_sameBlock (h : SameBlock s.disk.fsData t.disk.fsData 0) :
    Named t name z ↔ Named s name z := by
  constructor
  · rintro ⟨k, hk, hused, hname, hnum⟩
    exact ⟨k, hk, (h.entryUsed_iff hk).1 hused, (h.entryName_eq hk).symm.trans hname,
      (h.dInumber_eq hk).symm.trans hnum⟩
  · rintro ⟨k, hk, hused, hname, hnum⟩
    exact ⟨k, hk, (h.entryUsed_iff hk).2 hused, (h.entryName_eq hk).trans hname,
      (h.dInumber_eq hk).trans hnum⟩

theorem Keeps.held (h : Keeps gone s t) (hi : ¬ gone i) (hheld : Held s i) : Held t i :=
  ⟨h.files i hi hheld.1, fun name hn => hheld.2 name ((named_iff_of_sameBlock h.directory).1 hn)⟩

theorem Keeps.absent (h : Keeps gone s t) (ha : Absent s name) : Absent t name :=
  fun z hn => ha z ((named_iff_of_sameBlock h.directory).1 hn)

theorem Keeps.directoryOk (h : Keeps gone s t) (hs : DirectoryOk s)
    (hgone : ∀ i, gone i → Held s i) : DirectoryOk t where
  root := ⟨by rw [h.root]; exact hs.root.iNodeType, by rw [h.root]; exact hs.root.firstBlock⟩
  rootTaken := h.rootTaken hs.rootTaken
  blockTaken := h.blockTaken hs.blockTaken
  terminated := h.directory.terminated hs.terminated
  entries := by
    intro name z hn
    have hold : Named s name z := (named_iff_of_sameBlock h.directory).1 hn
    rcases hs.entries name z hold with ⟨i, rfl, hfile⟩
    have hi : ¬ gone i := fun hg => (hgone i hg).2 name hold
    exact ⟨i, rfl, h.files i hi hfile⟩
  names := by
    intro j hj k hk husedJ husedK hname
    rw [h.directory.entryName_eq hj, h.directory.entryName_eq hk] at hname
    exact hs.names j hj k hk ((h.directory.entryUsed_iff hj).1 husedJ)
      ((h.directory.entryUsed_iff hk).1 husedK) hname

theorem keeps_takeInode (hs : s.freeinodeTs 0 = .taken) (hfree : s.freeinodeTs k = .free) :
    Keeps (fun _ => False) s ((s.markInode k .taken).setInode k
      { s.inodeTable k with iNodeType := .file, iSize := 0, iDataBlock := fun _ => -1 }) := by
  have hk : k ≠ 0 := by
    rintro rfl
    simp [hs] at hfree
  refine ⟨SameBlock.refl _ _, by simp [Ne.symm hk], fun _ => by simp [Ne.symm hk, hs], fun h => h,
    ?_, ?_, fun _ h => ⟨h, rfl⟩⟩
  · intro i _ hfile
    have hik : i ≠ k := by
      rintro rfl
      simp [hfile.2.2.1] at hfree
    simpa [FileNode, hik] using hfile
  · intro i hprep
    by_cases hik : i = k
    · subst hik
      simpa [Prepared] using hprep.2
    · simpa [Prepared, hik] using hprep

theorem indexEntry_fillIndexBlock_of_ne {m : Memory} {c : ℕ} (hcb : c ≠ b) (hk : k < 256) :
    indexEntry (fillIndexBlock m (b * 1024)) (c * 1024) k = indexEntry m (c * 1024) k := by
  apply readInt_congr
  intro j hj
  have hsame := sameBlock_fillIndexBlock (m := m) hcb (4 * k + j) (by omega)
  rwa [← Nat.add_assoc] at hsame

/-- The state after `takeBlockStep` took block `b` for i-node `i`. -/
def tookBlock (s : State) (i b : ℕ) : State :=
  ((s.setDisk (s.disk.markBlock b .taken)).setInode i
    { s.inodeTable i with iIndexBlock := b }).setData (fillIndexBlock s.disk.fsData (b * 1024))

theorem prepared_tookBlock (hfile : FileNode s i) (hb : 0 < b) (hlt : b < 1024) :
    Prepared (tookBlock s i b) i := by
  refine ⟨by simpa [tookBlock] using hfile.2.2.2.2, Or.inr ⟨b, hb, hlt, by simp [tookBlock], ?_⟩⟩
  intro k hk
  exact indexEntry_fillIndexBlock hk

theorem keeps_tookBlock (hi : 0 < i) (hb : 0 < b) (hlt : b < 1024) :
    Keeps gone s (tookBlock s i b) where
  directory := by
    have hsame : SameBlock s.disk.fsData (fillIndexBlock s.disk.fsData (b * 1024)) (0 * 1024) :=
      sameBlock_fillIndexBlock (by omega)
    exact hsame
  root := Function.update_of_ne (by omega) _ _
  rootTaken h := h
  blockTaken h := by
    have hzero : (0 : ℕ) ≠ b := by omega
    simpa [tookBlock, Disk.markBlock_freeBlocks_of_ne hzero] using h
  files := by
    intro j _ hfile
    by_cases hji : j = i
    · subst hji
      simpa [tookBlock, FileNode] using hfile
    · simpa [tookBlock, FileNode, hji] using hfile
  prepared := by
    intro j hprep
    -- the whole of block b is filled with -1, whether it was an index block before or not
    have hfill : ∀ k < 256, indexEntry (fillIndexBlock s.disk.fsData (b * 1024)) (b * 1024) k = -1 :=
      fun k hk => indexEntry_fillIndexBlock hk
    by_cases hji : j = i
    · subst hji
      exact ⟨by simpa [tookBlock] using hprep.1, Or.inr ⟨b, hb, hlt, by simp [tookBlock], hfill⟩⟩
    · refine ⟨by simpa [tookBlock, hji] using hprep.1, ?_⟩
      rcases hprep.2 with hnone | ⟨c, hc, hclt, hindex, hentries⟩
      · exact Or.inl (by simpa [tookBlock, hji] using hnone)
      · refine Or.inr ⟨c, hc, hclt, by simpa [tookBlock, hji] using hindex, ?_⟩
        intro k hk
        by_cases hcb : c = b
        · subst hcb
          exact hfill k hk
        · exact (indexEntry_fillIndexBlock_of_ne hcb hk).trans (hentries k hk)
  opened h htaken := ⟨htaken, rfl⟩

theorem keeps_noBlock (hi : 0 < i) :
    Keeps gone s (s.setInode i { s.inodeTable i with iIndexBlock := -1 }) where
  directory := SameBlock.refl _ _
  root := Function.update_of_ne (by omega) _ _
  rootTaken h := h
  blockTaken h := h
  files := by
    intro j _ hfile
    by_cases hji : j = i
    · subst hji
      simpa [FileNode] using hfile
    · simpa [FileNode, hji] using hfile
  prepared := by
    intro j hprep
    by_cases hji : j = i
    · subst hji
      simpa [Prepared] using hprep.1
    · simpa [Prepared, hji] using hprep
  opened h htaken := ⟨htaken, rfl⟩

theorem keeps_freedInode (hi : 0 < i) : Keeps (fun j => j = i) s (s.markInode i .free) where
  directory := SameBlock.refl _ _
  root := rfl
  rootTaken h := by
    have hzero : (0 : ℕ) ≠ i := by omega
    simpa [hzero] using h
  blockTaken h := h
  files := by
    intro j hj hfile
    simpa [FileNode, hj] using hfile
  prepared _ h := h
  opened h htaken := ⟨htaken, rfl⟩

/-- Erasing the blocks of a prepared i-node erases nothing. -/
theorem erase_prepared (hprep : Prepared s i) :
    inodeDatablocksErase (s.inodeTable i) s.disk = (0, s.disk) ∨
      (s.inodeTable i).iIndexBlock = -1 ∧
        inodeDatablocksErase (s.inodeTable i) s.disk = (-1, s.disk) := by
  unfold inodeDatablocksErase
  simp only [freeDirect_of_empty hprep.1]
  rcases hprep.2 with hnone | ⟨b, _, hlt, hindex, hentries⟩
  · exact Or.inr ⟨hnone, by simp [hnone]⟩
  · left
    simp only [hindex, dataBlockGet_natCast hlt]
    rw [freeIndirect_of_empty]
    · simp
    · intro k hk
      exact hentries k (List.mem_range.1 hk)

/-- Freeing the index block of a prepared i-node is all that `deleteBlocksStep` does. -/
theorem keeps_deleteBlocks (path : CString) (hprep : Prepared s i) :
    Keeps gone s (deleteBlocksStep path i s).2 := by
  rcases erase_prepared hprep with herase | ⟨_, herase⟩
  · simp only [deleteBlocksStep, herase, ne_eq, not_true_eq_false, if_false]
    rcases hprep.2 with hnone | ⟨b, hb, hlt, hindex, _⟩
    · rw [hnone, Disk.dataBlockFree_of_not_valid (by omega)]
      exact Keeps.refl s
    · rw [hindex, Disk.dataBlockFree_of_valid hlt]
      refine ⟨SameBlock.refl _ _, rfl, fun h => h, ?_, fun _ _ h => h, fun _ h => h,
        fun _ h => ⟨h, rfl⟩⟩
      intro h
      have hzero : (0 : ℕ) ≠ b := by omega
      simpa [Disk.markBlock_freeBlocks_of_ne hzero] using h
  · simp only [deleteBlocksStep, herase]
    exact Keeps.refl s

theorem keeps_registered {e : OpenFileEntry} (hfree : s.freeOpenFileEntries k = .free) :
    Keeps gone s ((s.markHandle k .taken).setEntry k e) where
  directory := SameBlock.refl _ _
  root := rfl
  rootTaken h := h
  blockTaken h := h
  files _ _ h := h
  prepared _ h := h
  opened h htaken := by
    have hhk : h ≠ k := by
      rintro rfl
      simp [htaken] at hfree
    simp [hhk, htaken]

end Keeps

/-! ## The insertion -/

section Insertion

variable {s : State} {i j k : ℕ} {z : ℤ} {name other : CString}

theorem named_namedFile (hk : k < 23) (hi : i < 50) (hunused : ¬ EntryUsed s.disk.fsData 0 k)
    (hlen : name.strlen < maxFileName) :
    Named (namedFile s k i name) other z ↔ Named s other z ∨ (other = name ∧ z = i) := by
  have hcut : cutName name = name := cutName_of_le (Nat.le_of_lt_succ hlen)
  constructor
  · rintro ⟨j, hj, hused, hname, hnum⟩
    rw [namedFile, State.setData_disk_fsData] at hused hname hnum
    by_cases hjk : j = k
    · subst hjk
      rw [entryName_fillEntry_self, hcut] at hname
      rw [dInumber_fillEntry_self (by omega) (by omega)] at hnum
      exact Or.inr ⟨hname.symm, hnum.symm⟩
    · rw [entryName_fillEntry_of_ne hjk] at hname
      rw [dInumber_fillEntry_of_ne hjk] at hnum
      rcases (entryUsed_fillEntry (by omega) (by omega)).1 hused with hEq | hold
      · exact absurd hEq hjk
      · exact Or.inl ⟨j, hj, hold, hname, hnum⟩
  · rintro (⟨j, hj, hused, hname, hnum⟩ | ⟨rfl, rfl⟩)
    · -- the new entry was unused before
      have hjk : j ≠ k := by
        rintro rfl
        exact hunused hused
      refine ⟨j, hj, ?_, ?_, ?_⟩
      · exact (entryUsed_fillEntry (by omega) (by omega)).2 (Or.inr hused)
      · exact (entryName_fillEntry_of_ne hjk).trans hname
      · exact (dInumber_fillEntry_of_ne hjk).trans hnum
    · refine ⟨k, hk, ?_, ?_, ?_⟩
      · exact (entryUsed_fillEntry (by omega) (by omega)).2 (Or.inl rfl)
      · exact entryName_fillEntry_self.trans hcut
      · exact dInumber_fillEntry_self (by omega) (by omega)

theorem prepared_namedFile (hk : k < 23) (hprep : Prepared s j) :
    Prepared (namedFile s k i name) j := by
  refine ⟨hprep.1, ?_⟩
  rcases hprep.2 with hnone | ⟨b, hb, hlt, hindex, hentries⟩
  · exact Or.inl hnone
  · refine Or.inr ⟨b, hb, hlt, hindex, ?_⟩
    intro l hl
    have hkeep : indexEntry (namedFile s k i name).disk.fsData (b * 1024) l =
        indexEntry s.disk.fsData (b * 1024) l := by
      apply readInt_congr
      intro m hm
      apply fillEntry_of_disjoint
      omega
    rw [hkeep]
    exact hentries l hl

theorem directoryOk_namedFile (hs : DirectoryOk s) (hk : k < 23) (hheld : Held s i)
    (hunused : ¬ EntryUsed s.disk.fsData 0 k) (hlen : name.strlen < maxFileName)
    (habsent : Absent s name) : DirectoryOk (namedFile s k i name) where
  root := ⟨hs.root.iNodeType, hs.root.firstBlock⟩
  rootTaken := hs.rootTaken
  blockTaken := hs.blockTaken
  terminated := hs.terminated.fillEntry (by omega) (by have := hheld.1.2.1; omega)
  entries := by
    intro other z hn
    rcases (named_namedFile hk hheld.1.2.1 hunused hlen).1 hn with hold | ⟨-, rfl⟩
    · exact hs.entries other z hold
    · exact ⟨i, rfl, hheld.1⟩
  names := by
    have hi := hheld.1.2.1
    have hcut : cutName name = name := cutName_of_le (Nat.le_of_lt_succ hlen)
    -- An entry other than `k` is an old one, and has another name.
    have hother : ∀ j < 23, j ≠ k → EntryUsed (namedFile s k i name).disk.fsData 0 j →
        EntryUsed s.disk.fsData 0 j ∧ entryName (namedFile s k i name).disk.fsData 0 j =
          entryName s.disk.fsData 0 j ∧ entryName s.disk.fsData 0 j ≠ name := by
      intro j hj hjk hused
      rcases (entryUsed_fillEntry (by omega) (by omega)).1 hused with hEq | hold
      · exact absurd hEq hjk
      · exact ⟨hold, entryName_fillEntry_of_ne hjk,
          fun hname => habsent _ ⟨j, hj, hold, hname, rfl⟩⟩
    have hself : entryName (namedFile s k i name).disk.fsData 0 k = name :=
      entryName_fillEntry_self.trans hcut
    intro j hj l hl husedJ husedL hname
    by_cases hjk : j = k
    · by_cases hlk : l = k
      · rw [hjk, hlk]
      · rcases hother l hl hlk husedL with ⟨_, hold, hne⟩
        rw [hjk, hself, hold] at hname
        exact absurd hname.symm hne
    · rcases hother j hj hjk husedJ with ⟨hold, hnameJ, hne⟩
      by_cases hlk : l = k
      · rw [hlk, hself, hnameJ] at hname
        exact absurd hname hne
      · rcases hother l hl hlk husedL with ⟨holdL, hnameL, _⟩
        rw [hnameJ, hnameL] at hname
        exact hs.names j hj l hl hold holdL hname

end Insertion

/-! ## The invariant of a run -/

/-- The i-node the thread has taken and not named. -/
def Pc.holds : Pc → Option ℕ
  | .takeBlock _ inum _ => some inum
  | .insert _ inum => some inum
  | .deleteInode _ inum => some inum
  | _ => none

/-- The i-node whose blocks the thread may erase. -/
def Pc.erases : Pc → Option ℕ
  | .insert _ inum => some inum
  | .deleteInode _ inum => some inum
  | .deleteBlocks _ inum => some inum
  | _ => none

/-- The name the thread opens and the i-node it has for it. -/
def Pc.opens : Pc → Option (CString × ℤ)
  | .reuse path _ inum => some (path.tail, inum)
  | .register path inum _ _ _ => some (path.tail, inum)
  | _ => none

def Pc.path : Pc → Option CString
  | .idle => none
  | .search path _ => some path
  | .reuse path _ _ => some path
  | .takeInode path _ => some path
  | .takeBlock path _ _ => some path
  | .insert path _ => some path
  | .deleteInode path _ => some path
  | .deleteBlocks path _ => some path
  | .register path _ _ _ _ => some path

structure Inv (w : World) : Prop where
  directory : DirectoryOk w.lib
  held : ∀ t i, (w.pc t).holds = some i → Held w.lib i
  apart : Apart Pc.holds w.pc
  prepared : ∀ t i, (w.pc t).erases = some i → Prepared w.lib i
  opened : ∀ t name z, (w.pc t).opens = some (name, z) → Named w.lib name z
  absent : ∀ t name, (w.pc t).creates = some name → Absent w.lib name
  alone : Apart Pc.creates w.pc
  paths : ∀ t path, (w.pc t).path = some path → ProperPath path
  returned : ∀ x ∈ w.returned, 0 ≤ x.2 → Registered w.lib x.1.tail x.2

/-- Position `q` suits thread `t` when the tables are `s`. -/
structure Fits (w : World) (t : ℕ) (s : State) (q : Pc) : Prop where
  held : ∀ i, q.holds = some i → Held s i ∧ ∀ u, u ≠ t → (w.pc u).holds ≠ some i
  prepared : ∀ i, q.erases = some i → Prepared s i
  opened : ∀ name z, q.opens = some (name, z) → Named s name z
  absent : ∀ name, q.creates = some name →
    Absent s name ∧ ∀ u, u ≠ t → (w.pc u).creates ≠ some name
  paths : ∀ path, q.path = some path → ProperPath path

section Runs

variable {w : World} {s : State} {t i : ℕ} {q : Pc} {returned : List (CString × ℤ)}

theorem fits_idle : Fits w t s .idle := by
  constructor <;> simp [Pc.holds, Pc.erases, Pc.opens, Pc.creates, Pc.path]

/-- The rule for a step of thread `t`: what the other threads rely on is kept, and the new position
suits `t`. -/
theorem Inv.move (hw : Inv w) (hdir : DirectoryOk s)
    (hheld : ∀ u i, u ≠ t → (w.pc u).holds = some i → Held s i)
    (hprep : ∀ i, Prepared w.lib i → Prepared s i)
    (hnamed : ∀ name z, Named w.lib name z → Named s name z)
    (habsent : ∀ u name, u ≠ t → (w.pc u).creates = some name → Absent s name)
    (hfits : Fits w t s q) (hret : ∀ x ∈ returned, 0 ≤ x.2 → Registered s x.1.tail x.2) :
    Inv ⟨s, Function.update w.pc t q, returned⟩ := by
  refine ⟨hdir, ?_, hw.apart.update fun i hi => (hfits.held i hi).2, ?_, ?_, ?_,
    hw.alone.update fun name hn => (hfits.absent name hn).2, ?_, hret⟩
  · exact (Function.forall_update_iff w.pc fun _ q => ∀ i, q.holds = some i → Held s i).2
      ⟨fun i hi => (hfits.held i hi).1, fun u hu i hi => hheld u i hu hi⟩
  · exact (Function.forall_update_iff w.pc fun _ q => ∀ i, q.erases = some i → Prepared s i).2
      ⟨hfits.prepared, fun u _ i hi => hprep i (hw.prepared u i hi)⟩
  · exact (Function.forall_update_iff w.pc fun _ q =>
      ∀ name z, q.opens = some (name, z) → Named s name z).2
      ⟨hfits.opened, fun u _ name z hu => hnamed name z (hw.opened u name z hu)⟩
  · exact (Function.forall_update_iff w.pc fun _ q =>
      ∀ name, q.creates = some name → Absent s name).2
      ⟨fun name hn => (hfits.absent name hn).1, fun u hu name hn => habsent u name hu hn⟩
  · exact (Function.forall_update_iff w.pc fun _ q =>
      ∀ path, q.path = some path → ProperPath path).2
      ⟨hfits.paths, fun u _ => hw.paths u⟩

theorem Keeps.registered {gone : ℕ → Prop} (h : Keeps gone w.lib s) {name : CString} {z : ℤ}
    (hr : Registered w.lib name z) : Registered s name z := by
  rcases hr with ⟨k, hk, htaken, hnamed⟩
  rcases h.opened k htaken with ⟨htaken', hentry⟩
  refine ⟨k, hk, htaken', ?_⟩
  rw [hentry]
  exact (named_iff_of_sameBlock h.directory).2 hnamed

/-- A step that keeps the directory. -/
theorem Inv.move_keeps (hw : Inv w) {g : ℕ → Prop} (hkeeps : Keeps g w.lib s)
    (hgone : ∀ i, g i → (w.pc t).holds = some i) (hfits : Fits w t s q)
    (hret : ∀ x ∈ returned, 0 ≤ x.2 → Registered s x.1.tail x.2) :
    Inv ⟨s, Function.update w.pc t q, returned⟩ := by
  refine hw.move (hkeeps.directoryOk hw.directory fun i hi => hw.held t i (hgone i hi)) ?_
    hkeeps.prepared (fun name z hn => (named_iff_of_sameBlock hkeeps.directory).2 hn) ?_ hfits hret
  · intro u i hut hu
    have hi : ¬ g i := fun hgi => hut (hw.apart u t i hu (hgone i hgi))
    exact hkeeps.held hi (hw.held u i hu)
  · intro u name _ hu
    exact hkeeps.absent (hw.absent u name hu)

theorem Inv.goto_keeps (hw : Inv w) {g : ℕ → Prop} (hkeeps : Keeps g w.lib s)
    (hgone : ∀ i, g i → (w.pc t).holds = some i) (hfits : Fits w t s q) :
    Inv (w.after t (.goto q, s)) :=
  hw.move_keeps hkeeps hgone hfits fun x hx h0 => hkeeps.registered (hw.returned x hx h0)

theorem Inv.ret_keeps (hw : Inv w) {g : ℕ → Prop} (hkeeps : Keeps g w.lib s)
    (hgone : ∀ i, g i → (w.pc t).holds = some i) {path : CString} {r : ℤ}
    (hr : 0 ≤ r → Registered s path.tail r) : Inv (w.after t (.ret path r, s)) := by
  apply hw.move_keeps hkeeps hgone fits_idle
  intro x hx h0
  rcases List.mem_cons.1 hx with rfl | hx
  · exact hr h0
  · exact hkeeps.registered (hw.returned x hx h0)

end Runs

/-! ## Every step keeps the invariant -/

section Steps

variable {w : World} {t : ℕ} {path : CString}

theorem Inv.call (hw : Inv w) (hpath : ProperPath path) (flags : ℤ) :
    Inv (w.after t (.goto (.search path flags), w.lib)) := by
  apply hw.goto_keeps (g := fun _ => False) (Keeps.refl _) (fun _ h => h.elim)
  constructor <;> simp [Pc.holds, Pc.erases, Pc.opens, Pc.creates, Pc.path, hpath]

theorem Inv.search (hw : Inv w) {flags : ℤ} (hpc : w.pc t = .search path flags)
    (halone : hasFlag flags tfsOCreat = true → tfsLookup (some path) w.lib < 0 →
      ∀ u, u ≠ t → (w.pc u).creates ≠ some path.tail) :
    Inv (w.after t (searchStep path flags w.lib)) := by
  have hpath : ProperPath path := hw.paths t path (by rw [hpc]; rfl)
  have hkeeps : Keeps (fun _ => False) w.lib w.lib := Keeps.refl _
  unfold searchStep
  rcases hw.directory.lookup_cases hpath.1 with ⟨hfound, hnamed⟩ | ⟨hmiss, habsent⟩
  · simp only [ge_iff_le, hfound, if_true]
    apply hw.goto_keeps hkeeps (fun _ h => h.elim)
    constructor <;> simp [Pc.holds, Pc.erases, Pc.opens, Pc.creates, Pc.path, hpath, hnamed]
  · have hnot : ¬ tfsLookup (some path) w.lib ≥ 0 := by omega
    simp only [hnot, if_false]
    by_cases hcreate : hasFlag flags tfsOCreat = true
    · rw [if_pos hcreate]
      -- the name is absent, and nobody else is creating it
      have hothers := halone hcreate (by omega)
      apply hw.goto_keeps hkeeps (fun _ h => h.elim)
      refine ⟨by simp [Pc.holds], by simp [Pc.erases], by simp [Pc.opens], ?_,
        by simp [Pc.path, hpath]⟩
      intro name hn
      rcases Option.some.inj hn with rfl
      exact ⟨habsent, hothers⟩
    · rw [if_neg hcreate]
      exact hw.ret_keeps hkeeps (fun _ h => h.elim) (by omega)

/-- A file that was found is empty, so that there is nothing to truncate. -/
theorem Inv.reuse (hw : Inv w) {flags inum : ℤ} (hpc : w.pc t = .reuse path flags inum) :
    Inv (w.after t (reuseStep path flags inum w.lib)) := by
  have hpath : ProperPath path := hw.paths t path (by rw [hpc]; rfl)
  have hnamed : Named w.lib path.tail inum := hw.opened t _ _ (by rw [hpc]; rfl)
  rcases hw.directory.entries _ _ hnamed with ⟨i, rfl, hfile⟩
  have hempty : truncateFile flags i w.lib = (0, w.lib) := by
    simp [truncateFile, hfile.2.2.2.1]
  have hgoto : ∀ offset append, Inv (w.after t (.goto (.register path i offset append 0), w.lib)) := by
    intro offset append
    apply hw.goto_keeps (g := fun _ => False) (Keeps.refl _) (fun _ h => h.elim)
    constructor <;> simp [Pc.holds, Pc.erases, Pc.opens, Pc.creates, Pc.path, hpath, hnamed]
  unfold reuseStep
  rw [inodeGet_natCast hfile.2.1]
  simp only [hempty]
  rw [if_neg (by decide)]
  split
  · exact hgoto _ _
  · exact hgoto _ _

theorem Inv.takeInode (hw : Inv w) {k : ℕ} (hpc : w.pc t = .takeInode path k) :
    Inv (w.after t (takeInodeStep path k w.lib)) := by
  have hpath : ProperPath path := hw.paths t path (by rw [hpc]; rfl)
  have hcreates : (w.pc t).creates = some path.tail := by rw [hpc]; rfl
  have habsent := hw.absent t _ hcreates
  have hothers := hw.alone.others hcreates
  unfold takeInodeStep
  by_cases hk : k < inodeTableSize
  · rw [if_pos hk]
    by_cases hfree : w.lib.freeinodeTs k = .free
    · rw [if_pos hfree]
      have hkeeps := keeps_takeInode hw.directory.rootTaken hfree
      -- the i-node was free, so no entry names it and nobody else holds it
      have hheld : Held ((w.lib.markInode k .taken).setInode k
          { w.lib.inodeTable k with iNodeType := .file, iSize := 0, iDataBlock := fun _ => -1 }) k := by
        refine ⟨⟨?_, hk, by simp, by simp, by simp⟩, ?_⟩
        · by_contra hzero
          have hk0 : k = 0 := by omega
          rw [hk0, hw.directory.rootTaken] at hfree
          exact absurd hfree (by decide)
        · intro name hn
          rcases hw.directory.entries name k hn with ⟨i, hi, hfile⟩
          have hki : k = i := by exact_mod_cast hi
          rw [hki, hfile.2.2.1] at hfree
          exact absurd hfree (by decide)
      have hnobody : ∀ u, u ≠ t → (w.pc u).holds ≠ some k := by
        intro u _ hu
        rw [(hw.held u k hu).1.2.2.1] at hfree
        exact absurd hfree (by decide)
      apply hw.goto_keeps hkeeps (fun _ h => h.elim)
      refine ⟨?_, by simp [Pc.erases], by simp [Pc.opens], ?_, by simp [Pc.path, hpath]⟩
      · intro i hi
        rcases Option.some.inj hi with rfl
        exact ⟨hheld, hnobody⟩
      · intro name hn
        rcases Option.some.inj hn with rfl
        exact ⟨hkeeps.absent habsent, hothers⟩
    · rw [if_neg hfree]
      -- a taken i-node: on to the next one
      apply hw.goto_keeps (g := fun _ => False) (Keeps.refl _) (fun _ h => h.elim)
      refine ⟨by simp [Pc.holds], by simp [Pc.erases], by simp [Pc.opens], ?_,
        by simp [Pc.path, hpath]⟩
      intro name hn
      rcases Option.some.inj hn with rfl
      exact ⟨habsent, hothers⟩
  · rw [if_neg hk]
    exact hw.ret_keeps (g := fun _ => False) (Keeps.refl _) (fun _ h => h.elim) (by omega)

theorem Inv.takeBlock (hw : Inv w) {i k : ℕ} (hpc : w.pc t = .takeBlock path i k) :
    Inv (w.after t (takeBlockStep path i k w.lib)) := by
  have hpath : ProperPath path := hw.paths t path (by rw [hpc]; rfl)
  have hcreates : (w.pc t).creates = some path.tail := by rw [hpc]; rfl
  have hholds : (w.pc t).holds = some i := by rw [hpc]; rfl
  have habsent := hw.absent t _ hcreates
  have hheld := hw.held t i hholds
  unfold takeBlockStep
  by_cases hk : k < dataBlocks
  · rw [if_pos hk]
    by_cases hfree : w.lib.disk.freeBlocks k = .free
    · rw [if_pos hfree]
      -- block 0 is the root's and stays taken
      have hpos : 0 < k := by
        by_contra hzero
        have hk0 : k = 0 := by omega
        rw [hk0, hw.directory.blockTaken] at hfree
        exact absurd hfree (by decide)
      have hkeeps : Keeps (fun _ => False) w.lib (tookBlock w.lib i k) :=
        keeps_tookBlock hheld.1.1 hpos hk
      apply hw.goto_keeps hkeeps (fun _ h => h.elim)
      refine ⟨?_, ?_, by simp [Pc.opens], ?_, by simp [Pc.path, hpath]⟩
      · intro j hj
        rcases Option.some.inj hj with rfl
        exact ⟨hkeeps.held not_false hheld, hw.apart.others hholds⟩
      · intro j hj
        rcases Option.some.inj hj with rfl
        exact prepared_tookBlock hheld.1 hpos hk
      · intro name hn
        rcases Option.some.inj hn with rfl
        exact ⟨hkeeps.absent habsent, hw.alone.others hcreates⟩
    · rw [if_neg hfree]
      apply hw.goto_keeps (g := fun _ => False) (Keeps.refl _) (fun _ h => h.elim)
      refine ⟨?_, by simp [Pc.erases], by simp [Pc.opens], ?_, by simp [Pc.path, hpath]⟩
      · intro j hj
        rcases Option.some.inj hj with rfl
        exact ⟨hheld, hw.apart.others hholds⟩
      · intro name hn
        rcases Option.some.inj hn with rfl
        exact ⟨habsent, hw.alone.others hcreates⟩
  · rw [if_neg hk]
    exact hw.ret_keeps (g := fun _ => False) (keeps_noBlock hheld.1.1) (fun _ h => h.elim)
      (by omega)

/-- The insertion: only this thread was creating the name, and nobody else holds the i-node. -/
theorem Inv.insert (hw : Inv w) {i : ℕ} (hpc : w.pc t = .insert path i) {x : Next × State}
    (h : insertStep path i w.lib = some x) : Inv (w.after t x) := by
  have hpath : ProperPath path := hw.paths t path (by rw [hpc]; rfl)
  have hcreates : (w.pc t).creates = some path.tail := by rw [hpc]; rfl
  have hholds : (w.pc t).holds = some i := by rw [hpc]; rfl
  have habsent := hw.absent t _ hcreates
  have hheld := hw.held t i hholds
  have hprep : Prepared w.lib i := hw.prepared t i (by rw [hpc]; rfl)
  rcases Option.map_eq_some_iff.1 h with ⟨⟨r, s⟩, hadd, rfl⟩
  rcases addDirEntry_root_cases hw.directory.root hheld.1.2.1 hadd with ⟨name, hname, hcases⟩
  have htail : path.tail = name := by
    have hne : ¬ path.strlen = 0 := by
      intro hzero
      have hvalid := hpath.1
      simp [validPathname, hzero] at hvalid
    simpa [afterSlash, hne] using hname
  subst htail
  rcases hcases with ⟨_, rfl, rfl⟩ | ⟨k, hk, hunused, _, rfl, rfl⟩
  · rw [if_pos rfl]
    -- no room for the name: the i-node is still held, and will be deleted
    apply hw.goto_keeps (g := fun _ => False) (Keeps.refl _) (fun _ h => h.elim)
    refine ⟨?_, ?_, by simp [Pc.opens], by simp [Pc.creates], by simp [Pc.path, hpath]⟩
    · intro j hj
      rcases Option.some.inj hj with rfl
      exact ⟨hheld, hw.apart.others hholds⟩
    · intro j hj
      rcases Option.some.inj hj with rfl
      exact hprep
  · rw [if_neg (show ¬ (0 : ℤ) = -1 by decide)]
    -- the directory has this one name more
    have hnamed : ∀ {other : CString} {z : ℤ}, Named (namedFile w.lib k i path.tail) other z ↔
        Named w.lib other z ∨ (other = path.tail ∧ z = i) :=
      fun {_ _} => named_namedFile hk hheld.1.2.1 hunused hpath.2
    refine hw.move (directoryOk_namedFile hw.directory hk hheld hunused hpath.2 habsent) ?_
      (fun _ => prepared_namedFile hk) (fun other z hn => hnamed.2 (Or.inl hn)) ?_ ?_ ?_
    · -- what other threads hold stays without a name, since it is not `i`
      intro u j hut hu
      have hj := hw.held u j hu
      refine ⟨hj.1, fun other hn => ?_⟩
      rcases hnamed.1 hn with hold | ⟨-, hji⟩
      · exact hj.2 other hold
      · have hji' : j = i := by exact_mod_cast hji
        rw [hji'] at hu
        exact hw.apart.others hholds u hut hu
    · -- what other threads create stays missing, since it is not this name
      intro u other hut hu z hn
      rcases hnamed.1 hn with hold | ⟨rfl, -⟩
      · exact hw.absent u other hu z hold
      · exact hw.alone.others hcreates u hut hu
    · refine ⟨by simp [Pc.holds], by simp [Pc.erases], ?_, by simp [Pc.creates],
        by simp [Pc.path, hpath]⟩
      intro other z hz
      rcases Option.some.inj hz with ⟨rfl, rfl⟩
      exact hnamed.2 (Or.inr ⟨rfl, rfl⟩)
    · intro y hy h0
      rcases hw.returned y hy h0 with ⟨g, hg, htaken, hn⟩
      exact ⟨g, hg, htaken, hnamed.2 (Or.inl hn)⟩

theorem Inv.deleteInode (hw : Inv w) {i : ℕ} (hpc : w.pc t = .deleteInode path i) :
    Inv (w.after t (deleteInodeStep path i w.lib)) := by
  have hpath : ProperPath path := hw.paths t path (by rw [hpc]; rfl)
  have hholds : (w.pc t).holds = some i := by rw [hpc]; rfl
  have hheld := hw.held t i hholds
  have hprep : Prepared w.lib i := hw.prepared t i (by rw [hpc]; rfl)
  unfold deleteInodeStep
  split
  · exact hw.ret_keeps (g := fun _ => False) (Keeps.refl _) (fun _ h => h.elim) (by omega)
  · apply hw.goto_keeps (keeps_freedInode hheld.1.1)
    · rintro j rfl
      exact hholds
    · refine ⟨by simp [Pc.holds], ?_, by simp [Pc.opens], by simp [Pc.creates],
        by simp [Pc.path, hpath]⟩
      intro j hj
      rcases Option.some.inj hj with rfl
      exact hprep

theorem Inv.deleteBlocks (hw : Inv w) {i : ℕ} (hpc : w.pc t = .deleteBlocks path i) :
    Inv (w.after t (deleteBlocksStep path i w.lib)) := by
  have hprep : Prepared w.lib i := hw.prepared t i (by rw [hpc]; rfl)
  have hkeeps : Keeps (fun _ => False) w.lib (deleteBlocksStep path i w.lib).2 :=
    keeps_deleteBlocks path hprep
  have hret : (deleteBlocksStep path i w.lib).1 = .ret path (-1) := by
    unfold deleteBlocksStep
    dsimp only
    split <;> rfl
  rw [← Prod.mk.eta (p := deleteBlocksStep path i w.lib), hret]
  exact hw.ret_keeps hkeeps (fun _ h => h.elim) (by omega)

theorem Inv.register (hw : Inv w) {inum append : ℤ} {offset k : ℕ}
    (hpc : w.pc t = .register path inum offset append k) :
    Inv (w.after t (registerStep path inum offset append k w.lib)) := by
  have hpath : ProperPath path := hw.paths t path (by rw [hpc]; rfl)
  have hnamed : Named w.lib path.tail inum := hw.opened t _ _ (by rw [hpc]; rfl)
  unfold registerStep
  by_cases hk : k < maxOpenFiles
  · rw [if_pos hk]
    by_cases hfree : w.lib.freeOpenFileEntries k = .free
    · rw [if_pos hfree]
      apply hw.ret_keeps (g := fun _ => False) (keeps_registered hfree) (fun _ h => h.elim)
      intro _
      have hentry : (((w.lib.markHandle k .taken).setEntry k
          ⟨inum, offset, append⟩).openFileTable k).ofInumber = inum := by simp
      refine ⟨k, rfl, by simp, ?_⟩
      rw [hentry]
      exact hnamed
    · rw [if_neg hfree]
      apply hw.goto_keeps (g := fun _ => False) (Keeps.refl _) (fun _ h => h.elim)
      constructor <;> simp [Pc.holds, Pc.erases, Pc.opens, Pc.creates, Pc.path, hpath, hnamed]
  · rw [if_neg hk]
    exact hw.ret_keeps (g := fun _ => False) (Keeps.refl _) (fun _ h => h.elim) (by omega)

theorem Inv.step (hw : Inv w) {a : Label} {w' : World} (hcond : Undisturbed w a)
    (h : openers.step w a w') : Inv w' := by
  rcases h with ⟨hproper, h⟩
  cases a with
  | call t path flags =>
      rcases hpc : w.pc t with _ | _ | _ | _ | _ | _ | _ | _ | _ <;>
        simp only [perform, hpc] at h
      all_goals try cases h
      have hpath := hproper t path flags rfl
      rw [if_pos hpath.1] at h
      cases h
      exact hw.call hpath flags
  | step t =>
      rcases Option.map_eq_some_iff.1 h with ⟨x, hx, rfl⟩
      rcases hpc : w.pc t with _ | ⟨path, flags⟩ | ⟨path, flags, inum⟩ | ⟨path, k⟩ | ⟨path, i, k⟩ |
        ⟨path, i⟩ | ⟨path, i⟩ | ⟨path, i⟩ | ⟨path, inum, offset, append, k⟩ <;>
        rw [hpc] at hx
      · cases hx
      · cases hx
        exact hw.search hpc (hcond path flags hpc)
      · cases hx
        exact hw.reuse hpc
      · cases hx
        exact hw.takeInode hpc
      · cases hx
        exact hw.takeBlock hpc
      · exact hw.insert hpc hx
      · cases hx
        exact hw.deleteInode hpc
      · cases hx
        exact hw.deleteBlocks hpc
      · cases hx
        exact hw.register hpc

/-- A state with an empty root directory is one to start from. -/
theorem inv_start {s : State} (hs : Tfs.Inv s) (hunused : ∀ k < 23, ¬ EntryUsed s.disk.fsData 0 k) :
    Inv (World.start s) := by
  have hempty : ∀ name z, ¬ Named s name z := by
    rintro name z ⟨k, hk, hused, -⟩
    exact hunused k hk hused
  refine ⟨⟨hs.rootDirectory, hs.rootAllocated.2, (hs.blocks.taken_of_refers hs.refers_root).2,
    hs.terminated, fun name z hn => absurd hn (hempty name z), ?_⟩, ?_, ?_, ?_, ?_, ?_, ?_, ?_, ?_⟩
  · intro j hj _ _ hused
    exact absurd hused (hunused j hj)
  all_goals simp [World.start, Pc.holds, Pc.erases, Pc.opens, Pc.creates, Pc.path, Apart]

theorem Inv.createdOnce (hw : Inv w) : CreatedOnce w := by
  refine ⟨hw.directory.names, ?_⟩
  intro x hx y hy hpath hx0 hy0
  rcases hw.returned x hx hx0 with ⟨g, hg, _, hnameX⟩
  rcases hw.returned y hy hy0 with ⟨h, hh, _, hnameY⟩
  rw [hg, hh, Int.toNat_natCast, Int.toNat_natCast]
  rw [hpath] at hnameX
  exact hw.directory.named_unique hnameX hnameY

/-- In every run in which no search starts a creation while another thread is creating the same
name, every file is created once in all states. -/
theorem createdOnce_of_undisturbed {h : List (World × Label)} {w : World}
    (he : openers.Execution h w) (hC : System.EachStep Undisturbed h) :
    System.Always CreatedOnce h w := by
  have hinv : System.Always Inv h w :=
    he.always_of_eachStep (C := Undisturbed) (fun w hw => by rw [hw]; exact inv_start inv_tfsInit not_entryUsed_tfsInit)
      (fun w a w' hw hc hst => hw.step hc hst) hC
  exact ⟨hinv.1.createdOnce, fun p hp => (hinv.2 p hp).createdOnce⟩

end Steps

/-! ## Two creations at once -/

/-- Perform a label of `openers`, for runs that are evaluated. -/
def performProper : Label → World → Option World
  | .call t path flags, w => if ProperPath path then perform (.call t path flags) w else none
  | .step t, w => perform (.step t) w

theorem step_of_performProper (a : Label) (w w' : World) (h : performProper a w = some w') :
    openers.step w a w' := by
  cases a with
  | call t path flags =>
      by_cases hproper : ProperPath path
      · refine ⟨?_, by simpa only [performProper, if_pos hproper] using h⟩
        intro u other flags' hEq
        cases hEq
        exact hproper
      · simp [performProper, hproper] at h
  | step t =>
      exact ⟨by simp, h⟩

/-- The thread that takes the step. -/
def Label.thread : Label → ℕ
  | .call t _ _ => t
  | .step t => t

theorem World.after_pc_of_ne {w : World} {t u : ℕ} (hu : u ≠ t) (x : Next × State) :
    (w.after t x).pc u = w.pc u := by
  rcases x with ⟨_ | _, s⟩ <;> simp [World.after, hu]

/-- A step moves no other thread. -/
theorem pc_of_perform {a : Label} {w w' : World} (h : perform a w = some w') {u : ℕ}
    (hu : u ≠ a.thread) : w'.pc u = w.pc u := by
  cases a with
  | call t path flags =>
      rcases hpc : w.pc t with _ | _ | _ | _ | _ | _ | _ | _ | _ <;> simp only [perform, hpc] at h
      all_goals try cases h
      by_cases hvalid : validPathname (some path) = true
      · rw [if_pos hvalid] at h
        cases h
        exact World.after_pc_of_ne hu _
      · rw [if_neg hvalid] at h
        cases h
        exact World.after_pc_of_ne hu _
  | step t =>
      rcases Option.map_eq_some_iff.1 h with ⟨x, _, rfl⟩
      exact World.after_pc_of_ne hu x

/-- Where the threads below `n` take all the steps, the others stay idle. -/
theorem idle_of_execution {n : ℕ} {h : List (World × Label)} {w : World} (he : openers.Execution h w)
    (hthreads : System.EachStep (fun _ a => a.thread < n) h) :
    System.Always (fun w => ∀ u, n ≤ u → w.pc u = .idle) h w := by
  refine he.always_of_eachStep ?_ ?_ hthreads
  · rintro w rfl u _
    rfl
  · intro w a w' hidle hlt hst u hu
    rw [pc_of_perform hst.2 (show u ≠ a.thread by omega)]
    exact hidle u hu

/-- The name whose creation the thread's next step starts. -/
def Pc.starts (s : State) : Pc → Option CString
  | .search path flags =>
      if hasFlag flags tfsOCreat = true ∧ tfsLookup (some path) s < 0 then some path.tail else none
  | _ => none

/-- `Undisturbed`, asked of the threads below `n` alone. -/
def UndisturbedBelow (n : ℕ) (w : World) : Label → Prop
  | .call _ _ _ => True
  | .step t => ∀ u < n, u ≠ t → ∀ name ∈ (w.pc t).starts w.lib, (w.pc u).creates ≠ some name

instance (n : ℕ) (w : World) (a : Label) : Decidable (UndisturbedBelow n w a) :=
  match a with
  | .call _ _ _ => inferInstanceAs (Decidable True)
  | .step _ => inferInstanceAs (Decidable (∀ _ < n, _))

theorem UndisturbedBelow.undisturbed {n : ℕ} {w : World} {a : Label} (h : UndisturbedBelow n w a)
    (hidle : ∀ u, n ≤ u → w.pc u = .idle) : Undisturbed w a := by
  cases a with
  | call t path flags =>
      trivial
  | step t =>
      intro path flags hpc hcreate hmiss u hu
      by_cases hlt : u < n
      · apply h u hlt hu
        simp [hpc, Pc.starts, hcreate, hmiss]
      · rw [hidle u (by omega)]
        simp [Pc.creates]

/-- Threads 0 and 1 create `/a` and `/b`, a step at a time; then thread 0 opens `/b` too. -/
def creationsInterleaved : List Label :=
  [.call 0 slashA tfsOCreat, .call 1 slashB tfsOCreat] ++
    (List.replicate 7 [.step 0, .step 1]).flatten ++ List.replicate 3 (.step 1) ++
    [.call 0 slashB 0] ++ List.replicate 5 (.step 0)

/-- All three calls have returned, and the handles on `/b` are on one i-node. -/
def ThreeReturned (w : World) : Prop :=
  w.returned = [(slashB, 2), (slashB, 1), (slashA, 0)] ∧ (w.lib.openFileTable 0).ofInumber = 1 ∧
    (w.lib.openFileTable 1).ofInumber = 2 ∧ (w.lib.openFileTable 2).ofInumber = 2

instance (w : World) : Decidable (ThreeReturned w) :=
  inferInstanceAs (Decidable (_ ∧ _))

instance (n : ℕ) (h : List (World × Label)) : Decidable (System.EachStep (UndisturbedBelow n) h) :=
  inferInstanceAs (Decidable (∀ p ∈ h, UndisturbedBelow n p.1 p.2))

instance (n : ℕ) (h : List (World × Label)) :
    Decidable (System.EachStep (fun _ a => a.thread < n) h) :=
  inferInstanceAs (Decidable (∀ p ∈ h, p.2.thread < n))

theorem performAll_creationsInterleaved :
    (System.performAll (System.record performProper) creationsInterleaved ([], World.start tfsInit.2)).any
      (fun x => System.EachStep (fun _ a => a.thread < 2) x.1 ∧
        System.EachStep (UndisturbedBelow 2) x.1 ∧ ThreeReturned x.2) = true := by
  rw [tfsInit_eq]
  decide +kernel

theorem createdOnce_of_undisturbed_creationsInterleaved : ∃ h w, openers.Execution h w ∧
    h.map Prod.snd = creationsInterleaved.reverse ∧ ThreeReturned w ∧ System.Always CreatedOnce h w := by
  rcases System.execution_of_any performProper step_of_performProper rfl performAll_creationsInterleaved with
    ⟨h, w, he, hlabels, hthreads, hbelow, hreturned⟩
  have hidle := idle_of_execution he hthreads
  refine ⟨h, w, he, hlabels, hreturned, createdOnce_of_undisturbed he ?_⟩
  exact fun p hp => (hbelow p hp).undisturbed (hidle.2 p hp)

/-- Both threads search before either inserts. -/
def twoCreators : List Label :=
  [.call 0 slashA tfsOCreat, .call 1 slashA tfsOCreat, .step 0, .step 1] ++
    List.replicate 6 (.step 0) ++ List.replicate 9 (.step 1)

/-- What two overlapping creations of `/a` leave: two entries with one name, and two handles on two
i-nodes. -/
def CreatedTwice (w : World) : Prop :=
  (EntryUsed w.lib.disk.fsData 0 0 ∧ EntryUsed w.lib.disk.fsData 0 1 ∧
      entryName w.lib.disk.fsData 0 0 = entryName w.lib.disk.fsData 0 1) ∧
    w.returned = [(slashA, 1), (slashA, 0)] ∧
    (w.lib.openFileTable 0).ofInumber = 1 ∧ (w.lib.openFileTable 1).ofInumber = 2

instance (w : World) : Decidable (CreatedTwice w) :=
  inferInstanceAs (Decidable (_ ∧ _))

theorem performAll_twoCreators :
    (System.performAll (System.record performProper) twoCreators ([], World.start tfsInit.2)).any
      (fun x => CreatedTwice x.2) = true := by
  rw [tfsInit_eq]
  decide +kernel

theorem twoCreators_createTwice : ∃ h w, openers.Execution h w ∧
    h.map Prod.snd = twoCreators.reverse ∧ CreatedTwice w ∧ ¬ CreatedOnce w := by
  rcases System.execution_of_any performProper step_of_performProper rfl performAll_twoCreators with
    ⟨h, w, he, hlabels, htwice⟩
  refine ⟨h, w, he, hlabels, htwice, ?_⟩
  intro honce
  have hsame := honce.names 0 (by decide) 1 (by decide) htwice.1.1 htwice.1.2.1 htwice.1.2.2
  exact absurd hsame (by decide)

end Threads
end Tfs
end TecnicoFs
