import Mathlib.Data.Fintype.Pigeonhole
import TecnicoFs.Server.Ownership
import TecnicoFs.Server.Spec

/-!
# Server refinement — the library implements its specification

`Abstracts s fs` ties a state of the library to an abstract file system: the used directory entries are the
names, the block of the i-node that an entry selects holds the file's bytes, and the taken open file
entries are the handles.  Each call is simulated, and the run theorem follows from
`Machine.run_refines`.
-/

namespace TecnicoFs
namespace Server

open Lib
open Spec

/-! ## The abstraction relation -/

/-- A used entry of the root directory gives the i-node `i` the name `name`. -/
def NamedAs (s : State) (i : ℕ) (name : CString) : Prop :=
  ∃ k < 23, EntryUsed s.disk.fsData 0 k ∧ dInumber s.disk.fsData 0 k = i ∧
    entryName s.disk.fsData 0 k = name

/-- The bytes of the file with i-node `i`. -/
def fileBytes (s : State) (i : ℕ) : List Byte :=
  memread s.disk.fsData ((s.inodeTable i).iDataBlock.toNat * 1024) (s.inodeTable i).iSize

/-- Entry `h` of the open file table is free, or stands for the abstract handle. -/
def EntryAbstracts (s : State) (h : ℕ) : Option Handle → Prop
  | none => s.freeOpenFileEntries h = .free
  | some x => s.freeOpenFileEntries h = .taken ∧ ∃ i : ℕ, s.openFileTable h = ⟨i, x.offset⟩ ∧
      NamedAs s i x.name.name ∧ x.offset ≤ (s.inodeTable i).iSize

structure Abstracts (s : State) (fs : FileSystem) : Prop where
  inv : Inv s
  named : ∀ i, 0 < i → Allocated s i → Named s i
  nameUnique : ∀ j < 23, ∀ k < 23, EntryUsed s.disk.fsData 0 j → EntryUsed s.disk.fsData 0 k →
    entryName s.disk.fsData 0 j = entryName s.disk.fsData 0 k → j = k
  nameLength : ∀ i name, NamedAs s i name → 1 ≤ name.strlen ∧ name.strlen ≤ 39
  files : ∀ n c, fs.files.lookup n = some c ↔ ∃ i, NamedAs s i n.name ∧ fileBytes s i = c.val
  handles : ∀ h : Fin maxOpenFiles, EntryAbstracts s h (fs.handles h)
  running : s.stateClosing = false

section Basic

variable {s t : State} {fs : FileSystem} {i j k : ℕ} {name : CString} {n : FileName}

theorem NamedAs.named (h : NamedAs s i name) : Named s i := by
  rcases h with ⟨k, hk, hused, hnum, _⟩
  exact ⟨k, hk, hused, hnum⟩

theorem NamedAs.congr (hdir : SameBlock s.disk.fsData t.disk.fsData 0) :
    NamedAs t i name ↔ NamedAs s i name := by
  unfold NamedAs
  constructor
  · rintro ⟨k, hk, hused, hnum, hname⟩
    exact ⟨k, hk, (hdir.entryUsed_iff hk).1 hused, (hdir.dInumber_eq hk) ▸ hnum,
      (hdir.entryName_eq hk) ▸ hname⟩
  · rintro ⟨k, hk, hused, hnum, hname⟩
    exact ⟨k, hk, (hdir.entryUsed_iff hk).2 hused, (hdir.dInumber_eq hk).trans hnum,
      (hdir.entryName_eq hk).trans hname⟩

theorem Abstracts.namedAs_unique (h : Abstracts s fs) (hi : NamedAs s i name)
    (hj : NamedAs s j name) : i = j := by
  rcases hi with ⟨k, hk, husedK, hnumK, hnameK⟩
  rcases hj with ⟨l, hl, husedL, hnumL, hnameL⟩
  have hkl := h.nameUnique k hk l hl husedK husedL (hnameK.trans hnameL.symm)
  subst hkl
  have hEq : (i : ℤ) = j := hnumK.symm.trans hnumL
  omega

/-- An i-node has one name. -/
theorem Inv.name_unique {name' : CString} (hs : Inv s) (h : NamedAs s i name)
    (h' : NamedAs s i name') : name = name' := by
  rcases h with ⟨k, hk, husedK, hnumK, rfl⟩
  rcases h' with ⟨l, hl, husedL, hnumL, rfl⟩
  rw [hs.distinct k hk l hl husedK husedL (hnumK.trans hnumL.symm)]

theorem Abstracts.lookup_of_namedAs (h : Abstracts s fs) (hi : NamedAs s i n.name) :
    ∃ c, fs.files.lookup n = some c ∧ fileBytes s i = c.val := by
  have hsize := h.inv.sizes i (h.inv.of_named hi.named).2
  exact ⟨⟨fileBytes s i, by simpa [fileBytes] using hsize⟩, (h.files n _).2 ⟨i, hi, rfl⟩, rfl⟩

theorem length_fileBytes : (fileBytes s i).length = (s.inodeTable i).iSize := by
  simp [fileBytes]

/-- An entry of the open file table that a call leaves alone. -/
theorem EntryAbstracts.congr {g : ℕ} {x : Option Handle} (h : EntryAbstracts s g x)
    (hdir : SameBlock s.disk.fsData t.disk.fsData 0)
    (hmark : t.freeOpenFileEntries g = s.freeOpenFileEntries g)
    (hentry : t.openFileTable g = s.openFileTable g)
    (hsize : ∀ y ∈ x, ∀ i, NamedAs s i y.name.name → y.offset ≤ (s.inodeTable i).iSize →
      y.offset ≤ (t.inodeTable i).iSize) : EntryAbstracts t g x := by
  rcases x with _ | y
  · exact hmark.trans h
  · rcases h with ⟨htaken, i, hEq, hi, hoff⟩
    exact ⟨hmark.trans htaken, i, hentry.trans hEq, (NamedAs.congr hdir).2 hi,
      hsize y rfl i hi hoff⟩

/-- The names of the specification are the names of the used entries. -/
theorem Abstracts.card_keys (h : Abstracts s fs) :
    fs.files.keys.card =
      ((Finset.range 23).filter fun k => EntryUsed s.disk.fsData 0 k).card := by
  have himage : fs.files.keys.image FileName.name =
      ((Finset.range 23).filter fun k => EntryUsed s.disk.fsData 0 k).image
        (entryName s.disk.fsData 0) := by
    ext name
    simp only [Finset.mem_image, Finset.mem_filter, Finset.mem_range, Finmap.mem_keys]
    constructor
    · -- a file has an entry
      rintro ⟨n, hn, rfl⟩
      rcases Finmap.mem_iff.1 hn with ⟨c, hc⟩
      rcases (h.files n c).1 hc with ⟨i, ⟨k, hk, hused, _, hname⟩, _⟩
      exact ⟨k, ⟨hk, hused⟩, hname⟩
    · -- a used entry has an i-node, whose bytes are a file
      rintro ⟨k, ⟨hk, hused⟩, rfl⟩
      rcases h.inv.entries k hk hused with ⟨i, _, _, hnum⟩
      have hi : NamedAs s i (entryName s.disk.fsData 0 k) := ⟨k, hk, hused, hnum, rfl⟩
      rcases h.nameLength i _ hi with ⟨hpos, hle⟩
      rcases h.lookup_of_namedAs (n := ⟨_, hpos, hle⟩) hi with ⟨c, hc, _⟩
      exact ⟨⟨_, hpos, hle⟩, Finmap.mem_of_lookup_eq_some hc, rfl⟩
  have hleft : (fs.files.keys.image FileName.name).card = fs.files.keys.card := by
    apply Finset.card_image_of_injective
    intro a b hab
    cases a
    cases b
    simpa using hab
  rw [← hleft, himage]
  apply Finset.card_image_of_injOn
  intro j hj k hk hEq
  simp only [Finset.coe_filter, Finset.mem_range, Set.mem_ofPred_eq] at hj hk
  exact h.nameUnique j hj.1 k hk.1 hj.2 hk.2 hEq

/-- There is room for one more name iff some directory entry is empty. -/
theorem Abstracts.card_lt_iff (h : Abstracts s fs) :
    fs.files.keys.card < 23 ↔ ∃ k < 23, ¬ EntryUsed s.disk.fsData 0 k := by
  rw [h.card_keys]
  constructor
  · intro hlt
    by_contra hall
    push Not at hall
    have hfull : (Finset.range 23).filter (fun k => EntryUsed s.disk.fsData 0 k) =
        Finset.range 23 := by
      apply Finset.filter_true_of_mem
      intro k hk
      exact hall k (Finset.mem_range.1 hk)
    rw [hfull] at hlt
    simp at hlt
  · rintro ⟨k, hk, hunused⟩
    have hss : (Finset.range 23).filter (fun k => EntryUsed s.disk.fsData 0 k) ⊂
        Finset.range 23 := by
      apply Finset.filter_ssubset.2
      exact ⟨k, Finset.mem_range.2 hk, hunused⟩
    simpa using Finset.card_lt_card hss

/-- A free i-node is always left: each allocated one is the root or has a directory entry. -/
theorem Abstracts.exists_free_inode (h : Abstracts s fs) : ∃ i < 50, s.freeinodeTs i = .free := by
  by_contra hall
  push Not at hall
  have hnamed : ∀ i : Fin 24, ∃ k : Fin 23, EntryUsed s.disk.fsData 0 k ∧
      dInumber s.disk.fsData 0 k = ((i + 1 : ℕ) : ℤ) := by
    intro i
    have halloc : Allocated s (i + 1) :=
      ⟨show (i : ℕ) + 1 < 50 by omega, AllocationState.ne_free.1 (hall _ (by omega))⟩
    rcases h.named (i + 1) (by omega) halloc with ⟨k, hk, hused, hnum⟩
    exact ⟨⟨k, hk⟩, hused, hnum⟩
  choose entry hentry using hnamed
  rcases Fintype.exists_ne_map_eq_of_card_lt entry (by simp) with ⟨i, j, hij, hEq⟩
  have hi := (hentry i).2
  have hj := (hentry j).2
  rw [hEq] at hi
  apply hij
  apply Fin.ext
  omega

/-- A free block is always left: each taken one belongs to one of the fifty i-nodes. -/
theorem Inv.exists_free_block (hs : Inv s) : ∃ b < 1024, s.disk.freeBlocks b = .free := by
  by_contra hall
  push Not at hall
  have howner : ∀ b : Fin 51, ∃ i : Fin 50, Owns s i b := by
    intro b
    have htaken : BlockTaken s b :=
      ⟨show (b : ℕ) < 1024 by omega, AllocationState.ne_free.1 (hall b (by omega))⟩
    rcases (hs.blocks.taken_iff b).1 htaken with ⟨i, hi⟩
    exact ⟨⟨i, hi.1.1⟩, hi⟩
  choose owner howns using howner
  rcases Fintype.exists_ne_map_eq_of_card_lt owner (by simp) with ⟨b, c, hbc, hEq⟩
  have hb := (howns b).2.1
  have hc := (howns c).2.1
  rw [hEq, hc] at hb
  apply hbc
  apply Fin.ext
  omega

end Basic

/-! ## Handles -/

section Handles

variable {s t : State} {fs fs' : FileSystem} {i : ℕ} {n : FileName} {flags : ℤ}

/-- A change of the open file table only. -/
theorem Abstracts.of_handles (h : Abstracts s fs) (hinv : Inv t) (hdisk : t.disk = s.disk)
    (hnodes : t.inodeTable = s.inodeTable) (hfree : t.freeinodeTs = s.freeinodeTs)
    (hclosing : t.stateClosing = s.stateClosing) (hfiles : fs'.files = fs.files)
    (hhandles : ∀ g : Fin maxOpenFiles, EntryAbstracts t g (fs'.handles g)) : Abstracts t fs' := by
  have hnamed : ∀ j name, NamedAs t j name ↔ NamedAs s j name := by simp [NamedAs, hdisk]
  constructor
  · exact hinv
  · simpa [Allocated, Named, hfree, hdisk] using h.named
  · simpa [hdisk] using h.nameUnique
  · intro j name hj
    exact h.nameLength j name ((hnamed j name).1 hj)
  · intro m c
    rw [hfiles, h.files m c]
    simp [hnamed, fileBytes, hdisk, hnodes]
  · exact hhandles
  · rw [hclosing]
    exact h.running

theorem Abstracts.handle_eq_none_iff (h : Abstracts s fs) (g : Fin maxOpenFiles) :
    fs.handles g = none ↔ s.freeOpenFileEntries g = .free := by
  have hg := h.handles g
  rcases hx : fs.handles g with _ | x
  · rw [hx] at hg
    exact ⟨fun _ => hg, fun _ => rfl⟩
  · rw [hx] at hg
    have htaken : s.freeOpenFileEntries g = .taken := hg.1
    simp [htaken]

/-- Adding a handle on a file gives the same number on both sides. -/
theorem Abstracts.addHandle (h : Abstracts s fs) (hi : NamedAs s i n.name) {offset : ℕ}
    (hoff : offset ≤ (s.inodeTable i).iSize) :
    (addToOpenFileTable i offset s).1 = (fs.addHandle n offset).1 ∧
      Abstracts (addToOpenFileTable i offset s).2 (fs.addHandle n offset).2 := by
  have hsize := h.inv.sizes i (h.inv.of_named hi.named).2
  have hinv : Inv (addToOpenFileTable i offset s).2 :=
    h.inv.addToOpenFileTable hi.named (by omega)
  rcases addToOpenFileTable_cases i offset s with ⟨g, hg, hfree, hbefore, hEq⟩ | ⟨hfull, hEq⟩
  · -- the first free entry of the table is the lowest free handle
    have hlowest : lowestFree fs.handles = some ⟨g, hg⟩ := by
      apply lowestFree_of_free
      · exact (h.handle_eq_none_iff ⟨g, hg⟩).2 hfree
      · intro j hj hnone
        have hfreeJ := (h.handle_eq_none_iff j).1 hnone
        rw [hbefore j hj] at hfreeJ
        cases hfreeJ
    have hspec : fs.addHandle n offset = ((g : ℤ), fs.setHandle ⟨g, hg⟩ (some ⟨n, offset⟩)) := by
      simp [FileSystem.addHandle, hlowest]
    rw [hEq] at hinv
    rw [hEq, hspec]
    refine ⟨rfl, h.of_handles hinv rfl rfl rfl rfl rfl ?_⟩
    intro j
    by_cases hj : j = ⟨g, hg⟩
    · -- the new handle
      subst hj
      simp only [FileSystem.setHandle, Function.update_self]
      exact ⟨by simp [addedHandle], i, by simp [addedHandle], hi, hoff⟩
    · have hjg : (j : ℕ) ≠ g := fun hEq => hj (Fin.ext hEq)
      simp only [FileSystem.setHandle, Function.update_of_ne hj]
      refine (h.handles j).congr (SameBlock.refl _ _) ?_ ?_ (fun _ _ _ _ hoff => hoff)
      · simp [addedHandle, hjg]
      · simp [addedHandle, hjg]
  · -- the table is full, and nothing changes
    have hlowest : lowestFree fs.handles = none := by
      apply lowestFree_of_full
      intro g hnone
      have hfreeG := (h.handle_eq_none_iff g).1 hnone
      rw [hfull g g.isLt] at hfreeG
      cases hfreeG
    have hspec : fs.addHandle n offset = (-1, fs) := by
      simp [FileSystem.addHandle, hlowest]
    rw [hEq, hspec]
    exact ⟨rfl, h⟩

/-- The abstract handle with a number is the taken entry of the open file table. -/
theorem Abstracts.entryOf_cases (h : Abstracts s fs) (fhandle : ℤ) :
    (∃ (g : Fin maxOpenFiles) (x : Handle) (i : ℕ), fhandle = (g : ℕ) ∧
      entryOf fs.handles fhandle = some (g, x) ∧ fs.handles g = some x ∧ s.freeOpenFileEntries g = .taken ∧
      s.openFileTable g = ⟨i, x.offset⟩ ∧ NamedAs s i x.name.name ∧
      x.offset ≤ (s.inodeTable i).iSize) ∨
    (entryOf fs.handles fhandle = none ∧ ¬ HandleOpen s fhandle) := by
  by_cases hrange : 0 ≤ fhandle ∧ fhandle.toNat < maxOpenFiles
  · have hg := h.handles ⟨fhandle.toNat, hrange.2⟩
    rcases hx : fs.handles ⟨fhandle.toNat, hrange.2⟩ with _ | x
    · right
      refine ⟨by simp [entryOf, hrange, hx], ?_⟩
      -- a handle that is open in the table is open in the specification
      rintro ⟨g, _, rfl, htaken⟩
      rw [hx] at hg
      have hfree : s.freeOpenFileEntries g = .free := hg
      rw [htaken] at hfree
      cases hfree
    · left
      rw [hx] at hg
      rcases hg with ⟨htaken, i, hentry, hi, hoff⟩
      exact ⟨⟨fhandle.toNat, hrange.2⟩, x, i, (Int.toNat_of_nonneg hrange.1).symm,
        by simp [entryOf, hrange, hx],
        hx, htaken, hentry, hi, hoff⟩
  · right
    refine ⟨by simp only [entryOf, hrange, dite_false], ?_⟩
    rintro ⟨g, hg, rfl, _⟩
    exact hrange ⟨by omega, by simpa using hg⟩

theorem Abstracts.close (h : Abstracts s fs) (fhandle : ℤ) :
    (tfsClose fhandle s).1 = (fs.closeHandle fhandle).1 ∧
      Abstracts (tfsClose fhandle s).2 (fs.closeHandle fhandle).2 := by
  have hinv := h.inv.tfsClose fhandle
  unfold tfsClose at hinv ⊢
  rcases h.entryOf_cases fhandle with ⟨g, x, i, rfl, hof, _, htaken, _⟩ | ⟨hof, hclosed⟩
  · -- an open handle: its entry becomes free
    have hspec : fs.closeHandle (g : ℕ) = (0, fs.setHandle g none) := by
      simp [FileSystem.closeHandle, hof]
    rcases removeFromOpenFileTable_cases (g : ℕ) s with ⟨g', _, hgg, _, hEq⟩ | ⟨hclosed, _⟩
    · have hgEq : g' = (g : ℕ) := by omega
      subst hgEq
      rw [hEq] at hinv
      rw [hEq, hspec]
      refine ⟨rfl, h.of_handles hinv rfl rfl rfl rfl rfl ?_⟩
      intro j
      by_cases hj : j = g
      · subst hj
        simp [FileSystem.setHandle, EntryAbstracts]
      · have hjg : (j : ℕ) ≠ g := fun hEq => hj (Fin.ext hEq)
        simp only [FileSystem.setHandle, Function.update_of_ne hj]
        exact (h.handles j).congr (SameBlock.refl _ _) (by simp [hjg]) rfl (fun _ _ _ _ hoff => hoff)
    · exact absurd ⟨g, g.isLt, rfl, htaken⟩ hclosed
  · -- a handle that is not open is refused on both sides
    have hspec : fs.closeHandle fhandle = (-1, fs) := by
      simp [FileSystem.closeHandle, hof]
    rcases removeFromOpenFileTable_cases fhandle s with ⟨g, hg, hEq, htaken, _⟩ | ⟨_, hEq⟩
    · exact absurd ⟨g, hg, hEq, htaken⟩ hclosed
    · rw [hEq, hspec]
      exact ⟨rfl, h⟩

end Handles

/-! ## Files -/

section Files

variable {s t : State} {fs fs' : FileSystem} {i : ℕ} {n : FileName} {c c' : Contents} {flags : ℤ}

/-- A change of one file, whose name stays what it is. -/
theorem Abstracts.of_file (h : Abstracts s fs) (hinv : Inv t) (hi : NamedAs s i n.name)
    (hdir : SameBlock s.disk.fsData t.disk.fsData 0) (hfree : t.freeinodeTs = s.freeinodeTs)
    (hclosing : t.stateClosing = s.stateClosing)
    (hothers : ∀ j, j ≠ i → Named s j → fileBytes t j = fileBytes s j)
    (hbytes : fileBytes t i = c'.val) (hfiles : fs'.files = fs.files.insert n c')
    (hhandles : ∀ g : Fin maxOpenFiles, EntryAbstracts t g (fs'.handles g)) : Abstracts t fs' := by
  -- the directory block is the same, so every name stands for the same i-node as before
  have hname : ∀ j name, NamedAs t j name ↔ NamedAs s j name := fun j name => NamedAs.congr hdir
  constructor
  · exact hinv
  · intro j hj halloc
    exact (Named.congr hdir).2 (h.named j hj (by simpa [Allocated, hfree] using halloc))
  · intro j hj k hk husedJ husedK hEq
    rw [hdir.entryName_eq hj, hdir.entryName_eq hk] at hEq
    exact h.nameUnique j hj k hk ((hdir.entryUsed_iff hj).1 husedJ)
      ((hdir.entryUsed_iff hk).1 husedK) hEq
  · intro j name hj
    exact h.nameLength j name ((hname j name).1 hj)
  · intro m d
    rw [hfiles]
    by_cases hmn : m = n
    · -- the changed file
      subst hmn
      rw [Finmap.lookup_insert]
      constructor
      · intro hd
        cases hd
        exact ⟨i, (hname i _).2 hi, hbytes⟩
      · rintro ⟨j, hj, hd⟩
        have hji := h.namedAs_unique ((hname j _).1 hj) hi
        subst hji
        rw [hbytes] at hd
        rw [Subtype.ext hd]
    · -- any other name: its i-node is not `i`, since names are unique
      rw [Finmap.lookup_insert_of_ne _ hmn, h.files m d]
      apply exists_congr
      intro j
      rw [hname j]
      apply and_congr_right
      intro hj
      have hji : j ≠ i := by
        rintro rfl
        exact hmn (FileName.eq_of_name (h.inv.name_unique hj hi))
      rw [hothers j hji hj.named]
  · exact hhandles
  · rw [hclosing]
    exact h.running

theorem fileBytes_truncateIf_self :
    fileBytes (truncateIf flags i s) i = if hasFlag flags tfsOTrunc then [] else fileBytes s i := by
  unfold truncateIf
  by_cases hflag : hasFlag flags tfsOTrunc = true
  · rw [if_pos hflag]
    by_cases hsize : (s.inodeTable i).iSize > 0
    · rw [if_pos ⟨hflag, hsize⟩]
      simp [fileBytes, memread]
    · rw [if_neg (by simp [hsize])]
      have hzero : (s.inodeTable i).iSize = 0 := by omega
      simp [fileBytes, hzero, memread]
  · simp [hflag]

theorem fileBytes_truncateIf_of_ne {j : ℕ} (hj : j ≠ i) :
    fileBytes (truncateIf flags i s) j = fileBytes s j := by
  unfold truncateIf
  split
  · simp [fileBytes, hj]
  · rfl

theorem Abstracts.truncateIf (h : Abstracts s fs) (hi : NamedAs s i n.name)
    (hlookup : fs.files.lookup n = some c)
    (hoffsets : hasFlag flags tfsOTrunc →
      ∀ g x, fs.handles g = some x → x.name = n → x.offset = 0) :
    Abstracts (truncateIf flags i s)
      (fs.put n (if hasFlag flags tfsOTrunc then Contents.empty else c)
        (FileSystem.room_of_lookup hlookup)) := by
  have hbytes : fileBytes s i = c.val := by
    rcases (h.files n c).1 hlookup with ⟨j, hj, hEq⟩
    rw [h.namedAs_unique hi hj]
    exact hEq
  have hdir : SameBlock s.disk.fsData (Server.truncateIf flags i s).disk.fsData 0 := by
    rw [truncateIf_fsData]
    exact SameBlock.refl _ _
  refine h.of_file (h.inv.truncateIf hi.named) hi hdir (by simp) (by simp) ?_ ?_ rfl ?_
  · intro j hj _
    exact fileBytes_truncateIf_of_ne hj
  · rw [fileBytes_truncateIf_self, hbytes]
    split
    · rfl
    · rfl
  · intro g
    refine (h.handles g).congr hdir (by simp) (by simp) ?_
    intro x hx j hj hoff
    by_cases hcond : hasFlag flags tfsOTrunc ∧ (s.inodeTable i).iSize > 0
    · by_cases hji : j = i
      · -- the truncated file: its open handles stand at the start
        subst hji
        have hxn : x.name = n := FileName.eq_of_name (h.inv.name_unique hj hi)
        rw [hoffsets hcond.1 g x hx hxn]
        exact Nat.zero_le _
      · simpa [Server.truncateIf, hcond, hji] using hoff
    · simpa [Server.truncateIf, hcond] using hoff

/-- Opening an existing file. -/
theorem Abstracts.openExisting (h : Abstracts s fs) (hi : NamedAs s i n.name)
    (hlookup : fs.files.lookup n = some c)
    (hoffsets : hasFlag flags tfsOTrunc →
      ∀ g x, fs.handles g = some x → x.name = n → x.offset = 0) :
    (openExisting i flags s).1 = (fs.openFile n flags).1 ∧
      Abstracts (openExisting i flags s).2 (fs.openFile n flags).2 := by
  have halloc := (h.inv.of_named hi.named).2
  have htrunc := h.truncateIf hi hlookup hoffsets
  have hdir : SameBlock s.disk.fsData (Server.truncateIf flags i s).disk.fsData 0 := by
    rw [truncateIf_fsData]
    exact SameBlock.refl _ _
  have hi' : NamedAs (Server.truncateIf flags i s) i n.name := (NamedAs.congr hdir).2 hi
  -- an appending handle starts at the size that the truncation leaves
  have hsize : ((Server.truncateIf flags i s).inodeTable i).iSize =
      (if hasFlag flags tfsOTrunc then Contents.empty else c).val.length := by
    rcases htrunc.lookup_of_namedAs hi' with ⟨d, hd, hbytes⟩
    rw [← length_fileBytes, hbytes]
    have hput : some (if hasFlag flags tfsOTrunc then Contents.empty else c) = some d := by
      rw [← hd]
      exact (Finmap.lookup_insert fs.files).symm
    rw [Option.some.inj hput]
  have hspec : fs.openFile n flags =
      (fs.put n (if hasFlag flags tfsOTrunc then Contents.empty else c)
        (FileSystem.room_of_lookup hlookup)).addHandle n (openOffset flags i s) := by
    unfold FileSystem.openFile openOffset
    split
    · rename_i d hd
      have hdc : d = c := Option.some.inj (hd.symm.trans hlookup)
      subst hdc
      rw [hsize]
    · rename_i hnone
      rw [hlookup] at hnone
      cases hnone
  rw [openExisting_eq halloc.1 (h.inv.valid i halloc), hspec]
  apply htrunc.addHandle hi'
  unfold openOffset
  split
  · exact le_rfl
  · exact Nat.zero_le _

end Files

/-! ## Creation -/

section Create

variable {s t : State} {fs : FileSystem} {i k : ℕ} {n : FileName} {flags : ℤ} {r : ℤ}

theorem namedAs_namedInode (hi : i < 50) (hk : k < 23) (hempty : ¬ EntryUsed s.disk.fsData 0 k)
    {j : ℕ} {name : CString} :
    NamedAs (namedInode s k i n.name) j name ↔ (j = i ∧ name = n.name) ∨ NamedAs s j name := by
  have hself : entryName (namedInode s k i n.name).disk.fsData 0 k = n.name :=
    entryName_fillEntry_self.trans (cutName_of_le n.le)
  have hother : ∀ l, l ≠ k → entryName (namedInode s k i n.name).disk.fsData 0 l =
      entryName s.disk.fsData 0 l := fun l hl => entryName_fillEntry_of_ne hl
  constructor
  · rintro ⟨l, hl, hused, hnum, hname⟩
    by_cases hlk : l = k
    · subst hlk
      rw [dInumber_namedInode_self hi] at hnum
      rw [hself] at hname
      exact Or.inl ⟨by omega, hname.symm⟩
    · rw [dInumber_namedInode_of_ne hlk] at hnum
      rw [hother l hlk] at hname
      rcases (entryUsed_namedInode hi).1 hused with hEq | hused
      · exact absurd hEq hlk
      · exact Or.inr ⟨l, hl, hused, hnum, hname⟩
  · rintro (⟨rfl, rfl⟩ | ⟨l, hl, hused, hnum, hname⟩)
    · exact ⟨k, hk, (entryUsed_namedInode hi).2 (Or.inl rfl), dInumber_namedInode_self hi, hself⟩
    · have hlk : l ≠ k := fun h => hempty (h ▸ hused)
      exact ⟨l, hl, (entryUsed_namedInode hi).2 (Or.inr hused),
        (dInumber_namedInode_of_ne hlk).trans hnum, (hother l hlk).trans hname⟩

/-- A file's bytes lie outside the root directory's block. -/
theorem fileBytes_of_data (hs : Inv s) {j : ℕ} (hj : Named s j)
    (hnode : t.inodeTable j = s.inodeTable j)
    (hdata : ∀ a, 1024 ≤ a → t.disk.fsData a = s.disk.fsData a) : fileBytes t j = fileBytes s j := by
  rcases hs.of_named hj with ⟨hpos, halloc⟩
  unfold fileBytes
  rw [hnode]
  rcases Nat.eq_zero_or_pos (s.inodeTable j).iSize with hzero | hsize
  · simp [hzero, memread]
  · rcases hs.valid j halloc hsize with ⟨b, _, hEq⟩
    have hb := hs.block_pos hpos ⟨halloc, hEq, hsize⟩
    rw [hEq]
    apply memread_congr
    intro a _
    apply hdata
    simp only [Int.toNat_natCast]
    omega

/-- A free i-node has no name, so a named one is another. -/
theorem Abstracts.ne_of_free (h : Abstracts s fs) (hfree : s.freeinodeTs i = .free) {j : ℕ}
    {name : CString} (hj : NamedAs s j name) : j ≠ i := by
  rintro rfl
  exact h.inv.not_named_of_free hfree hj.named

theorem Abstracts.not_namedAs (h : Abstracts s fs) (hnew : fs.files.lookup n = none) (j : ℕ) :
    ¬ NamedAs s j n.name := by
  intro hj
  rcases h.lookup_of_namedAs hj with ⟨c, hc, _⟩
  rw [hnew] at hc
  cases hc

/-- The directory after a file was created under the new name `n`. -/
def newFile (s : State) (k i : ℕ) (n : FileName) : State :=
  namedInode (createdInode s i) k i n.name

theorem namedAs_newFile (hi : i < 50) (hk : k < 23) (hempty : ¬ EntryUsed s.disk.fsData 0 k) {j : ℕ}
    {name : CString} : NamedAs (newFile s k i n) j name ↔ (j = i ∧ name = n.name) ∨ NamedAs s j name :=
  namedAs_namedInode hi hk hempty

/-- Old files lie outside the directory block, so they keep their bytes. -/
theorem Abstracts.fileBytes_newFile_of_ne (h : Abstracts s fs) (hfree : s.freeinodeTs i = .free)
    (hk : k < 23) {j : ℕ} {name : CString} (hj : NamedAs s j name) :
    fileBytes (newFile s k i n) j = fileBytes s j := by
  apply fileBytes_of_data h.inv hj.named
  · simp [newFile, namedInode, createdInode, h.ne_of_free hfree hj]
  · intro a ha
    exact fillEntry_of_disjoint (by omega)

theorem fileBytes_newFile : fileBytes (newFile s k i n) i = [] := by
  simp [newFile, fileBytes, namedInode, createdInode, memread]

/-- Two entries of one name: both are the new one, or both are old ones. -/
theorem Abstracts.distinct_newFile (h : Abstracts s fs) (hi : i < 50) (hk : k < 23)
    (hempty : ¬ EntryUsed s.disk.fsData 0 k) (hnew : fs.files.lookup n = none) {a c : ℕ} {name : CString}
    (ha : NamedAs (newFile s k i n) a name) (hc : NamedAs (newFile s k i n) c name) : a = c := by
  rw [namedAs_newFile hi hk hempty] at ha hc
  rcases ha with ⟨rfl, hA⟩ | hA
  · rcases hc with ⟨rfl, _⟩ | hC
    · rfl
    · rw [hA] at hC
      exact absurd hC (h.not_namedAs hnew c)
  · rcases hc with ⟨rfl, hC⟩ | hC
    · rw [hC] at hA
      exact absurd hA (h.not_namedAs hnew a)
    · exact h.namedAs_unique hA hC

/-- The files of the specification: the new one, empty, and the others. -/
theorem Abstracts.files_newFile (h : Abstracts s fs) (hi : i < 50) (hfree : s.freeinodeTs i = .free)
    (hk : k < 23) (hempty : ¬ EntryUsed s.disk.fsData 0 k) (hnew : fs.files.lookup n = none)
    (m : FileName) (c : Contents) : (fs.files.insert n Contents.empty).lookup m = some c ↔
      ∃ j, NamedAs (newFile s k i n) j m.name ∧ fileBytes (newFile s k i n) j = c.1 := by
  by_cases hmn : m = n
  · subst hmn
    rw [Finmap.lookup_insert]
    constructor
    · intro hc
      cases hc
      exact ⟨i, (namedAs_newFile hi hk hempty).2 (Or.inl ⟨rfl, rfl⟩), fileBytes_newFile⟩
    · rintro ⟨j, hj, hc⟩
      rcases (namedAs_newFile hi hk hempty).1 hj with ⟨rfl, _⟩ | hj
      · rw [fileBytes_newFile] at hc
        congr 1
        exact Subtype.ext hc
      · exact absurd hj (h.not_namedAs hnew j)
  · rw [Finmap.lookup_insert_of_ne _ hmn, h.files m c]
    apply exists_congr
    intro j
    rw [namedAs_newFile hi hk hempty]
    constructor
    · rintro ⟨hj, hc⟩
      exact ⟨Or.inr hj, (h.fileBytes_newFile_of_ne hfree hk hj).trans hc⟩
    · rintro ⟨⟨_, hEq⟩ | hj, hc⟩
      · exact absurd (FileName.eq_of_name hEq) hmn
      · exact ⟨hj, (h.fileBytes_newFile_of_ne hfree hk hj).symm.trans hc⟩

theorem Abstracts.create (h : Abstracts s fs) (hi : i < 50) (hfree : s.freeinodeTs i = .free)
    (hk : k < 23) (hempty : ¬ EntryUsed s.disk.fsData 0 k) (hnew : fs.files.lookup n = none)
    (hroom : (insert n fs.files.keys).card ≤ maxDirEntries) (hinv : Inv (newFile s k i n)) :
    Abstracts (newFile s k i n) (fs.put n Contents.empty hroom) := by
  have hnamed : ∀ j name, NamedAs (newFile s k i n) j name ↔ (j = i ∧ name = n.name) ∨ NamedAs s j name :=
    fun j name => namedAs_newFile hi hk hempty
  constructor
  · exact hinv
  · intro j hj halloc
    by_cases hji : j = i
    · subst hji
      exact ((hnamed j n.name).2 (Or.inl ⟨rfl, rfl⟩)).named
    · have hallocS : Allocated s j := by
        simpa [newFile, namedInode, Allocated, createdInode, hji] using halloc
      rcases h.named j hj hallocS with ⟨l, hl, hused, hnum⟩
      have hold : NamedAs s j (entryName s.disk.fsData 0 l) := ⟨l, hl, hused, hnum, rfl⟩
      exact ((hnamed j _).2 (Or.inr hold)).named
  · intro j hj l hl husedJ husedL hEq
    rcases hinv.entries j hj husedJ with ⟨a, _, _, hnumA⟩
    rcases hinv.entries l hl husedL with ⟨b, _, _, hnumB⟩
    have hab : a = b := h.distinct_newFile hi hk hempty hnew ⟨j, hj, husedJ, hnumA, rfl⟩
      ⟨l, hl, husedL, hnumB, hEq.symm⟩
    exact hinv.distinct j hj l hl husedJ husedL (by rw [hnumA, hnumB, hab])
  · intro j name hj
    rcases (hnamed j name).1 hj with ⟨_, rfl⟩ | hj
    · exact ⟨n.pos, n.le⟩
    · exact h.nameLength j name hj
  · exact h.files_newFile hi hfree hk hempty hnew
  · -- no handle stands on the new i-node yet
    intro g
    have hg := h.handles g
    change EntryAbstracts _ _ (fs.handles g)
    rcases hx : fs.handles g with _ | x
    · rw [hx] at hg
      exact hg
    · rw [hx] at hg
      rcases hg with ⟨htaken, j, hentry, hj, hoff⟩
      refine ⟨htaken, j, hentry, (hnamed j _).2 (Or.inr hj), ?_⟩
      simpa [newFile, namedInode, createdInode, h.ne_of_free hfree hj] using hoff
  · exact h.running

/-- The state after a failed creation. -/
theorem Abstracts.uncreate (h : Abstracts s fs) (hi : i < 50) (hfree : s.freeinodeTs i = .free)
    (hinv : Inv ((createdInode s i).markInode i .free)) :
    Abstracts ((createdInode s i).markInode i .free) fs := by
  -- the i-node is free again and nothing names it; its size and block, which stay 0 and -1,
  -- are read by nobody
  have hnot : ∀ j name, NamedAs s j name → j ≠ i := by
    rintro j name hj rfl
    exact h.inv.not_named_of_free hfree hj.named
  have hbytes : ∀ j name, NamedAs s j name →
      fileBytes ((createdInode s i).markInode i .free) j = fileBytes s j := by
    intro j name hj
    simp [fileBytes, createdInode, hnot j name hj]
  constructor
  · exact hinv
  · intro j hj halloc
    apply h.named j hj
    by_cases hji : j = i
    · subst hji
      simp [Allocated] at halloc
    · simpa [Allocated, createdInode, hji] using halloc
  · exact h.nameUnique
  · exact h.nameLength
  · intro m c
    rw [h.files m c]
    apply exists_congr
    intro j
    change _ ↔ NamedAs s j m.name ∧ _
    apply and_congr_right
    intro hj
    rw [hbytes j _ hj]
  · intro g
    refine (h.handles g).congr (SameBlock.refl _ _) rfl rfl ?_
    intro y _ j hj hoff
    simpa [createdInode, hnot j _ hj] using hoff
  · exact h.running

theorem openFile_of_none (hnew : fs.files.lookup n = none) (hflag : hasFlag flags tfsOCreat = true) :
    fs.openFile n flags =
      if hroom : (insert n fs.files.keys).card ≤ maxDirEntries then
        (fs.put n Contents.empty hroom).addHandle n 0
      else
        (-1, fs) := by
  unfold FileSystem.openFile
  split
  · rename_i c hc
    rw [hnew] at hc
    cases hc
  · rw [if_pos hflag]

theorem openCreate_isSome (hs : Inv s) {path : Path} {name : CString}
    (hpath : afterSlash path = some name) : ∃ x, openCreate path s = some x := by
  unfold openCreate
  rcases inodeCreate_file_cases s with ⟨i, hi, hfree, hEq⟩ | ⟨_, hEq⟩
  · have hne : (i : ℤ) ≠ -1 := by omega
    simp only [hEq, hne, if_false, hpath]
    rw [addDirEntry_root (hs.createdInode hi hfree) hi, Option.bind_some]
    split
    · rename_i hadd
      split at hadd
      · cases hadd
      · split at hadd
        · cases hadd
        · cases hadd
    · split
      · exact ⟨_, rfl⟩
      · exact ⟨_, rfl⟩
  · simp [hEq]

/-- Creating a file, or failing to for want of a directory entry. -/
theorem Abstracts.openCreate (h : Abstracts s fs) {path : Path}
    (hpath : afterSlash path = some n.name) (hnew : fs.files.lookup n = none)
    (hflag : hasFlag flags tfsOCreat = true) :
    ∃ t, openCreate path s = some ((fs.openFile n flags).1, t) ∧
      Abstracts t (fs.openFile n flags).2 := by
  rcases openCreate_isSome h.inv hpath with ⟨⟨r, t⟩, hopen⟩
  have hnotmem : n ∉ fs.files.keys := by
    rw [Finmap.mem_keys, ← Finmap.lookup_eq_none]
    exact hnew
  have hcard : (insert n fs.files.keys).card = fs.files.keys.card + 1 :=
    Finset.card_insert_of_notMem hnotmem
  rcases openCreate_cases h.inv hopen with ⟨hfull, _⟩ | ⟨i, hi, hfree, name, hname, hcase⟩
  · -- there are more i-nodes than directory entries: the table is never full
    rcases h.exists_free_inode with ⟨i, hi, hfree⟩
    rw [hfull i hi] at hfree
    cases hfree
  have hnameEq : name = n.name := Option.some.inj (hname.symm.trans hpath)
  subst hnameEq
  have hinvCreated := h.inv.createdInode hi hfree
  have hnotNamed : ¬ Named (createdInode s i) i := h.inv.not_named_of_free hfree
  have halloc : Allocated (createdInode s i) i := ⟨hi, by simp [createdInode]⟩
  have hpos : 0 < i := h.inv.pos_of_free hfree
  rcases hcase with ⟨hfail, rfl, rfl⟩ | ⟨k, hk, hunused, _, _, hEq⟩
  · -- no empty directory entry: the i-node is freed, and the specification has no room either
    have hfullDir : ∀ k < 23, EntryUsed s.disk.fsData 0 k := by
      rcases hfail with hlen | hused
      · have hlenPos := n.pos
        omega
      · exact hused
    have hnlt : ¬ fs.files.keys.card < 23 := by
      rw [h.card_lt_iff]
      rintro ⟨k, hk, hunused⟩
      exact hunused (hfullDir k hk)
    have hcount : ¬ (insert n fs.files.keys).card ≤ 23 := by omega
    have hnoroom : ¬ (insert n fs.files.keys).card ≤ maxDirEntries := hcount
    have hspec : fs.openFile n flags = (-1, fs) := by
      rw [openFile_of_none hnew hflag, dif_neg hnoroom]
    have hinv := hinvCreated.markInode_free hpos hnotNamed (by simp [createdInode])
    rw [hspec]
    exact ⟨_, hopen, h.uncreate hi hfree hinv⟩
  · -- the name goes into the first empty entry, and a handle is added
    have hlt := h.card_lt_iff.2 ⟨k, hk, hunused⟩
    have hcount : (insert n fs.files.keys).card ≤ 23 := by omega
    have hroom : (insert n fs.files.keys).card ≤ maxDirEntries := hcount
    have hinv : Inv (newFile s k i n) := hinvCreated.namedInode _ hpos halloc hnotNamed hk hunused
    have hcreated := h.create hi hfree hk hunused hnew hroom hinv
    have hnamed : NamedAs (newFile s k i n) i n.name :=
      (namedAs_newFile hi hk hunused).2 (Or.inl ⟨rfl, rfl⟩)
    have hadd := hcreated.addHandle hnamed (Nat.zero_le _)
    have hspec : fs.openFile n flags = (fs.put n Contents.empty hroom).addHandle n 0 := by
      rw [openFile_of_none hnew hflag, dif_pos hroom]
    rw [newFile, ← hEq] at hadd
    rw [hspec, ← hadd.1]
    exact ⟨t, hopen, hadd.2⟩

end Create

/-! ## Writing and reading -/

section Transfer

variable {s t : State} {fs : FileSystem} {i b h count n offset : ℕ} {buffer : ℕ → Byte}

/-- Reading back a file after a copy that starts within it. -/
theorem memread_memcpy_overwrite {m : Memory} {a size : ℕ} (hoff : offset ≤ size) :
    memread (memcpy m (a + offset) buffer count) a (max size (offset + count)) =
      overwrite (memread m a size) offset ((List.range count).map buffer) := by
  have hlen : max size (offset + count) = offset + count + (size - (offset + count)) := by omega
  have hbefore : memread (memcpy m (a + offset) buffer count) a offset = memread m a offset :=
    memread_congr fun k hk => memcpy_of_disjoint (by omega)
  have hafter : memread (memcpy m (a + offset) buffer count) (a + (offset + count))
      (size - (offset + count)) = memread m (a + (offset + count)) (size - (offset + count)) :=
    memread_congr fun k hk => memcpy_of_disjoint (by omega)
  rw [hlen, memread_append, memread_append, hbefore, hafter, memread_memcpy, overwrite, take_memread,
    drop_memread, min_eq_left hoff]
  simp

theorem writeCount_eq (hoff : offset ≤ 1024) (hwrap : n + offset < 2 ^ 64) :
    writeCount offset n = min n (1024 - offset) := by
  have hcount : writeCount offset n = if n + offset > 1024 then 1024 - offset else n := by
    rw [writeCount, sizeSub_of_le hoff (by decide), sizeAdd_of_lt hwrap]
  rw [hcount]
  split
  · omega
  · omega

theorem readCount_eq {size : ℕ} (hoff : offset ≤ size) (hsize : size ≤ 1024) :
    readCount size offset n = min n (size - offset) := by
  unfold readCount
  rw [sizeSub_of_le hoff (by omega)]
  split
  · omega
  · omega

theorem tfsWrite_isSome (fhandle : ℤ) (buffer : ℕ → Byte) (hfit : (s.openFileTable fhandle.toNat).ofOffset +
      writeCount (s.openFileTable fhandle.toNat).ofOffset n ≤ 1024) :
    ∃ x, tfsWriteUnsynchronized fhandle buffer n s = some x := by
  unfold tfsWriteUnsynchronized
  rcases hh : getOpenFileEntry fhandle with _ | h
  · exact ⟨(-1, s), rfl⟩
  rcases getOpenFileEntry_eq_some.1 hh with ⟨rfl, _⟩
  rw [Int.toNat_natCast] at hfit
  rcases hi : inodeGet (s.openFileTable h).ofInumber with _ | i
  · exact ⟨(-1, s), by simp only [hi]⟩
  by_cases hpos : writeCount (s.openFileTable h).ofOffset n > 0
  · rcases hb : dataBlockGet ((allocIfEmpty i s).inodeTable i).iDataBlock with _ | a
    · exact ⟨(-1, allocIfEmpty i s), by simp only [hi, hpos, if_true, hb]⟩
    · -- every block is inside of `fs_data`
      rcases dataBlockGet_eq_some_iff.1 hb with ⟨b, hblt, _, rfl⟩
      have hin : ¬ b * 1024 + (s.openFileTable h).ofOffset +
          writeCount (s.openFileTable h).ofOffset n > 1048576 := by omega
      refine ⟨(castLong (writeCount (s.openFileTable h).ofOffset n), storeBytes h i (b * 1024) buffer
        (writeCount (s.openFileTable h).ofOffset n) (allocIfEmpty i s)), ?_⟩
      simp only [hi, hpos, if_true, hb, fsDataSize_eq, hin, if_false]
  · refine ⟨(castLong (writeCount (s.openFileTable h).ofOffset n), s), ?_⟩
    simp only [hi, hpos, if_false]

/-- A write through a handle on a file, which may have nothing to copy. -/
theorem Inv.tfsWrite_effect (hs : Inv s) (buffer : ℕ → Byte) (hh : h < 20)
    (hentry : s.openFileTable h = ⟨i, offset⟩) (hi : Named s i)
    (hcount : writeCount offset n = count) (hfit : offset + count ≤ 1024) :
    ∃ t, Server.tfsWriteUnsynchronized h buffer n s = some ((count : ℤ), t) ∧
      ((count = 0 ∧ t = s) ∨ 0 < count ∧ ∃ b, WriteEffect s h i b buffer count t) := by
  have halloc := (hs.of_named hi).2
  have hoffset : (s.openFileTable h).ofOffset = offset := by rw [hentry]
  have hinumber : (s.openFileTable h).ofInumber = i := by rw [hentry]
  rcases tfsWrite_isSome (s := s) (n := n) h buffer (by
    rw [Int.toNat_natCast, hoffset, hcount]
    exact hfit) with ⟨⟨r, t⟩, hw⟩
  refine ⟨t, ?_⟩
  rw [hw]
  rcases tfsWriteUnsynchronized_cases hw with ⟨hout, _⟩ | ⟨g, _, hg, hcases⟩
  · omega
  have hgh : g = h := by omega
  subst hgh
  rcases hcases with ⟨hnone, _⟩ | ⟨j, _, hj, hcases⟩
  · rw [hinumber, inodeGet_natCast halloc.1] at hnone
    cases hnone
  have hji : j = i := by omega
  subst hji
  rw [hoffset, hcount] at hcases
  rcases hcases with ⟨hzero, rfl, rfl⟩ | ⟨_, hnone, _⟩ | ⟨b, _, hb, hpos, _, rfl, rfl⟩
  · subst hzero
    exact ⟨rfl, Or.inl ⟨rfl, rfl⟩⟩
  · -- there are more blocks than files: one is free
    rcases hs.dataBlockGet_none halloc hnone with ⟨_, hfull, _⟩
    rcases hs.exists_free_block with ⟨b, hb, hfree⟩
    rw [hfull b hb] at hfree
    cases hfree
  · exact ⟨rfl, Or.inr ⟨hpos, b, writeEffect_storeBytes buffer hb (by rw [hoffset]; exact hfit)⟩⟩

/-- A read through a handle on a file. -/
theorem Inv.tfsRead_eq (hs : Inv s) (hh : h < 20) (hentry : s.openFileTable h = ⟨i, offset⟩)
    (halloc : Allocated s i)
    (hoff : offset ≤ (s.inodeTable i).iSize) (hcount : min n ((s.inodeTable i).iSize - offset) = count) :
    Server.tfsReadUnsynchronized h n s = some ((count : ℤ),
      memread s.disk.fsData ((s.inodeTable i).iDataBlock.toNat * 1024 + offset) count,
      s.setEntry h ⟨i, offset + count⟩) := by
  have hsize := hs.sizes i halloc
  have hread : readCount (s.inodeTable i).iSize offset n = count := by
    rw [readCount_eq hoff hsize, hcount]
  have hcast : castLong (count : ℤ) = count := castLong_of_range (by omega) (by omega)
  unfold Server.tfsReadUnsynchronized
  simp only [getOpenFileEntry_natCast hh, hentry, inodeGet_natCast halloc.1, hread, hcast]
  by_cases hpos : 0 < count
  · rcases hs.valid i halloc (by omega) with ⟨b, hb, hblock⟩
    have hfit : ¬ b * 1024 + offset + count > fsDataSize := by
      simp only [fsDataSize_eq]
      omega
    have hadd : sizeAdd offset count = offset + count := sizeAdd_of_lt (by omega)
    simp only [gt_iff_lt, hpos, if_true, hblock, dataBlockGet_natCast hb, hadd, Int.toNat_natCast]
    exact if_neg hfit
  · -- nothing is read, and the handle stays
    have hzero : count = 0 := by omega
    have hself : s.setEntry h ⟨i, offset⟩ = s := by
      simp [State.setEntry, ← hentry]
    subst hzero
    simp [hself, memread]

theorem WriteEffect.fileBytes_self (hw : WriteEffect s h i b buffer count t)
    (hoff : (s.openFileTable h).ofOffset ≤ (s.inodeTable i).iSize) :
    fileBytes t i =
      overwrite (fileBytes s i) (s.openFileTable h).ofOffset ((List.range count).map buffer) := by
  have hbytes : fileBytes s i = memread s.disk.fsData (b * 1024) (s.inodeTable i).iSize := by
    unfold fileBytes
    rcases hw.block with ⟨_, hEq, _⟩ | ⟨hzero, _⟩
    · rw [hEq, Int.toNat_natCast]
    · simp [hzero, memread]
  rw [hbytes, ← memread_memcpy_overwrite hoff, ← hw.data, fileBytes, hw.node]
  simp

/-- A write changes no byte of another file. -/
theorem WriteEffect.fsData_of_ne (hw : WriteEffect s h i b buffer count t) (hs : Inv s) (hi : Named s i)
    (hfit : (s.openFileTable h).ofOffset + count ≤ 1024) {j p : ℕ} (hj : j ≠ i) (halloc : Allocated s j)
    (hp : p < (s.inodeTable j).iSize) :
    t.disk.fsData ((s.inodeTable j).iDataBlock.toNat * 1024 + p) =
      s.disk.fsData ((s.inodeTable j).iDataBlock.toNat * 1024 + p) := by
  rcases hs.valid j halloc (by omega) with ⟨c, _, hEq⟩
  have howns : Owns s j c := ⟨halloc, hEq, by omega⟩
  -- the block of `i` is its own, or was free
  have hcb : c ≠ b := by
    rintro rfl
    rcases hw.block with ⟨hsize, hblock, _⟩ | ⟨_, hfree, _⟩
    · exact hj (hs.blocks.unique j i c howns ⟨(hs.of_named hi).2, hblock, hsize⟩)
    · have htaken := (hs.blocks.taken_of_refers howns).2
      rw [hfree] at htaken
      cases htaken
  have hsize := hs.sizes j halloc
  rw [hEq, hw.data, Int.toNat_natCast]
  apply memcpy_of_disjoint
  omega

theorem WriteEffect.fileBytes_of_ne (hw : WriteEffect s h i b buffer count t) (hs : Inv s)
    (hi : Named s i) (hfit : (s.openFileTable h).ofOffset + count ≤ 1024) {j : ℕ} (hj : j ≠ i)
    (hjn : Named s j) : fileBytes t j = fileBytes s j := by
  unfold fileBytes
  rw [hw.nodes j hj]
  apply memread_congr
  intro k hk
  exact hw.fsData_of_ne hs hi hfit hj (hs.of_named hjn).2 hk

/-- What a write of `count` bytes through handle `h` on file `i` does, in terms of files. -/
structure Written (s : State) (h i offset : ℕ) (bytes : List Byte) (t : State) : Prop where
  root : SameBlock s.disk.fsData t.disk.fsData 0
  self : fileBytes t i = overwrite (fileBytes s i) offset bytes
  others : ∀ j, j ≠ i → Named s j → fileBytes t j = fileBytes s j
  entries : t.openFileTable = Function.update s.openFileTable h ⟨i, offset + bytes.length⟩
  freeinodeTs : t.freeinodeTs = s.freeinodeTs
  freeOpenFileEntries : t.freeOpenFileEntries = s.freeOpenFileEntries
  stateClosing : t.stateClosing = s.stateClosing

theorem WriteEffect.written (hw : WriteEffect s h i b buffer count t) (hs : Inv s) (hi : Named s i)
    (hentry : s.openFileTable h = ⟨i, offset⟩) (hoff : offset ≤ (s.inodeTable i).iSize)
    (hfit : offset + count ≤ 1024) :
    Written s h i offset ((List.range count).map buffer) t := by
  constructor
  · exact hw.sameRoot hs hi
  · have hself := hw.fileBytes_self (by rw [hentry]; exact hoff)
    rw [hentry] at hself
    exact hself
  · intro j hj hjn
    exact hw.fileBytes_of_ne hs hi (by rw [hentry]; exact hfit) hj hjn
  · rw [hw.entries, hentry]
    simp
  · exact hw.freeinodeTs
  · exact hw.freeOpenFileEntries
  · exact hw.stateClosing

/-- A write of no bytes. -/
theorem Written.refl (hentry : s.openFileTable h = ⟨i, offset⟩) : Written s h i offset [] s := by
  constructor
  · exact SameBlock.refl _ _
  · simp [overwrite]
  · intro j _ _
    rfl
  · rw [List.length_nil, Nat.add_zero, ← hentry, Function.update_eq_self]
  · rfl
  · rfl
  · rfl

theorem Abstracts.of_written (h : Abstracts s fs) (hinv : Inv t) {g : Fin maxOpenFiles} {x : Handle}
    {c : Contents} {bytes : List Byte} (hi : NamedAs s i x.name.name)
    (hoff : x.offset ≤ (s.inodeTable i).iSize) (hx : fs.handles g = some x)
    (hw : Written s g i x.offset bytes t) (hc : fs.files.lookup x.name = some c)
    (hfit : (overwrite c.val x.offset bytes).length ≤ blockSize) :
    Abstracts t ((fs.put x.name ⟨_, hfit⟩ (FileSystem.room_of_lookup hc)).setHandle g
      (some { x with offset := x.offset + bytes.length })) := by
  have hbytes : fileBytes s i = c.val := by
    rcases h.lookup_of_namedAs (n := x.name) hi with ⟨d, hd, hEq⟩
    rw [hEq, Option.some.inj (hd.symm.trans hc)]
  have hself : (t.inodeTable i).iSize =
      max (s.inodeTable i).iSize (x.offset + bytes.length) := by
    rw [← length_fileBytes, hw.self, overwrite, ← length_fileBytes (s := s)]
    have hle : x.offset ≤ (fileBytes s i).length := by
      rw [length_fileBytes]
      exact hoff
    simp only [List.length_append, List.length_take, List.length_drop]
    omega
  -- sizes only grow, so the offsets of other handles stay within their files
  have hgrow : ∀ j, Named s j → (s.inodeTable j).iSize ≤ (t.inodeTable j).iSize := by
    intro j hj
    by_cases hji : j = i
    · subst hji
      omega
    · rw [← length_fileBytes (s := t), hw.others j hji hj, length_fileBytes]
  refine h.of_file hinv hi hw.root hw.freeinodeTs hw.stateClosing hw.others ?_ rfl ?_
  · rw [hw.self, hbytes]
  · intro j
    by_cases hj : j = g
    · -- the handle written through
      subst hj
      have htaken : s.freeOpenFileEntries j = .taken := by
        have hg := h.handles j
        rw [hx] at hg
        exact hg.1
      simp only [FileSystem.setHandle, Function.update_self]
      refine ⟨by rw [hw.freeOpenFileEntries, htaken], i, by rw [hw.entries, Function.update_self],
        (NamedAs.congr hw.root).2 hi, ?_⟩
      rw [hself]
      exact le_max_right _ _
    · have hjg : (j : ℕ) ≠ g := fun hEq => hj (Fin.ext hEq)
      simp only [FileSystem.setHandle, Function.update_of_ne hj]
      refine (h.handles j).congr hw.root (by rw [hw.freeOpenFileEntries]) ?_ ?_
      · rw [hw.entries, Function.update_of_ne hjg]
      · intro y _ l hl hle
        exact hle.trans (hgrow l hl.named)

/-- Writing through an open handle. -/
theorem Abstracts.write (h : Abstracts s fs) {fhandle : ℤ} {g : Fin maxOpenFiles} {x : Handle}
    (hof : entryOf fs.handles fhandle = some (g, x)) (hwrap : n + x.offset < 2 ^ 64) :
    ∃ t, tfsWriteUnsynchronized fhandle buffer n s =
        some ((fs.writeHandle fhandle buffer n).1, t) ∧
      Abstracts t (fs.writeHandle fhandle buffer n).2 := by
  rcases h.entryOf_cases fhandle with
    ⟨g', x', i, hnum, hof', hx, htaken, hentry, hi, hoff⟩ | ⟨hnone, _⟩
  case inr =>
    rw [hof] at hnone
    cases hnone
  have hEq : (g', x') = (g, x) := Option.some.inj (hof'.symm.trans hof)
  cases hEq
  have hsize := h.inv.sizes i (h.inv.of_named hi.named).2
  have hcount : writeCount x.offset n = min n (1024 - x.offset) := writeCount_eq (by omega) hwrap
  rcases h.lookup_of_namedAs (n := x.name) hi with ⟨c, hc, _⟩
  have hopen : HandleOpen s fhandle := ⟨g, g.isLt, hnum, htaken⟩
  rcases h.inv.tfsWrite_effect buffer g.isLt hentry hi.named hcount (by omega) with ⟨t, hw, hcases⟩
  rw [← hnum] at hw
  have hinv : Inv t := h.inv.tfsWriteUnsynchronized hopen hw
  -- nothing to copy at the end of the block, or the effect of one copy
  have hwritten : Written s g i x.offset ((List.range (min n (1024 - x.offset))).map buffer) t := by
    rcases hcases with ⟨hzero, rfl⟩ | ⟨_, b, heffect⟩
    · rw [hzero]
      exact Written.refl hentry
    · exact heffect.written h.inv hi.named hentry hoff (by omega)
  have hbound : (overwrite c.val x.offset ((List.range (min n (1024 - x.offset))).map buffer)).length ≤
      blockSize := FileSystem.length_overwrite_le (by simp)
  have hspec : fs.writeHandle fhandle buffer n = (((min n (1024 - x.offset) : ℕ) : ℤ),
      (fs.put x.name ⟨_, hbound⟩ (FileSystem.room_of_lookup hc)).setHandle g
        (some { x with offset := x.offset + min n (1024 - x.offset) })) := by
    unfold FileSystem.writeHandle
    rw [hof]
    simp only
    split
    · rename_i hnone
      rw [hc] at hnone
      cases hnone
    · rename_i d hd
      have hdc : d = c := Option.some.inj (hd.symm.trans hc)
      subst hdc
      rfl
  rw [hspec]
  refine ⟨t, hw, ?_⟩
  have habs := h.of_written hinv hi hoff hx hwritten hc hbound
  simpa using habs

/-- Reading through an open handle. -/
theorem Abstracts.read (h : Abstracts s fs) {fhandle : ℤ} {g : Fin maxOpenFiles} {x : Handle}
    (hof : entryOf fs.handles fhandle = some (g, x)) :
    ∃ t, tfsReadUnsynchronized fhandle n s =
        some ((fs.readHandle fhandle n).1, (fs.readHandle fhandle n).2.1, t) ∧
      Abstracts t (fs.readHandle fhandle n).2.2 := by
  rcases h.entryOf_cases fhandle with
    ⟨g', x', i, hnum, hof', hx, htaken, hentry, hi, hoff⟩ | ⟨hnone, _⟩
  case inr =>
    rw [hof] at hnone
    cases hnone
  have hEq : (g', x') = (g, x) := Option.some.inj (hof'.symm.trans hof)
  cases hEq
  have halloc := (h.inv.of_named hi.named).2
  have hsize := h.inv.sizes i halloc
  rcases h.lookup_of_namedAs (n := x.name) hi with ⟨c, hc, hbytes⟩
  -- the bytes of the block are those of the file from the offset on
  have hdeliver : (c.val.drop x.offset).take n =
      memread s.disk.fsData ((s.inodeTable i).iDataBlock.toNat * 1024 + x.offset)
        (min n ((s.inodeTable i).iSize - x.offset)) := by
    rw [← hbytes, fileBytes, drop_memread, take_memread]
  have hr := h.inv.tfsRead_eq (n := n) g.isLt hentry halloc hoff rfl
  rw [← hnum, ← hdeliver] at hr
  have hinv := h.inv.tfsReadUnsynchronized hr
  have hlen : ((c.val.drop x.offset).take n).length = min n ((s.inodeTable i).iSize - x.offset) := by
    rw [hdeliver, length_memread]
  have hspec : fs.readHandle fhandle n = (((min n ((s.inodeTable i).iSize - x.offset) : ℕ) : ℤ),
      (c.val.drop x.offset).take n, fs.setHandle g
        (some { x with offset := x.offset + min n ((s.inodeTable i).iSize - x.offset) })) := by
    unfold FileSystem.readHandle
    rw [hof]
    simp only [hc, hlen]
  rw [hspec]
  refine ⟨_, hr, h.of_handles hinv rfl rfl rfl rfl rfl ?_⟩
  intro j
  by_cases hj : j = g
  · subst hj
    simp only [FileSystem.setHandle, Function.update_self]
    refine ⟨htaken, i, by simp, hi, ?_⟩
    simp only [State.setEntry_inodeTable]
    omega
  · have hjg : (j : ℕ) ≠ g := fun hEq => hj (Fin.ext hEq)
    simp only [FileSystem.setHandle, Function.update_of_ne hj]
    exact (h.handles j).congr (SameBlock.refl _ _) rfl (by simp [hjg]) (fun _ _ _ _ hle => hle)

end Transfer

/-! ## Every call, and every run -/

section Runs

variable {s : State} {fs : FileSystem} {n : FileName} {flags : ℤ}

theorem Abstracts.open (h : Abstracts s fs) {path : Path} (hpath : FileName.ofPath path = some n)
    (hoffsets : hasFlag flags tfsOTrunc →
      ∀ g x, fs.handles g = some x → x.name = n → x.offset = 0) :
    ∃ t, tfsOpen path flags s = some ((fs.openFile n flags).1, t) ∧
      Abstracts t (fs.openFile n flags).2 := by
  rcases FileName.ofPath_eq_some hpath with ⟨p, rfl, hvalid, htail, hafter⟩
  have hrun : tfsOpen (some p) flags s = tfsOpenUnsynchronized (some p) flags s := by
    simp [tfsOpen, stateClosingStatus, h.running]
  rw [hrun, Server.tfsOpenUnsynchronized]
  rcases tfsLookup_cases h.inv (some p) with
    ⟨q, hq, _, k, hk, hused, hname, i, hnum, hEq⟩ | ⟨hEq, hmiss⟩
  · have hpq : q = p := (Option.some.inj hq).symm
    subst hpq
    have hi : NamedAs s i n.name := ⟨k, hk, hused, hnum, hname.trans htail⟩
    rcases h.lookup_of_namedAs hi with ⟨c, hc, _⟩
    have hopen := h.openExisting hi hc hoffsets
    have hfound : (i : ℤ) ≥ 0 := by omega
    simp only [hEq, hfound, if_true]
    refine ⟨_, ?_, hopen.2⟩
    rw [← hopen.1]
  · -- no entry has the name: it is created if the flags ask for it
    have hnew : fs.files.lookup n = none := by
      by_contra hsome
      rcases Option.ne_none_iff_exists'.1 hsome with ⟨c, hc⟩
      rcases (h.files n c).1 hc with ⟨i, ⟨k, hk, hused, _, hname⟩, _⟩
      exact hmiss p rfl hvalid k hk hused (hname.trans htail.symm)
    have hneg : ¬ (-1 : ℤ) ≥ 0 := by decide
    simp only [hEq, hneg, if_false]
    by_cases hflag : hasFlag flags tfsOCreat = true
    · simp only [hflag, if_true]
      exact h.openCreate hafter hnew hflag
    · have hspec : fs.openFile n flags = (-1, fs) := by
        unfold FileSystem.openFile
        split
        · rename_i c hc
          rw [hnew] at hc
          cases hc
        · simp [hflag]
      simp only [hflag, if_false, Bool.false_eq_true, hspec]
      exact ⟨s, rfl, h⟩

/-- One call of the library simulates one call of the specification. -/
theorem Abstracts.exec (h : Abstracts s fs) {a : Call} (hok : Allowed fs a) :
    ∃ t, library.exec a s = some ((FileSystem.exec a fs).1, t) ∧
      Abstracts t (FileSystem.exec a fs).2 := by
  cases a with
  | «open» path flags =>
      rcases hok with ⟨n, hpath, hoffsets⟩
      rcases h.open hpath hoffsets with ⟨t, hopen, habs⟩
      exact ⟨t, by simp [library, Server.exec, hopen, FileSystem.exec, hpath],
        by simpa [FileSystem.exec, hpath] using habs⟩
  | close fhandle =>
      have hclose := h.close fhandle
      exact ⟨_, by simp [library, Server.exec, FileSystem.exec, hclose.1], hclose.2⟩
  | write fhandle buffer n =>
      rcases hok with ⟨g, x, hof, hwrap⟩
      rcases h.write hof hwrap with ⟨t, hwrite, habs⟩
      exact ⟨t, by simp [library, Server.exec, hwrite, FileSystem.exec], habs⟩
  | read fhandle n =>
      rcases hok with ⟨g, x, hof⟩
      rcases h.read (n := n) hof with ⟨t, hread, habs⟩
      exact ⟨t, by simp [library, Server.exec, hread, FileSystem.exec], habs⟩

theorem abstracts_tfsInit : Abstracts tfsInit.2 FileSystem.empty := by
  have hempty := not_entryUsed_tfsInit
  have hnone : ∀ i name, ¬ NamedAs tfsInit.2 i name := by
    rintro i name ⟨k, hk, hused, _⟩
    exact hempty k hk hused
  constructor
  · exact inv_tfsInit
  · intro i hpos halloc
    rw [allocated_tfsInit] at halloc
    omega
  · intro j hj _ _ hused
    exact absurd hused (hempty j hj)
  · intro i name hi
    exact absurd hi (hnone i name)
  · intro n c
    simp [FileSystem.empty, hnone]
  · intro h
    change tfsInit.2.freeOpenFileEntries h = .free
    rw [tfsInit_eq]
    rfl
  · rw [tfsInit_eq]
    rfl

/-- **Refinement.**  On every sequence of calls that the specification covers, the library gives the
replies of the specification. -/
theorem library_refines_spec (as : List Call) (hok : machine.RunOk Allowed as FileSystem.empty) :
    ∃ rs s fs, machine.run as FileSystem.empty = some (rs, fs) ∧
      library.run as tfsInit.2 = some (rs, s) ∧ Abstracts s fs := by
  -- the specification answers every call
  rcases Machine.run_total (M := machine) (fun a fs => ⟨_, rfl⟩) as FileSystem.empty with ⟨⟨rs, fs⟩, hrun⟩
  have hsim : ∀ s fs a r fs', Abstracts s fs → Allowed fs a → machine.exec a fs = some (r, fs') →
      ∃ s', library.exec a s = some (r, s') ∧ Abstracts s' fs' := by
    intro s fs a r fs' habs hallowed hexec
    have hEq : FileSystem.exec a fs = (r, fs') := Option.some.inj hexec
    have hcall := habs.exec hallowed
    rw [hEq] at hcall
    exact hcall
  rcases Machine.run_refines hsim as tfsInit.2 FileSystem.empty rs fs abstracts_tfsInit hok hrun with
    ⟨s, hlib, habs⟩
  exact ⟨rs, s, fs, hrun, hlib, habs⟩

/-- Create `/a`, write three bytes, read at the end, close. -/
def shortSession : List Call :=
  [.open (some ⟨[0x2f, 0x61], by simp⟩) tfsOCreat, .write 0 (fun _ => 0x62) 3, .read 0 8, .close 0]

theorem library_refines_spec_shortSession :
    ∃ rs s fs, machine.run shortSession FileSystem.empty = some (rs, fs) ∧
      library.run shortSession tfsInit.2 = some (rs, s) ∧ Abstracts s fs := by
  apply library_refines_spec
  refine (Machine.runOk_cons_of_exec rfl).2 ⟨⟨⟨⟨[0x61], by simp⟩, by decide, by decide⟩, by decide, ?_⟩,
    (Machine.runOk_cons_of_exec rfl).2 ⟨?_, (Machine.runOk_cons_of_exec rfl).2 ⟨?_, (Machine.runOk_cons_of_exec rfl).2 ⟨trivial, trivial⟩⟩⟩⟩
  · intro hflag
    exact absurd hflag (by decide)
  · exact ⟨0, ⟨⟨⟨[0x61], by simp⟩, by decide, by decide⟩, 0⟩, by decide, by decide⟩
  · exact ⟨0, ⟨⟨⟨[0x61], by simp⟩, by decide, by decide⟩, 3⟩, by decide⟩

end Runs

end Server
end TecnicoFs
