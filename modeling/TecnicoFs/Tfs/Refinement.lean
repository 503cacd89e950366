import Mathlib.Data.Fintype.Pigeonhole
import TecnicoFs.Lib.Simulation
import TecnicoFs.Tfs.Spec
import TecnicoFs.Tfs.WriteLaw

/-!
# Multi-block refinement — `tfs/fs` implements its specification

`Abstracts s fs` ties a state of the library to an abstract file system: the used directory entries are the
names, the blocks of the i-node that an entry selects hold the file's bytes, the taken open file entries
are the handles, and the free blocks are those that the files leave.  Each call that stays within one block
is simulated, so that a run of such calls gives the replies of the specification and loses no block.
-/

namespace TecnicoFs
namespace Tfs

open Lib
open Spec
open Server.Spec (FileName overwrite)

/-! ## The abstraction relation -/

/-- A used entry of the root directory gives the i-node `i` the name `name`. -/
def NamedAs (s : State) (i : ℕ) (name : CString) : Prop :=
  ∃ k < 23, EntryUsed s.disk.fsData 0 k ∧ dInumber s.disk.fsData 0 k = i ∧
    entryName s.disk.fsData 0 k = name

/-- The bytes of the file with i-node `i`. -/
def fileBytes (s : State) (i : ℕ) : List Byte :=
  (List.range (s.inodeTable i).iSize).map (byteAt s i)

/-- The file has the blocks that its bytes need, and no others. -/
structure Compact (s : State) (i : ℕ) : Prop where
  size_le : (s.inodeTable i).iSize ≤ 272384
  blocks : ∀ k < 266, slotValue s (fileSlot i k) ≠ -1 ↔ k * 1024 < (s.inodeTable i).iSize

/-- An entry of the open file table that stands for the abstract handle. -/
def EntryIs (s : State) (h : ℕ) (x : Handle) (i : ℕ) : Prop :=
  s.openFileTable h = ⟨i, x.offset, if x.append then 1 else 0⟩ ∧ NamedAs s i x.name.name ∧
    x.offset ≤ (s.inodeTable i).iSize

/-- Entry `h` of the open file table is free, or stands for the abstract handle. -/
def EntryAbstracts (s : State) (h : ℕ) : Option Handle → Prop
  | none => s.freeOpenFileEntries h = .free
  | some x => s.freeOpenFileEntries h = .taken ∧ ∃ i, EntryIs s h x i

structure Abstracts (s : State) (fs : FileSystem) : Prop where
  inv : Inv s
  shape : Shape s
  named : ∀ i, 0 < i → Allocated s i → ∃ name, NamedAs s i name
  nameUnique : ∀ j < 23, ∀ k < 23, EntryUsed s.disk.fsData 0 j → EntryUsed s.disk.fsData 0 k →
    entryName s.disk.fsData 0 j = entryName s.disk.fsData 0 k → j = k
  inodeUnique : ∀ j < 23, ∀ k < 23, EntryUsed s.disk.fsData 0 j → EntryUsed s.disk.fsData 0 k →
    dInumber s.disk.fsData 0 j = dInumber s.disk.fsData 0 k → j = k
  nameLength : ∀ i name, NamedAs s i name → 1 ≤ name.strlen ∧ name.strlen ≤ 39
  compact : ∀ i name, NamedAs s i name → Compact s i
  files : ∀ n c, fs.files.lookup n = some c ↔ ∃ i, NamedAs s i n.name ∧ fileBytes s i = c.val
  handles : ∀ h : Fin maxOpenFiles, EntryAbstracts s h (fs.handles h)
  space : freeBlockCount s.disk + usedBlocks fs.files = 1024

section Basic

variable {s t : State} {fs : FileSystem} {i j k : ℕ} {name : CString} {n : FileName}

theorem NamedAs.congr (hdir : SameBlock s.disk.fsData t.disk.fsData 0) :
    NamedAs t i name ↔ NamedAs s i name := by
  unfold NamedAs
  constructor
  · rintro ⟨k, hk, hused, hnum, hname⟩
    exact ⟨k, hk, (hdir.entryUsed_iff hk).1 hused, (hdir.dInumber_eq hk) ▸ hnum,
      (hdir.entryName_eq hk) ▸ hname⟩
  · rintro ⟨k, hk, hused, hnum, hname⟩
    exact ⟨k, hk, (hdir.entryUsed_iff hk).2 hused, (hdir.dInumber_eq hk).trans hnum,
      (hdir.entryName_eq hk).trans hname⟩

theorem Inv.live_of_named (hs : Inv s) (hi : NamedAs s i name) : LiveFile s i := by
  rcases hi with ⟨k, hk, hused, hnum, _⟩
  rcases hs.entries k hk hused with ⟨j, hj, hlive⟩
  have hij : i = j := by
    rw [hnum] at hj
    exact_mod_cast hj
  rw [hij]
  exact hlive

theorem Abstracts.namedAs_unique (h : Abstracts s fs) (hi : NamedAs s i name)
    (hj : NamedAs s j name) : i = j := by
  rcases hi with ⟨k, hk, husedK, hnumK, hnameK⟩
  rcases hj with ⟨l, hl, husedL, hnumL, hnameL⟩
  have hkl := h.nameUnique k hk l hl husedK husedL (hnameK.trans hnameL.symm)
  subst hkl
  exact_mod_cast hnumK.symm.trans hnumL

/-- An i-node has one name. -/
theorem Abstracts.name_unique {name' : CString} (h : Abstracts s fs) (hi : NamedAs s i name)
    (hi' : NamedAs s i name') : name = name' := by
  rcases hi with ⟨k, hk, husedK, hnumK, rfl⟩
  rcases hi' with ⟨l, hl, husedL, hnumL, rfl⟩
  rw [h.inodeUnique k hk l hl husedK husedL (hnumK.trans hnumL.symm)]

theorem length_fileBytes : (fileBytes s i).length = (s.inodeTable i).iSize := by
  simp [fileBytes]

theorem Abstracts.lookup_of_namedAs (h : Abstracts s fs) (hi : NamedAs s i n.name) :
    ∃ c, fs.files.lookup n = some c ∧ fileBytes s i = c.val := by
  have hle : (fileBytes s i).length ≤ maxFileSize := by
    rw [length_fileBytes]
    exact (h.compact i _ hi).size_le
  exact ⟨⟨fileBytes s i, hle⟩, (h.files n _).2 ⟨i, hi, rfl⟩, rfl⟩

/-- The names of the specification are the names of the used entries. -/
theorem Abstracts.mem_keys_iff (h : Abstracts s fs) :
    n ∈ fs.files.keys ↔ ∃ k < 23, EntryUsed s.disk.fsData 0 k ∧ entryName s.disk.fsData 0 k = n.name := by
  rw [Finmap.mem_keys, Finmap.mem_iff]
  constructor
  · rintro ⟨c, hc⟩
    rcases (h.files n c).1 hc with ⟨i, ⟨k, hk, hused, _, hname⟩, _⟩
    exact ⟨k, hk, hused, hname⟩
  · rintro ⟨k, hk, hused, hname⟩
    rcases h.inv.entries k hk hused with ⟨i, hnum, _⟩
    rcases h.lookup_of_namedAs (i := i) ⟨k, hk, hused, hnum, hname⟩ with ⟨c, hc, _⟩
    exact ⟨c, hc⟩

/-- There is room for one more name iff some directory entry is empty. -/
theorem Abstracts.card_lt_iff (h : Abstracts s fs) :
    fs.files.keys.card < 23 ↔ ∃ k < 23, ¬ EntryUsed s.disk.fsData 0 k := by
  let used := (Finset.range 23).filter fun k => EntryUsed s.disk.fsData 0 k
  have himage : fs.files.keys.image FileName.name = used.image (entryName s.disk.fsData 0) := by
    ext name
    simp only [used, Finset.mem_image, Finset.mem_filter, Finset.mem_range]
    constructor
    · rintro ⟨n, hn, rfl⟩
      rcases h.mem_keys_iff.1 hn with ⟨k, hk, hused, hname⟩
      exact ⟨k, ⟨hk, hused⟩, hname⟩
    · rintro ⟨k, ⟨hk, hused⟩, rfl⟩
      rcases h.inv.entries k hk hused with ⟨i, hnum, _⟩
      rcases h.nameLength i _ ⟨k, hk, hused, hnum, rfl⟩ with ⟨hpos, hle⟩
      exact ⟨⟨_, hpos, hle⟩, h.mem_keys_iff.2 ⟨k, hk, hused, rfl⟩, rfl⟩
  have hleft : (fs.files.keys.image FileName.name).card = fs.files.keys.card := by
    apply Finset.card_image_of_injective
    intro a b hab
    cases a
    cases b
    simpa using hab
  have hright : (used.image (entryName s.disk.fsData 0)).card = used.card := by
    apply Finset.card_image_of_injOn
    intro j hj k hk hEq
    simp only [used, Finset.coe_filter, Finset.mem_range, Set.mem_ofPred_eq] at hj hk
    exact h.nameUnique j hj.1 k hk.1 hj.2 hk.2 hEq
  rw [← hleft, himage, hright]
  have hlt : used.card < 23 ↔ used ≠ Finset.range 23 := by
    constructor
    · rintro hcard hEq
      rw [hEq] at hcard
      simp at hcard
    · intro hne
      simpa using Finset.card_lt_card ((Finset.filter_subset _ _).ssubset_of_ne hne)
  rw [hlt, Ne, Finset.filter_eq_self]
  simp

/-- A free i-node is always left: each allocated one is the root or has a directory entry. -/
theorem Abstracts.exists_free_inode (h : Abstracts s fs) : ∃ i < 50, s.freeinodeTs i = .free := by
  by_contra hall
  push Not at hall
  have hnamed : ∀ i : Fin 24, ∃ k : Fin 23, EntryUsed s.disk.fsData 0 k ∧
      dInumber s.disk.fsData 0 k = ((i + 1 : ℕ) : ℤ) := by
    intro i
    have halloc : Allocated s (i + 1) :=
      ⟨show (i : ℕ) + 1 < 50 by omega, AllocationState.ne_free.1 (hall _ (by omega))⟩
    rcases h.named (i + 1) (by omega) halloc with ⟨name, k, hk, hused, hnum, _⟩
    exact ⟨⟨k, hk⟩, hused, hnum⟩
  choose entry hentry using hnamed
  rcases Fintype.exists_ne_map_eq_of_card_lt entry (by simp) with ⟨i, j, hij, hEq⟩
  have hi := (hentry i).2
  have hj := (hentry j).2
  rw [hEq] at hi
  apply hij
  apply Fin.ext
  omega

/-- What is read off the i-nodes and the disk alone. -/
theorem slotValue_of_same (hdisk : t.disk = s.disk) (hnodes : t.inodeTable = s.inodeTable) (x : Slot) :
    slotValue t x = slotValue s x := by
  cases x <;> simp [slotValue, indexAddress, hdisk, hnodes]

theorem byteAt_of_same (hdisk : t.disk = s.disk) (hnodes : t.inodeTable = s.inodeTable) (i p : ℕ) :
    byteAt t i p = byteAt s i p := by
  rw [byteAt, byteAt, slotValue_of_same hdisk hnodes, hdisk]

theorem fileBytes_of_same (hdisk : t.disk = s.disk) (hnodes : t.inodeTable = s.inodeTable) (i : ℕ) :
    fileBytes t i = fileBytes s i := by
  rw [fileBytes, fileBytes, hnodes]
  exact congrArg (fun f => List.map f _) (funext (byteAt_of_same hdisk hnodes i))

theorem Compact.of_same (hc : Compact s i) (hdisk : t.disk = s.disk)
    (hnodes : t.inodeTable = s.inodeTable) : Compact t i := by
  constructor
  · rw [hnodes]
    exact hc.size_le
  · intro k hk
    rw [slotValue_of_same hdisk hnodes, hnodes]
    exact hc.blocks k hk

end Basic

/-! ## Handles -/

section Handles

variable {s t : State} {fs fs' : FileSystem} {i : ℕ} {n : FileName}

/-- An entry of the open file table that a call leaves alone. -/
theorem EntryAbstracts.congr {g : ℕ} {x : Option Handle} (h : EntryAbstracts s g x)
    (hdir : SameBlock s.disk.fsData t.disk.fsData 0)
    (hmark : t.freeOpenFileEntries g = s.freeOpenFileEntries g)
    (hentry : t.openFileTable g = s.openFileTable g)
    (hsize : ∀ i name, NamedAs s i name → (s.inodeTable i).iSize ≤ (t.inodeTable i).iSize) :
    EntryAbstracts t g x := by
  rcases x with _ | y
  · exact hmark.trans h
  · rcases h with ⟨htaken, i, hEq, hi, hoff⟩
    exact ⟨hmark.trans htaken, i, hentry.trans hEq, (NamedAs.congr hdir).2 hi,
      hoff.trans (hsize i _ hi)⟩

/-- A change of the open file table only. -/
theorem Abstracts.of_handles (h : Abstracts s fs) (hinv : Inv t) (hshape : Shape t)
    (hdisk : t.disk = s.disk) (hnodes : t.inodeTable = s.inodeTable)
    (hfree : t.freeinodeTs = s.freeinodeTs) (hfiles : fs'.files = fs.files)
    (hhandles : ∀ g : Fin maxOpenFiles, EntryAbstracts t g (fs'.handles g)) : Abstracts t fs' where
  inv := hinv
  shape := hshape
  named := by simpa [Allocated, NamedAs, hfree, hdisk] using h.named
  nameUnique := by simpa [hdisk] using h.nameUnique
  inodeUnique := by simpa [hdisk] using h.inodeUnique
  nameLength := by simpa [NamedAs, hdisk] using h.nameLength
  compact := by
    intro j name hj
    exact (h.compact j name (by simpa [NamedAs, hdisk] using hj)).of_same hdisk hnodes
  files := by
    intro m c
    rw [hfiles, h.files m c]
    simp [NamedAs, hdisk, fileBytes_of_same hdisk hnodes]
  handles := hhandles
  space := by
    rw [hfiles, hdisk]
    exact h.space

theorem Abstracts.handle_eq_none_iff (h : Abstracts s fs) (g : Fin maxOpenFiles) :
    fs.handles g = none ↔ s.freeOpenFileEntries g = .free := by
  have hg := h.handles g
  rcases hx : fs.handles g with _ | x
  · rw [hx] at hg
    exact ⟨fun _ => hg, fun _ => rfl⟩
  · rw [hx] at hg
    have htaken : s.freeOpenFileEntries g = .taken := hg.1
    simp [htaken]

/-- One handle changes in the table and in the specification. -/
theorem Abstracts.setHandle (h : Abstracts s fs) {g : Fin maxOpenFiles} {x : Option Handle}
    {t : State} (hinv : Inv t) (hshape : Shape t) (hdisk : t.disk = s.disk)
    (hnodes : t.inodeTable = s.inodeTable) (hfree : t.freeinodeTs = s.freeinodeTs)
    (hmark : ∀ j, j ≠ (g : ℕ) → t.freeOpenFileEntries j = s.freeOpenFileEntries j)
    (hentry : ∀ j, j ≠ (g : ℕ) → t.openFileTable j = s.openFileTable j)
    (hg : EntryAbstracts t g x) : Abstracts t (fs.setHandle g x) := by
  refine h.of_handles hinv hshape hdisk hnodes hfree rfl ?_
  intro j
  by_cases hj : j = g
  · subst hj
    simp only [FileSystem.setHandle, Function.update_self]
    exact hg
  · have hjg : (j : ℕ) ≠ g := fun hEq => hj (Fin.ext hEq)
    simp only [FileSystem.setHandle, Function.update_of_ne hj]
    have hdir : SameBlock s.disk.fsData t.disk.fsData 0 := by
      rw [hdisk]
      exact SameBlock.refl _ _
    refine (h.handles j).congr hdir (hmark j hjg) (hentry j hjg) ?_
    intro i name _
    rw [hnodes]

/-- A position in a file is one that a handle may have. -/
theorem Abstracts.positionOk (h : Abstracts s fs) {name : CString} (hi : NamedAs s i name) {offset : ℕ}
    (hoff : offset ≤ (s.inodeTable i).iSize) : PositionOk s i offset := by
  have hc := h.compact i name hi
  have hsize := hc.size_le
  refine ⟨by omega, fun hpos => ?_⟩
  exact (hc.blocks 0 (by omega)).2 (by omega)

/-- Adding a handle on a file gives the same number on both sides. -/
theorem Abstracts.addHandle (h : Abstracts s fs) {x : Handle} (hi : NamedAs s i x.name.name)
    (hoff : x.offset ≤ (s.inodeTable i).iSize) (append : ℤ)
    (happend : append = if x.append then 1 else 0) :
    (addToOpenFileTable i x.offset append s).1 = (fs.addHandle x).1 ∧
      Abstracts (addToOpenFileTable i x.offset append s).2 (fs.addHandle x).2 := by
  have hlive := h.inv.live_of_named hi
  have hpos := h.positionOk hi hoff
  have hinv : Inv (addToOpenFileTable i x.offset append s).2 := h.inv.addToOpenFileTable hlive hpos
  have hshape := h.shape.addToOpenFileTable hlive.2.1.1 hpos.1 append
  rcases addToOpenFileTable_cases i x.offset append s with ⟨g, hg, hfree, hbefore, hEq⟩ | ⟨hfull, hEq⟩
  · -- the first free entry of the table is the lowest free handle
    have hlowest : lowestFree fs.handles = some ⟨g, hg⟩ := by
      apply lowestFree_of_free
      · exact (h.handle_eq_none_iff ⟨g, hg⟩).2 hfree
      · intro j hj hnone
        have hfreeJ := (h.handle_eq_none_iff j).1 hnone
        rw [hbefore j hj] at hfreeJ
        cases hfreeJ
    have hspec : fs.addHandle x = ((g : ℤ), fs.setHandle ⟨g, hg⟩ (some x)) := by
      simp [FileSystem.addHandle, hlowest]
    rw [hEq] at hinv hshape
    rw [hEq, hspec]
    refine ⟨rfl, h.setHandle hinv hshape rfl rfl rfl ?_ ?_ ?_⟩
    · intro j hj
      simp [hj]
    · intro j hj
      simp [hj]
    · exact ⟨by simp, i, by simp [happend], hi, hoff⟩
  · -- the table is full, and nothing changes
    have hlowest : lowestFree fs.handles = none := by
      apply lowestFree_of_full
      intro g hnone
      have hfreeG := (h.handle_eq_none_iff g).1 hnone
      rw [hfull g g.isLt] at hfreeG
      cases hfreeG
    have hspec : fs.addHandle x = (-1, fs) := by
      simp [FileSystem.addHandle, hlowest]
    rw [hEq, hspec]
    exact ⟨rfl, h⟩

/-- The abstract handle with a number is the taken entry of the open file table. -/
theorem Abstracts.entryOf_cases (h : Abstracts s fs) (fhandle : ℤ) :
    (∃ (g : Fin maxOpenFiles) (x : Handle) (i : ℕ), fhandle = (g : ℕ) ∧
      entryOf fs.handles fhandle = some (g, x) ∧ fs.handles g = some x ∧
      s.freeOpenFileEntries g = .taken ∧ EntryIs s g x i) ∨
    (entryOf fs.handles fhandle = none ∧ ¬ HandleOpen s fhandle) := by
  by_cases hrange : 0 ≤ fhandle ∧ fhandle.toNat < maxOpenFiles
  · have hg := h.handles ⟨fhandle.toNat, hrange.2⟩
    rcases hx : fs.handles ⟨fhandle.toNat, hrange.2⟩ with _ | x
    · right
      refine ⟨by simp [entryOf, hrange, hx], ?_⟩
      -- a handle that is open in the table is open in the specification
      rintro ⟨g, _, rfl, htaken⟩
      rw [hx] at hg
      have hfree : s.freeOpenFileEntries g = .free := hg
      rw [htaken] at hfree
      cases hfree
    · left
      rw [hx] at hg
      rcases hg with ⟨htaken, i, hentry⟩
      exact ⟨⟨fhandle.toNat, hrange.2⟩, x, i, (Int.toNat_of_nonneg hrange.1).symm,
        by simp [entryOf, hrange, hx], hx, htaken, hentry⟩
  · right
    refine ⟨by simp only [entryOf, hrange, dite_false], ?_⟩
    rintro ⟨g, hg, rfl, _⟩
    exact hrange ⟨by omega, by simpa using hg⟩

theorem Abstracts.close (h : Abstracts s fs) (fhandle : ℤ) :
    (tfsClose fhandle s).1 = (fs.closeHandle fhandle).1 ∧
      Abstracts (tfsClose fhandle s).2 (fs.closeHandle fhandle).2 := by
  have hinv := h.inv.tfsClose fhandle
  have hshape := h.shape.tfsClose fhandle
  unfold tfsClose removeFromOpenFileTable at hinv hshape ⊢
  rcases h.entryOf_cases fhandle with ⟨g, x, i, rfl, hof, _, htaken, _⟩ | ⟨hof, hclosed⟩
  · -- an open handle: its entry becomes free
    have hspec : fs.closeHandle (g : ℕ) = (0, fs.setHandle g none) := by
      simp [FileSystem.closeHandle, hof]
    have hcond : (!validFileHandle ((g : ℕ) : ℤ) ||
        decide (s.freeOpenFileEntries ((g : ℕ) : ℤ).toNat ≠ .taken)) = false := by
      simp [htaken]
    rw [if_neg (by rw [hcond]; simp)] at hinv hshape ⊢
    rw [hspec]
    refine ⟨rfl, h.setHandle hinv hshape rfl rfl rfl ?_ (fun _ _ => rfl) ?_⟩
    · intro j hj
      simp [hj]
    · simp [EntryAbstracts]
  · -- a handle that is not open is refused on both sides
    have hspec : fs.closeHandle fhandle = (-1, fs) := by
      simp [FileSystem.closeHandle, hof]
    have hcond : (!validFileHandle fhandle ||
        decide (s.freeOpenFileEntries fhandle.toNat ≠ .taken)) = true := by
      by_contra hne
      simp only [Bool.or_eq_true, Bool.not_eq_true', decide_eq_true_eq, not_or, Bool.not_eq_false,
        not_not] at hne
      rcases validFileHandle_iff.1 hne.1 with ⟨hlo, hhi⟩
      exact hclosed ⟨fhandle.toNat, by omega, by omega, hne.2⟩
    rw [if_pos hcond, hspec]
    exact ⟨rfl, h⟩

end Handles

/-! ## Files -/

section Files

variable {s t : State} {fs fs' : FileSystem} {i : ℕ} {n : FileName} {c c' : Contents}

/-- A change of one file, whose name stays what it is. -/
theorem Abstracts.of_file (h : Abstracts s fs) (hinv : Inv t) (hshape : Shape t)
    (hi : NamedAs s i n.name) (hdir : SameBlock s.disk.fsData t.disk.fsData 0)
    (hfree : t.freeinodeTs = s.freeinodeTs)
    (hothers : ∀ j name, j ≠ i → NamedAs s j name → fileBytes t j = fileBytes s j ∧ Compact t j)
    (hcompact : Compact t i) (hbytes : fileBytes t i = c'.val)
    (hfiles : fs'.files = fs.files.insert n c')
    (hhandles : ∀ g : Fin maxOpenFiles, EntryAbstracts t g (fs'.handles g))
    (hspace : freeBlockCount t.disk + usedBlocks fs'.files = 1024) : Abstracts t fs' := by
  -- the directory block is the same, so every name stands for the same i-node as before
  have hname : ∀ j name, NamedAs t j name ↔ NamedAs s j name := fun j name => NamedAs.congr hdir
  constructor
  · exact hinv
  · exact hshape
  · intro j hj halloc
    rcases h.named j hj (by simpa [Allocated, hfree] using halloc) with ⟨name, hjn⟩
    exact ⟨name, (hname j name).2 hjn⟩
  · intro j hj k hk husedJ husedK hEq
    rw [hdir.entryName_eq hj, hdir.entryName_eq hk] at hEq
    exact h.nameUnique j hj k hk ((hdir.entryUsed_iff hj).1 husedJ)
      ((hdir.entryUsed_iff hk).1 husedK) hEq
  · intro j hj k hk husedJ husedK hEq
    rw [hdir.dInumber_eq hj, hdir.dInumber_eq hk] at hEq
    exact h.inodeUnique j hj k hk ((hdir.entryUsed_iff hj).1 husedJ)
      ((hdir.entryUsed_iff hk).1 husedK) hEq
  · intro j name hj
    exact h.nameLength j name ((hname j name).1 hj)
  · intro j name hj
    by_cases hji : j = i
    · rw [hji]
      exact hcompact
    · exact (hothers j name hji ((hname j name).1 hj)).2
  · intro m d
    rw [hfiles]
    by_cases hmn : m = n
    · -- the changed file
      subst hmn
      rw [Finmap.lookup_insert]
      constructor
      · intro hd
        cases hd
        exact ⟨i, (hname i _).2 hi, hbytes⟩
      · rintro ⟨j, hj, hd⟩
        have hji := h.namedAs_unique ((hname j _).1 hj) hi
        subst hji
        rw [hbytes] at hd
        rw [Subtype.ext hd]
    · -- any other name: its i-node is not `i`, since names are unique
      rw [Finmap.lookup_insert_of_ne _ hmn, h.files m d]
      apply exists_congr
      intro j
      rw [hname j]
      apply and_congr_right
      intro hj
      have hji : j ≠ i := by
        rintro rfl
        exact hmn (FileName.eq_of_name (h.name_unique hj hi))
      rw [(hothers j _ hji hj).1]
  · exact hhandles
  · exact hspace

/-- The contents of a file that has a name. -/
theorem Abstracts.fileBytes_eq (h : Abstracts s fs) (hi : NamedAs s i n.name)
    (hlookup : fs.files.lookup n = some c) : fileBytes s i = c.val := by
  rcases h.lookup_of_namedAs hi with ⟨d, hd, hbytes⟩
  rw [hbytes, Option.some.inj (hd.symm.trans hlookup)]

/-- Opening an existing file. -/
theorem Abstracts.openExisting (h : Abstracts s fs) (flags : ℤ) (hi : NamedAs s i n.name)
    (hlookup : fs.files.lookup n = some c) (htrunc : hasFlag flags tfsOTrunc → c = Contents.empty) :
    (openExisting i flags s).1 = (fs.openFile n flags).1 ∧
      Abstracts (openExisting i flags s).2 (fs.openFile n flags).2 := by
  have hlive := h.inv.live_of_named hi
  have hbytes := h.fileBytes_eq hi hlookup
  have hsize : (s.inodeTable i).iSize = c.val.length := by rw [← hbytes, length_fileBytes]
  -- only an empty file may be truncated, so nothing is erased
  have hnot : ¬ Truncates flags i s := by
    rintro ⟨hflag, hpos⟩
    rw [hsize, htrunc hflag] at hpos
    exact absurd hpos (lt_irrefl 0)
  have hsame : FileSystem.truncated flags c = c := by
    unfold FileSystem.truncated
    split
    · next hflag => exact (htrunc hflag).symm
    · rfl
  let x : Handle := ⟨n, if hasFlag flags tfsOAppend then c.val.length else 0, hasFlag flags tfsOAppend⟩
  have hspec : ∃ hroom hused, fs.openFile n flags = (fs.put n c hroom hused).addHandle x := by
    refine ⟨FileSystem.room_of_lookup hlookup,
      fs.used_truncated_le hlookup (Or.inr rfl), ?_⟩
    unfold FileSystem.openFile
    split
    · next d hd =>
        have hdc : d = c := Option.some.inj (hd.symm.trans hlookup)
        subst hdc
        simp only [hsame]
        rfl
    · next hnone =>
        rw [hlookup] at hnone
        cases hnone
  rcases hspec with ⟨hroom, hused, hspec⟩
  have hput : Abstracts s (fs.put n c hroom hused) :=
    h.of_handles h.inv h.shape rfl rfl rfl (insert_of_lookup hlookup) h.handles
  rw [openExisting_of_not_truncates hlive.2.1.1 hnot, hspec, hsize]
  by_cases hflag : hasFlag flags tfsOAppend = true
  · have hx : x.offset = c.val.length := by simp [x, hflag]
    have hadd := hput.addHandle (x := x) hi (by rw [hx, hsize]) 1 (by simp [x, hflag])
    rw [if_pos hflag, ← hx]
    exact hadd
  · have hx : x.offset = 0 := by simp [x, hflag]
    have hadd := hput.addHandle (x := x) hi (by rw [hx]; exact Nat.zero_le _) 0
      (by simp [x, hflag])
    rw [if_neg hflag]
    rw [hx] at hadd
    exact hadd

end Files

/-! ## Creation -/

section Create

variable {s t : State} {fs : FileSystem} {i b j k : ℕ} {n : FileName} {name : CString} {flags r : ℤ}

theorem namedAs_namedFile (hi : i < 50) (hk : k < 23) (hempty : ¬ EntryUsed s.disk.fsData 0 k) :
    NamedAs (namedFile s k i n.name) j name ↔ (j = i ∧ name = n.name) ∨ NamedAs s j name := by
  have hself : entryName (namedFile s k i n.name).disk.fsData 0 k = n.name :=
    entryName_fillEntry_self.trans (cutName_of_le n.le)
  have hnumber : dInumber (namedFile s k i n.name).disk.fsData 0 k = i :=
    dInumber_fillEntry_self (by omega) (by omega)
  constructor
  · rintro ⟨l, hl, hused, hnum, hname⟩
    by_cases hlk : l = k
    · subst hlk
      rw [hnumber] at hnum
      rw [hself] at hname
      exact Or.inl ⟨by omega, hname.symm⟩
    · have hold := ((entryUsed_namedFile hi).1 hused).resolve_left hlk
      exact Or.inr ⟨l, hl, hold, (dInumber_fillEntry_of_ne hlk).symm.trans hnum,
        (entryName_fillEntry_of_ne hlk).symm.trans hname⟩
  · rintro (⟨rfl, rfl⟩ | ⟨l, hl, hused, hnum, hname⟩)
    · exact ⟨k, hk, (entryUsed_namedFile hi).2 (Or.inl rfl), hnumber, hself⟩
    · have hlk : l ≠ k := fun h => hempty (h ▸ hused)
      exact ⟨l, hl, (entryUsed_namedFile hi).2 (Or.inr hused),
        (dInumber_fillEntry_of_ne hlk).trans hnum, (entryName_fillEntry_of_ne hlk).trans hname⟩

/-- The i-nodes and the taken blocks of the files are the same. -/
structure SameFiles (s t : State) : Prop where
  inodes : ∀ j, Allocated s j → t.inodeTable j = s.inodeTable j
  data : ∀ c, 0 < c → BlockTaken s c → SameBlock s.disk.fsData t.disk.fsData (c * 1024)

theorem SameFiles.slotValue_eq (h : SameFiles s t) (hs : Inv s) (hlive : LiveFile s j) {l : ℕ}
    (hl : l < 266) : slotValue t (fileSlot j l) = slotValue s (fileSlot j l) := by
  have hnode := h.inodes j hlive.2.1
  unfold fileSlot
  split
  · simp only [slotValue, hnode]
  · -- the entry lies in an index block, which is taken and hence the same
    rcases hlive.refers_index with ⟨a, _, _, _, haddr, hrefers⟩
    have hsame := h.data a (hs.block_pos hrefers (by simp)) (hs.blocks.taken_of_refers hrefers)
    have haddr' : indexAddress t j = a * 1024 := by rw [← haddr, indexAddress, indexAddress, hnode]
    simp only [slotValue, haddr, haddr']
    apply readInt_congr
    intro p hp
    rw [Nat.add_assoc]
    exact hsame (4 * (l - 10) + p) (by omega)

theorem SameFiles.compact (h : SameFiles s t) (hs : Inv s) (hlive : LiveFile s j) (hc : Compact s j) :
    Compact t j := by
  constructor
  · rw [h.inodes j hlive.2.1]
    exact hc.size_le
  · intro l hl
    rw [h.slotValue_eq hs hlive hl, h.inodes j hlive.2.1]
    exact hc.blocks l hl

theorem SameFiles.fileBytes_eq (h : SameFiles s t) (hs : Inv s) (hlive : LiveFile s j)
    (hc : Compact s j) : fileBytes t j = fileBytes s j := by
  have hsize := hc.size_le
  unfold fileBytes
  rw [h.inodes j hlive.2.1]
  apply List.map_congr_left
  intro p hp
  have hp' := List.mem_range.1 hp
  have hl : p / 1024 < 266 := by omega
  have hslot : IsSlot s (fileSlot j (p / 1024)) := hs.isSlot_fileSlot hlive hl
  rcases (hs.valid _ hslot).resolve_left ((hc.blocks _ hl).2 (by omega)) with ⟨b, _, hb⟩
  have hrefers : Refers s (fileSlot j (p / 1024)) b := ⟨hslot, hb⟩
  have hpos := hs.block_pos hrefers (fileSlot_ne_root hlive.1 _)
  rw [byteAt, byteAt, h.slotValue_eq hs hlive hl, hb, Int.toNat_natCast]
  exact h.data b hpos (hs.blocks.taken_of_refers hrefers) (p % 1024) (Nat.mod_lt _ (by omega))

theorem sameFiles_preparedFile (hfree : s.freeinodeTs i = .free)
    (hfreeB : s.disk.freeBlocks b = .free) : SameFiles s (preparedFile s i b) where
  inodes := by
    intro j hj
    have hji : j ≠ i := by
      rintro rfl
      simp [hj.2] at hfree
    simp [preparedFile, hji]
  data := by
    intro c _ hc
    apply sameBlock_fillIndexBlock
    rintro rfl
    simp [hc.2] at hfreeB

theorem sameFiles_namedFile (hfree : s.freeinodeTs i = .free) (hfreeB : s.disk.freeBlocks b = .free)
    (hk : k < 23) : SameFiles s (namedFile (createdFile s i b) k i name) where
  inodes := (sameFiles_preparedFile hfree hfreeB).inodes
  data := by
    intro c hpos hc
    refine ((sameFiles_preparedFile hfree hfreeB).data c hpos hc).trans ?_
    intro p _
    exact fillEntry_of_disjoint (by omega)

/-- The handles of the old files, after a step that leaves these files alone. -/
theorem Abstracts.handles_of_sameFiles (h : Abstracts s fs) (hsame : SameFiles s t)
    (hnamed : ∀ j name, NamedAs s j name → NamedAs t j name)
    (hmark : t.freeOpenFileEntries = s.freeOpenFileEntries)
    (hentry : t.openFileTable = s.openFileTable) (g : Fin maxOpenFiles) :
    EntryAbstracts t g (fs.handles g) := by
  have hg := h.handles g
  rcases hx : fs.handles g with _ | x
  · rw [hx] at hg
    exact (congrFun hmark g).trans hg
  · rw [hx] at hg
    rcases hg with ⟨htaken, j, hEq, hj, hoff⟩
    refine ⟨(congrFun hmark g).trans htaken, j, (congrFun hentry g).trans hEq, hnamed j _ hj, ?_⟩
    rw [hsame.inodes j (h.inv.live_of_named hj).2.1]
    exact hoff

/-! ### The directory after a file was created under the new name `n`: what was there, and entry `k` -/

theorem Abstracts.ne_of_free (h : Abstracts s fs) (hfree : s.freeinodeTs i = .free) (hj : NamedAs s j name) :
    j ≠ i := by
  rintro rfl
  have htaken := (h.inv.live_of_named hj).2.1.2
  rw [hfree] at htaken
  cases htaken

theorem Abstracts.not_namedAs (h : Abstracts s fs) (hnew : fs.files.lookup n = none) :
    ¬ NamedAs s j n.name := by
  intro hj
  rcases h.lookup_of_namedAs hj with ⟨c, hc, _⟩
  rw [hnew] at hc
  cases hc

theorem namedAs_newFile (hs : Inv s) (hi : i < 50) (hfreeB : s.disk.freeBlocks b = .free) (hk : k < 23)
    (hempty : ¬ EntryUsed s.disk.fsData 0 k) :
    NamedAs (namedFile (createdFile s i b) k i n.name) j name ↔ (j = i ∧ name = n.name) ∨ NamedAs s j name := by
  have hdir := sameBlock_createdFile (i := i) hs hfreeB
  have hemptyC : ¬ EntryUsed (createdFile s i b).disk.fsData 0 k := fun hc =>
    hempty ((hdir.entryUsed_iff hk).1 hc)
  rw [namedAs_namedFile hi hk hemptyC, NamedAs.congr hdir]

/-- The other entries are as before. -/
theorem entry_newFile (hs : Inv s) (hi : i < 50) (hfreeB : s.disk.freeBlocks b = .free) {q : ℕ} (hq : q < 23)
    (hqk : q ≠ k) (hused : EntryUsed (namedFile (createdFile s i b) k i name).disk.fsData 0 q) :
    EntryUsed s.disk.fsData 0 q ∧
      entryName (namedFile (createdFile s i b) k i name).disk.fsData 0 q = entryName s.disk.fsData 0 q ∧
      dInumber (namedFile (createdFile s i b) k i name).disk.fsData 0 q = dInumber s.disk.fsData 0 q := by
  have hdir := sameBlock_createdFile (i := i) hs hfreeB
  have hold := ((entryUsed_namedFile hi).1 hused).resolve_left hqk
  exact ⟨(hdir.entryUsed_iff hq).1 hold, (entryName_fillEntry_of_ne hqk).trans (hdir.entryName_eq hq),
    (dInumber_fillEntry_of_ne hqk).trans (hdir.dInumber_eq hq)⟩

/-- Two entries of one name: both are the new one, or both are old ones. -/
theorem Abstracts.nameUnique_newFile (h : Abstracts s fs) (hi : i < 50) (hfreeB : s.disk.freeBlocks b = .free)
    (hnew : fs.files.lookup n = none) :
    ∀ j < 23, ∀ l < 23, EntryUsed (namedFile (createdFile s i b) k i n.name).disk.fsData 0 j →
      EntryUsed (namedFile (createdFile s i b) k i n.name).disk.fsData 0 l →
      entryName (namedFile (createdFile s i b) k i n.name).disk.fsData 0 j =
        entryName (namedFile (createdFile s i b) k i n.name).disk.fsData 0 l → j = l := by
  intro j hj l hl husedJ husedL hEq
  by_contra hjl
  have hself : entryName (namedFile (createdFile s i b) k i n.name).disk.fsData 0 k = n.name :=
    entryName_fillEntry_self.trans (cutName_of_le n.le)
  have hfresh : ∀ q < 23, EntryUsed s.disk.fsData 0 q → entryName s.disk.fsData 0 q ≠ n.name := by
    intro q hq hqused hqname
    rcases h.inv.entries q hq hqused with ⟨a, ha, _⟩
    exact h.not_namedAs hnew ⟨q, hq, hqused, ha, hqname⟩
  by_cases hjk : j = k
  · subst hjk
    rcases entry_newFile h.inv hi hfreeB hl (Ne.symm hjl) husedL with ⟨hold, hlname, _⟩
    rw [hself, hlname] at hEq
    exact hfresh l hl hold hEq.symm
  · rcases entry_newFile h.inv hi hfreeB hj hjk husedJ with ⟨holdJ, hjname, _⟩
    by_cases hlk : l = k
    · subst hlk
      rw [hself, hjname] at hEq
      exact hfresh j hj holdJ hEq
    · rcases entry_newFile h.inv hi hfreeB hl hlk husedL with ⟨holdL, hlname, _⟩
      rw [hjname, hlname] at hEq
      exact hjl (h.nameUnique j hj l hl holdJ holdL hEq)

/-- Two entries of one i-node: the new i-node was free, so no old entry selects it. -/
theorem Abstracts.inodeUnique_newFile (h : Abstracts s fs) (hi : i < 50) (hfree : s.freeinodeTs i = .free)
    (hfreeB : s.disk.freeBlocks b = .free) :
    ∀ j < 23, ∀ l < 23, EntryUsed (namedFile (createdFile s i b) k i n.name).disk.fsData 0 j →
      EntryUsed (namedFile (createdFile s i b) k i n.name).disk.fsData 0 l →
      dInumber (namedFile (createdFile s i b) k i n.name).disk.fsData 0 j =
        dInumber (namedFile (createdFile s i b) k i n.name).disk.fsData 0 l → j = l := by
  intro j hj l hl husedJ husedL hEq
  by_contra hjl
  have hself : dInumber (namedFile (createdFile s i b) k i n.name).disk.fsData 0 k = (i : ℤ) :=
    dInumber_fillEntry_self (by omega) (by omega)
  have hfresh : ∀ q < 23, EntryUsed s.disk.fsData 0 q → dInumber s.disk.fsData 0 q ≠ (i : ℤ) :=
    fun q hq hqused hqnum => h.ne_of_free hfree ⟨q, hq, hqused, hqnum, rfl⟩ rfl
  by_cases hjk : j = k
  · subst hjk
    rcases entry_newFile h.inv hi hfreeB hl (Ne.symm hjl) husedL with ⟨hold, _, hlnum⟩
    rw [hself, hlnum] at hEq
    exact hfresh l hl hold hEq.symm
  · rcases entry_newFile h.inv hi hfreeB hj hjk husedJ with ⟨holdJ, _, hjnum⟩
    by_cases hlk : l = k
    · subst hlk
      rw [hself, hjnum] at hEq
      exact hfresh j hj holdJ hEq
    · rcases entry_newFile h.inv hi hfreeB hl hlk husedL with ⟨holdL, _, hlnum⟩
      rw [hjnum, hlnum] at hEq
      exact hjl (h.inodeUnique j hj l hl holdJ holdL hEq)

theorem fileBytes_newFile (name : CString) : fileBytes (namedFile (createdFile s i b) k i name) i = [] := by
  have hsize : ((namedFile (createdFile s i b) k i name).inodeTable i).iSize = 0 := by
    simp [namedFile, createdFile, preparedFile]
  simp [fileBytes, hsize]

/-- The files of the specification, the new one and the others. -/
theorem Abstracts.files_newFile (h : Abstracts s fs) (hi : i < 50) (hfree : s.freeinodeTs i = .free)
    (hfreeB : s.disk.freeBlocks b = .free) (hk : k < 23) (hempty : ¬ EntryUsed s.disk.fsData 0 k)
    (hnew : fs.files.lookup n = none) (m : FileName) (c : Contents) :
    (fs.files.insert n Contents.empty).lookup m = some c ↔
      ∃ j, NamedAs (namedFile (createdFile s i b) k i n.name) j m.name ∧
        fileBytes (namedFile (createdFile s i b) k i n.name) j = c.val := by
  have hsame : SameFiles s (namedFile (createdFile s i b) k i n.name) := sameFiles_namedFile hfree hfreeB hk
  have hbytes : ∀ j name, NamedAs s j name →
      fileBytes (namedFile (createdFile s i b) k i n.name) j = fileBytes s j := fun j name hj =>
    hsame.fileBytes_eq h.inv (h.inv.live_of_named hj) (h.compact j name hj)
  by_cases hmn : m = n
  · subst hmn
    rw [Finmap.lookup_insert]
    constructor
    · intro hc
      cases hc
      exact ⟨i, (namedAs_newFile h.inv hi hfreeB hk hempty).2 (Or.inl ⟨rfl, rfl⟩), fileBytes_newFile _⟩
    · rintro ⟨j, hj, hc⟩
      rcases (namedAs_newFile h.inv hi hfreeB hk hempty).1 hj with ⟨rfl, _⟩ | hj
      · rw [fileBytes_newFile] at hc
        congr 1
        exact Subtype.ext hc
      · exact absurd hj (h.not_namedAs hnew)
  · rw [Finmap.lookup_insert_of_ne _ hmn, h.files m c]
    apply exists_congr
    intro j
    rw [namedAs_newFile h.inv hi hfreeB hk hempty]
    constructor
    · rintro ⟨hj, hc⟩
      exact ⟨Or.inr hj, (hbytes j _ hj).trans hc⟩
    · rintro ⟨⟨_, hEq⟩ | hj, hc⟩
      · exact absurd (FileName.eq_of_name hEq) hmn
      · exact ⟨hj, (hbytes j _ hj).symm.trans hc⟩

theorem Abstracts.create (h : Abstracts s fs) (hi : i < 50) (hfree : s.freeinodeTs i = .free)
    (hb : b < 1024) (hfreeB : s.disk.freeBlocks b = .free) (hk : k < 23)
    (hempty : ¬ EntryUsed s.disk.fsData 0 k) (hnew : fs.files.lookup n = none)
    (hroom : (insert n fs.files.keys).card ≤ maxDirEntries)
    (hused : usedBlocks (fs.files.insert n Contents.empty) ≤ dataBlocks) :
    Abstracts (namedFile (createdFile s i b) k i n.name) (fs.put n Contents.empty hroom hused) := by
  have hsame : SameFiles s (namedFile (createdFile s i b) k i n.name) := sameFiles_namedFile hfree hfreeB hk
  have hnamed : ∀ j name, NamedAs (namedFile (createdFile s i b) k i n.name) j name ↔
      (j = i ∧ name = n.name) ∨ NamedAs s j name :=
    fun j name => namedAs_newFile h.inv hi hfreeB hk hempty
  constructor
  · exact (h.inv.createdFile hi hfree hb hfreeB).namedFile (liveFile_createdFile h.inv hi hfree hb) hk
  · refine Undisturbed.shape ?_ h.shape
    exact .of_newNode (h.inv.inode_pos_of_free hfree) rfl rfl rfl rfl
      (Function.update_of_ne (h.inv.inode_pos_of_free hfree).ne _ _)
  · intro j hj halloc
    by_cases hji : j = i
    · subst hji
      exact ⟨n.name, (hnamed j _).2 (Or.inl ⟨rfl, rfl⟩)⟩
    · have hallocS : Allocated s j := by
        simpa [Allocated, namedFile, createdFile, preparedFile, hji] using halloc
      rcases h.named j hj hallocS with ⟨name, hold⟩
      exact ⟨name, (hnamed j _).2 (Or.inr hold)⟩
  · exact h.nameUnique_newFile hi hfreeB hnew
  · exact h.inodeUnique_newFile hi hfree hfreeB
  · intro j name hj
    rcases (hnamed j name).1 hj with ⟨_, rfl⟩ | hj
    · exact ⟨n.pos, n.le⟩
    · exact h.nameLength j name hj
  · intro j name hj
    rcases (hnamed j name).1 hj with ⟨rfl, _⟩ | hj
    · -- the new file has no block but the one of its index
      have hsize : ((namedFile (createdFile s j b) k j n.name).inodeTable j).iSize = 0 := by
        simp [namedFile, createdFile, preparedFile]
      refine ⟨by rw [hsize]; omega, ?_⟩
      intro l hl
      rw [slotValue_newFile h.inv n.name hi hfree hb hfreeB hk hl, hsize]
      simp
    · exact hsame.compact h.inv (h.inv.live_of_named hj) (h.compact j name hj)
  · exact h.files_newFile hi hfree hfreeB hk hempty hnew
  · -- no handle stands on the new i-node yet
    exact h.handles_of_sameFiles hsame (fun j name hj => (hnamed j name).2 (Or.inr hj)) rfl rfl
  · -- the index block is the one block more
    have hcount : freeBlockCount (namedFile (createdFile s i b) k i n.name).disk + 1 =
        freeBlockCount s.disk := freeBlockCount_update hb hfreeB rfl
    have hspace := h.space
    have hused' : usedBlocks (fs.files.insert n Contents.empty) = usedBlocks fs.files + 1 := by
      rw [usedBlocks, usedBlocks, total_insert, total_of_lookup_none hnew]
      rfl
    change _ + usedBlocks (fs.files.insert n Contents.empty) = 1024
    omega

/-- The state after a creation that failed for want of a directory entry. -/
theorem Abstracts.uncreate (h : Abstracts s fs) (hfree : s.freeinodeTs i = .free)
    (hfreeB : s.disk.freeBlocks b = .free) : Abstracts (preparedFile s i b) fs := by
  have hsame := sameFiles_preparedFile (i := i) hfree hfreeB
  have hdir : SameBlock s.disk.fsData (preparedFile s i b).disk.fsData 0 :=
    sameBlock_createdFile (i := i) h.inv hfreeB
  have hnamed : ∀ j name, NamedAs (preparedFile s i b) j name ↔ NamedAs s j name :=
    fun j name => NamedAs.congr hdir
  constructor
  · exact h.inv.preparedFile hfree hfreeB
  · refine Undisturbed.shape ?_ h.shape
    exact .of_newNode (h.inv.inode_pos_of_free hfree) rfl rfl rfl rfl rfl
  · intro j hj halloc
    rcases h.named j hj halloc with ⟨name, hold⟩
    exact ⟨name, (hnamed j name).2 hold⟩
  · intro j hj l hl husedJ husedL hEq
    rw [hdir.entryName_eq hj, hdir.entryName_eq hl] at hEq
    exact h.nameUnique j hj l hl ((hdir.entryUsed_iff hj).1 husedJ) ((hdir.entryUsed_iff hl).1 husedL) hEq
  · intro j hj l hl husedJ husedL hEq
    rw [hdir.dInumber_eq hj, hdir.dInumber_eq hl] at hEq
    exact h.inodeUnique j hj l hl ((hdir.entryUsed_iff hj).1 husedJ) ((hdir.entryUsed_iff hl).1 husedL) hEq
  · intro j name hj
    exact h.nameLength j name ((hnamed j name).1 hj)
  · intro j name hj
    have hold := (hnamed j name).1 hj
    exact hsame.compact h.inv (h.inv.live_of_named hold) (h.compact j name hold)
  · intro m c
    rw [h.files m c]
    apply exists_congr
    intro j
    rw [hnamed]
    apply and_congr_right
    intro hj
    rw [hsame.fileBytes_eq h.inv (h.inv.live_of_named hj) (h.compact j _ hj)]
  · exact h.handles_of_sameFiles hsame (fun j name hj => (hnamed j name).2 hj) rfl rfl
  · exact h.space

end Create

/-! ## Creating -/

section Creating

variable {s t : State} {fs : FileSystem} {n : FileName} {flags : ℤ}

theorem usedBlocks_insert_new (hnew : fs.files.lookup n = none) :
    usedBlocks (fs.files.insert n Contents.empty) = usedBlocks fs.files + 1 := by
  rw [usedBlocks, usedBlocks, total_insert, total_of_lookup_none hnew]
  rfl

/-- Creating a file, or failing to for want of a directory entry. -/
theorem Abstracts.openCreate (h : Abstracts s fs) {path : Path} (hvalid : validPathname path = true)
    (hpath : afterSlash path = some n.name) (hnew : fs.files.lookup n = none)
    (hflag : hasFlag flags tfsOCreat = true) (hfits : usedBlocks fs.files < dataBlocks) :
    ∃ t, openCreate path s = some ((fs.openFile n flags).1, t) ∧
      Abstracts t (fs.openFile n flags).2 := by
  rcases h.shape.openCreate hvalid with ⟨r, t, _, hopen, _⟩
  have hspace := h.space
  have hblocks : dataBlocks = 1024 := rfl
  have hused : usedBlocks (fs.files.insert n Contents.empty) ≤ dataBlocks := by
    rw [usedBlocks_insert_new hnew]
    exact hfits
  have hspec : fs.openFile n flags =
      if hroom : (insert n fs.files.keys).card ≤ maxDirEntries ∧
          usedBlocks (fs.files.insert n Contents.empty) ≤ dataBlocks then
        (fs.put n Contents.empty hroom.1 hroom.2).addHandle ⟨n, 0, false⟩
      else
        (-1, fs) := by
    unfold FileSystem.openFile
    split
    · next c hc =>
        rw [hnew] at hc
        cases hc
    · rw [if_pos hflag]
  have hnotmem : n ∉ fs.files.keys := by
    rw [Finmap.mem_keys, ← Finmap.lookup_eq_none]
    exact hnew
  have hcard : (insert n fs.files.keys).card = fs.files.keys.card + 1 :=
    Finset.card_insert_of_notMem hnotmem
  rcases openCreate_cases h.inv hopen with ⟨hfull, _⟩ | ⟨i, hi, hfree, hcase⟩
  · -- there are more i-nodes than directory entries: the table is never full
    rcases h.exists_free_inode with ⟨i, hi, hfree⟩
    rw [hfull i hi] at hfree
    cases hfree
  rcases hcase with ⟨hfull, _⟩ | ⟨b, hb, hfreeB, name, hname, hcase⟩
  · -- the specification has a block left, so the disk has one
    rcases exists_free_of_count (d := s.disk) (by omega) with ⟨b, hb, hfreeB⟩
    rw [hfull b hb] at hfreeB
    cases hfreeB
  have hnameEq : name = n.name := Option.some.inj (hname.symm.trans hpath)
  subst hnameEq
  rcases hcase with ⟨hfail, rfl, rfl⟩ | ⟨k, hk, hunused, _, hEq⟩
  · -- no empty directory entry: i-node and block are freed, and the specification has no room either
    have hfullDir : ∀ k < 23, EntryUsed s.disk.fsData 0 k := by
      rcases hfail with hlen | hused
      · have hlenPos := n.pos
        omega
      · exact hused
    have hnlt : ¬ fs.files.keys.card < 23 := by
      rw [h.card_lt_iff]
      rintro ⟨k, hk, hunused⟩
      exact hunused (hfullDir k hk)
    have hnoroom : ¬ (insert n fs.files.keys).card ≤ 23 := by omega
    rw [hspec, dif_neg (fun hroom => hnoroom hroom.1)]
    exact ⟨_, hopen, h.uncreate hfree hfreeB⟩
  · -- the name goes into the first empty entry, and a handle is added
    have hlt := h.card_lt_iff.2 ⟨k, hk, hunused⟩
    have hroom : (insert n fs.files.keys).card ≤ 23 := by omega
    have hcreated := h.create hi hfree hb hfreeB hk hunused hnew hroom hused
    have hnamed : NamedAs (namedFile (createdFile s i b) k i n.name) i n.name := by
      have hdir := sameBlock_createdFile (i := i) h.inv hfreeB
      exact (namedAs_namedFile hi hk fun hc => hunused ((hdir.entryUsed_iff hk).1 hc)).2
        (Or.inl ⟨rfl, rfl⟩)
    have hadd := hcreated.addHandle (x := ⟨n, 0, false⟩) hnamed (Nat.zero_le _) 0 rfl
    rw [← hEq] at hadd
    rw [hspec, dif_pos ⟨hroom, hused⟩, ← hadd.1]
    exact ⟨t, hopen, hadd.2⟩

end Creating

/-! ## Writing -/

section Write

variable {s t : State} {fs fs' : FileSystem} {h h' i a o m n N J : ℕ} {buffer : ℕ → Byte}
variable {c : Contents} {r : ℤ}

/-- The blocks of a file of `size` bytes after `m` more were written within one block. -/
theorem blocks_of_write (size m : ℕ) (ho : o ≤ size) (hm : 0 < m) (hfit : o % 1024 + m ≤ 1024) :
    (max size (o + m) + 1023) / 1024 =
      (size + 1023) / 1024 + if o / 1024 * 1024 < size then 0 else 1 := by
  split <;> omega

/-- The bytes of the file that was written to. -/
theorem PlacesEveryByte.fileBytes_self (hp : PlacesEveryByte s h i buffer o m r t) (hs : Inv s)
    (hlive : LiveFile s i) (hc : Compact s i) (ho : o ≤ (s.inodeTable i).iSize) :
    fileBytes t i = overwrite (fileBytes s i) o ((List.range m).map buffer) := by
  have hsize := hc.size_le
  have hbyte : ∀ p < (t.inodeTable i).iSize, byteAt t i p =
      if o ≤ p ∧ p < o + m then buffer (p - o) else byteAt s i p := by
    intro p hp'
    rw [hp.size] at hp'
    by_cases hin : o ≤ p ∧ p < o + m
    · have hplaced := (hp.placed (p - o) (by omega)).2
      rw [if_pos hin, ← hplaced, Nat.add_sub_cancel' hin.1]
    · have hlt : p < (s.inodeTable i).iSize := by omega
      have hl : p / 1024 < 266 := by omega
      rw [if_neg hin]
      -- a byte outside the range is in another block or at another place of the block
      have hold := hp.others (fileSlot i (p / 1024)) (hs.isSlot_fileSlot hlive hl)
        (fileSlot_ne_index i _) ((hc.blocks _ hl).2 (by omega))
      refine hold.2 (p % 1024) (Nat.mod_lt _ (by omega)) ?_
      rintro k hk ⟨hslot, hpos⟩
      rw [fileSlot_inj] at hslot
      simp only [blockSize] at hslot hpos
      omega
  -- byte by byte: before the range, in it, behind it
  apply List.ext_getElem
  · simp only [length_fileBytes, hp.size, overwrite, List.length_append, List.length_take,
      List.length_map, List.length_range, List.length_drop]
    omega
  · intro p hp₁ _
    rw [length_fileBytes] at hp₁
    have hlen : (List.take o (fileBytes s i)).length = o := by
      rw [List.length_take, length_fileBytes]
      omega
    have hval := hbyte p hp₁
    have hleft : (fileBytes t i)[p] = byteAt t i p := by simp [fileBytes]
    rw [hleft, hval]
    simp only [overwrite, List.append_assoc]
    by_cases hbefore : p < o
    · rw [if_neg (by omega), List.getElem_append_left (by omega), List.getElem_take]
      simp [fileBytes]
    · rw [List.getElem_append_right (by omega)]
      have hnew : ((List.range m).map buffer).length = m := by simp
      by_cases hin : p < o + m
      · rw [if_pos ⟨by omega, hin⟩, List.getElem_append_left (by rw [hlen, hnew]; omega)]
        simp [hlen]
      · rw [if_neg (by omega), List.getElem_append_right (by rw [hlen, hnew]; omega), List.getElem_drop]
        have hindex : o + ((List.range m).map buffer).length +
            (p - (List.take o (fileBytes s i)).length - ((List.range m).map buffer).length) = p := by
          rw [hlen, hnew]
          omega
        simp only [hindex]
        simp [fileBytes]

/-- The file that was written to has the blocks that its bytes need. -/
theorem PlacesEveryByte.compact_self (hp : PlacesEveryByte s h i buffer o m r t) (hs : Inv s)
    (hlive : LiveFile s i) (hc : Compact s i) (ho : o ≤ (s.inodeTable i).iSize)
    (hmax : o + m ≤ 272384) : Compact t i := by
  have hsize := hc.size_le
  constructor
  · rw [hp.size]
    omega
  · intro k hk
    have hslot := hs.isSlot_fileSlot hlive hk
    rw [hp.size]
    constructor
    · intro hvalue
      by_cases hold : k * 1024 < (s.inodeTable i).iSize
      · omega
      · -- a block that was not there is one of the bytes written
        have hempty : slotValue s (fileSlot i k) = -1 := by
          by_contra hne
          exact hold ((hc.blocks k hk).1 hne)
        by_contra hmax
        apply hvalue
        refine hp.empty _ hslot hempty ?_
        intro l hl hEq
        rw [fileSlot_inj] at hEq
        simp only [blockSize] at hEq
        omega
    · intro hlt
      by_cases hold : k * 1024 < (s.inodeTable i).iSize
      · have hne := (hc.blocks k hk).2 hold
        rw [(hp.others _ hslot (fileSlot_ne_index i _) hne).1]
        exact hne
      · have hplaced := (hp.placed (k * 1024 - o) (by omega)).1
        have hk' : (o + (k * 1024 - o)) / blockSize = k := by
          simp only [blockSize]
          omega
        rwa [hk'] at hplaced

/-- The other files keep their bytes and their blocks. -/
theorem PlacesEveryByte.others_same (hp : PlacesEveryByte s h i buffer o m r t) (hs : Inv s)
    {j : ℕ} (hji : j ≠ i) (hlive : LiveFile s j) (hc : Compact s j)
    (hsize : (t.inodeTable j).iSize = (s.inodeTable j).iSize) :
    fileBytes t j = fileBytes s j ∧ Compact t j := by
  have hle := hc.size_le
  have hne : ∀ l k, fileSlot j l ≠ fileSlot i k := fun l k => fileSlot_ne_of_ne hji
  constructor
  · unfold fileBytes
    rw [hsize]
    apply List.map_congr_left
    intro p hp'
    have hlt := List.mem_range.1 hp'
    have hl : p / 1024 < 266 := by omega
    have hold := hp.others (fileSlot j (p / 1024)) (hs.isSlot_fileSlot hlive hl)
      (fileSlot_ne_index j _) ((hc.blocks _ hl).2 (by omega))
    exact hold.2 (p % 1024) (Nat.mod_lt _ (by omega)) fun k _ hk => hne _ _ hk.1
  · constructor
    · rw [hsize]
      exact hle
    · intro l hl
      have hslot := hs.isSlot_fileSlot hlive hl
      rw [hsize, ← hc.blocks l hl]
      by_cases hvalue : slotValue s (fileSlot j l) = -1
      · rw [hp.empty _ hslot hvalue fun k _ => hne _ _, hvalue]
      · rw [(hp.others _ hslot (fileSlot_ne_index j _) hvalue).1]

/-- So does the directory. -/
theorem PlacesEveryByte.sameBlock_root (hp : PlacesEveryByte s h i buffer o m r t) (hs : Inv s)
    (hi : 0 < i) : SameBlock s.disk.fsData t.disk.fsData 0 := by
  have hroot : slotValue s (.direct 0 0) = 0 := hs.rootBlock
  have hold := hp.others (.direct 0 0) hs.refers_root.1 (by simp) (by rw [hroot]; omega)
  intro p hp'
  have hbyte := hold.2 p hp' fun k _ hk => fileSlot_ne_root hi _ hk.1.symm
  simpa [slotByte, hold.1, hroot] using hbyte

/-- At most one turn: how much it wrote, and what that took from the free blocks. -/
theorem AfterTurns.space (ha : AfterTurns s h i a o N buffer J t) (hJ : J ≤ 1)
    (hall : ∀ l < J, (progress o N l).writen < N) (hm : (progress o N J).writen = m)
    (hc : Compact s i) (ho : o ≤ (s.inodeTable i).iSize) (hfar : o < 272384) :
    freeBlockCount t.disk + (max (s.inodeTable i).iSize (o + m) + 1023) / 1024 =
      freeBlockCount s.disk + ((s.inodeTable i).iSize + 1023) / 1024 := by
  have hblocks := ha.blocks
  rcases Nat.le_one_iff_eq_zero_or_eq_one.1 hJ with rfl | rfl
  · simp only [progress_zero, missingBlocks] at hm hblocks
    have hmax : max (s.inodeTable i).iSize (o + m) = (s.inodeTable i).iSize := by omega
    rw [hmax]
    omega
  · rw [progress_one] at hm
    have hpos := hall 0 (by omega)
    simp only [progress_zero] at hpos
    have hsum := blocks_of_write (s.inodeTable i).iSize m ho (by omega) (by omega)
    have hslot := hc.blocks (o / 1024) (by omega)
    simp only [missingBlocks, Nat.add_zero, Nat.zero_add] at hblocks
    rw [hsum]
    by_cases hvalue : slotValue s (fileSlot i (o / 1024)) = -1
    · rw [if_pos hvalue] at hblocks
      rw [if_neg (fun hlt => hslot.2 hlt hvalue)]
      omega
    · rw [if_neg hvalue] at hblocks
      rw [if_pos (hslot.1 hvalue)]
      omega

/-- The blocks that the file has more are the blocks that were free. -/
theorem Abstracts.space_of_turns (h : Abstracts s fs) (c' : Contents) {x : FileName} (hlookup : fs.files.lookup x = some c)
    (ha : AfterTurns s h' i a o N buffer J t) (hJ : J ≤ 1) (hall : ∀ l < J, (progress o N l).writen < N)
    (hm : (progress o N J).writen = m) (hcompact : Compact s i)
    (hsize : (s.inodeTable i).iSize = c.val.length) (ho : o ≤ (s.inodeTable i).iSize)
    (hfar : o < 272384) (hsize' : c'.val.length = max (s.inodeTable i).iSize (o + m)) :
    freeBlockCount t.disk + usedBlocks (fs.files.insert x c') = 1024 := by
  have hspace := ha.space hJ hall hm hcompact ho hfar
  have hold := h.space
  have hcost : ∀ d : Contents, fileBlocks d = 1 + (d.val.length + 1023) / 1024 := fun _ => rfl
  rw [usedBlocks, total_of_lookup hlookup, hcost, ← hsize] at hold
  rw [usedBlocks, total_insert, hcost, hsize']
  omega

/-- The state after at most one turn abstracts the file system with the bytes written. -/
theorem Abstracts.of_turns (h : Abstracts s fs) (c' : Contents) {g : Fin maxOpenFiles} {x : Handle}
    (htaken : s.freeOpenFileEntries g = .taken) (hentry : EntryIs s g x i)
    (hlookup : fs.files.lookup x.name = some c) (ha : AfterTurns s g i a o N buffer J t) (hJ : J ≤ 1)
    (hall : ∀ l < J, (progress o N l).writen < N) (hm : (progress o N J).writen = m)
    (ho : o ≤ (s.inodeTable i).iSize) (hmax : o + m ≤ 272384) (hfar : o < 272384)
    (hinv : Inv (growFile g i t)) (hshape : Shape (growFile g i t))
    (hc' : c'.val = overwrite c.val o ((List.range m).map buffer))
    (hfiles : fs'.files = fs.files.insert x.name c')
    (hhandles : fs'.handles = Function.update fs.handles g (some { x with offset := o + m })) :
    Abstracts (growFile g i t) fs' := by
  rcases hentry with ⟨hrow, hi, hoff⟩
  have hlive := h.inv.live_of_named hi
  have hcompact := h.compact i _ hi
  have hp := ha.placesEveryByte hJ hall hm
  have hdir := hp.sameBlock_root h.inv hlive.1
  have hbytes := h.fileBytes_eq hi hlookup
  have hsizes : ∀ j, j ≠ i → ((growFile g i t).inodeTable j).iSize = (s.inodeTable j).iSize := by
    intro j hj
    rw [growFile_iSize_of_ne hj, ha.sizes]
  have hself : fileBytes (growFile g i t) i = c'.val := by
    rw [hp.fileBytes_self h.inv hlive hcompact ho, hbytes, hc']
  have hoffset : (t.openFileTable g).ofOffset = o + m := by
    have hmoved := hp.offset
    rwa [growFile_openFileTable] at hmoved
  have hopen : (growFile g i t).openFileTable = Function.update s.openFileTable g
      ⟨i, o + m, if x.append then 1 else 0⟩ := by
    have hprogress : (progress o N J).ofOffset = o + m := by
      rw [← hoffset, ha.openFileTable, Function.update_self]
    rw [growFile_openFileTable, ha.openFileTable, hrow, hprogress]
  have hfreeOpen : (growFile g i t).freeOpenFileEntries = s.freeOpenFileEntries := by
    rw [growFile_freeOpenFileEntries, ha.freeOpenFileEntries]
  have hgrow : ∀ j name, NamedAs s j name →
      (s.inodeTable j).iSize ≤ ((growFile g i t).inodeTable j).iSize := by
    intro j name _
    by_cases hj : j = i
    · rw [hj, hp.size]
      exact le_max_left _ _
    · exact (hsizes j hj).ge
  -- nothing but the file, its handle and the free blocks has changed
  refine h.of_file hinv hshape hi hdir ?_ ?_ (hp.compact_self h.inv hlive hcompact ho hmax) hself hfiles
    ?_ ?_
  · rw [sameNodes_growFile.freeinodeTs, ha.nodes.freeinodeTs]
  · intro j name hj hjn
    exact hp.others_same h.inv hj (h.inv.live_of_named hjn) (h.compact j name hjn) (hsizes j hj)
  · intro j
    rw [hhandles]
    by_cases hj : j = g
    · subst hj
      rw [Function.update_self]
      refine ⟨by rw [hfreeOpen, htaken], i, by rw [hopen, Function.update_self],
        (NamedAs.congr hdir).2 hi, ?_⟩
      rw [hp.size]
      exact le_max_right _ _
    · have hjg : (j : ℕ) ≠ g := fun hEq => hj (Fin.ext hEq)
      rw [Function.update_of_ne hj]
      refine (h.handles j).congr hdir (by rw [hfreeOpen]) ?_ hgrow
      rw [hopen, Function.update_of_ne hjg]
  · have hsize : (s.inodeTable i).iSize = c.val.length := by rw [← hbytes, length_fileBytes]
    rw [hfiles, growFile_disk]
    apply h.space_of_turns c' hlookup ha hJ hall hm hcompact hsize ho hfar
    rw [← hself, length_fileBytes, hp.size]

theorem writeHandle_eq {fhandle : ℤ} {g : Fin maxOpenFiles} {x : Handle}
    (hof : entryOf fs.handles fhandle = some (g, x)) (hlookup : fs.files.lookup x.name = some c) :
    fs.writeHandle fhandle buffer n =
      if hused : usedBlocks (fs.files.insert x.name (FileSystem.written c (x.start c) buffer n)) ≤
          dataBlocks then
        (((min n (maxFileSize - x.start c) : ℕ) : ℤ),
          (fs.put x.name (FileSystem.written c (x.start c) buffer n)
            (FileSystem.room_of_lookup hlookup) hused).setHandle g
              (some { x with offset := x.start c + min n (maxFileSize - x.start c) }))
      else
        (0, fs.setHandle g (some { x with offset := x.start c })) := by
  unfold FileSystem.writeHandle
  rw [hof]
  simp only
  split
  · next hnone =>
      rw [hlookup] at hnone
      cases hnone
  · next d hd =>
      have hdc : d = c := Option.some.inj (hd.symm.trans hlookup)
      subst hdc
      rfl

theorem growFile_of_le (hle : (s.openFileTable h).ofOffset ≤ (s.inodeTable i).iSize) :
    growFile h i s = s :=
  if_neg (by omega)

/-- A handle writes where it stands, or at the end of its file. -/
theorem EntryIs.startPosition_eq {x : Handle} (hentry : EntryIs s h x i)
    (hsize : (s.inodeTable i).iSize = c.val.length) : startPosition s h = x.start c := by
  rcases hentry with ⟨hrow, _, _⟩
  rw [Tfs.startPosition_eq, fileSize, hrow, Handle.start]
  by_cases happend : x.append = true
  · rw [if_pos happend]
    simp [happend, hsize]
  · rw [if_neg happend]
    simp [happend]

/-- A write within one block runs out of blocks only at its first turn. -/
theorem OutOfBlocks.first (hout : OutOfBlocks s i o n J) (hJ : J ≤ 1)
    (hfit : o % 1024 + writeLength o n ≤ 1024) : J = 0 ∧ 0 < writeLength o n := by
  have hmore := hout.more
  have hblock := hout.block
  have hlength : writeLength o n = min n (272384 - o) := rfl
  rcases Nat.le_one_iff_eq_zero_or_eq_one.1 hJ with rfl | rfl
  · simp only [progress_zero] at hmore
    exact ⟨rfl, by omega⟩
  · rw [progress_one] at hmore
    omega

theorem length_written (buffer : ℕ → Byte) (n : ℕ) {size : ℕ} (hsize : size = c.val.length) (ho : o ≤ size) :
    (FileSystem.written c o buffer n).val.length = max size (o + writeLength o n) := by
  have hcount : min n (maxFileSize - o) = writeLength o n := rfl
  simp only [FileSystem.written, hcount, overwrite, List.length_append, List.length_take,
    List.length_map, List.length_range, List.length_drop]
  omega

/-- Where the disk has no block left, the specification has none either. -/
theorem Abstracts.full_of_outOfBlocks (h : Abstracts s fs) {x : Handle} (hi : NamedAs s i x.name.name)
    (hlookup : fs.files.lookup x.name = some c) (ho : o ≤ (s.inodeTable i).iSize)
    (hout : OutOfBlocks s i o n 0) (hpos : 0 < writeLength o n)
    (hfit : o % 1024 + writeLength o n ≤ 1024) :
    ¬ usedBlocks (fs.files.insert x.name (FileSystem.written c o buffer n)) ≤ 1024 := by
  have hold := h.space
  have hcompact := h.compact i _ hi
  have hbytes := h.fileBytes_eq hi hlookup
  have hsize : (s.inodeTable i).iSize = c.val.length := by rw [← hbytes, length_fileBytes]
  have hlength := length_written buffer n hsize ho
  have hslot := hcompact.blocks (o / 1024) hout.block
  have hgrown := blocks_of_write (s.inodeTable i).iSize _ ho hpos hfit
  rw [if_neg (fun hlt => hslot.2 hlt hout.missing)] at hgrown
  have hnone : freeBlockCount s.disk = 0 := hout.used
  have hcost : ∀ d : Contents, fileBlocks d = 1 + (d.val.length + 1023) / 1024 := fun _ => rfl
  rw [usedBlocks, total_of_lookup hlookup, hcost, ← hsize] at hold
  rw [usedBlocks, total_insert, hcost, hlength]
  omega

/-- Writing through an open handle, within one block. -/
theorem Abstracts.write (h : Abstracts s fs) (buffer : ℕ → Byte) {fhandle : ℤ} {g : Fin maxOpenFiles} {x : Handle}
    (hof : entryOf fs.handles fhandle = some (g, x)) (hlookup : fs.files.lookup x.name = some c)
    (hn : n < 2 ^ 31) (hblock : OneBlock (x.start c) (min n (maxFileSize - x.start c))) :
    ∃ t, tfsWrite fhandle buffer n s = some ((fs.writeHandle fhandle buffer n).1, t) ∧
      Abstracts t (fs.writeHandle fhandle buffer n).2 := by
  rcases h.entryOf_cases fhandle with ⟨g', x', i, hnum, hof', hx, htaken, hentry⟩ | ⟨hnone, _⟩
  case inr =>
    rw [hof] at hnone
    cases hnone
  cases (Option.some.inj (hof'.symm.trans hof) : (g', x') = (g, x))
  have hi := hentry.2.1
  have hlive := h.inv.live_of_named hi
  have hbytes := h.fileBytes_eq hi hlookup
  have hsize : (s.inodeTable i).iSize = c.val.length := by rw [← hbytes, length_fileBytes]
  have hmaxSize : c.val.length ≤ 272384 := c.property
  have hstart := hentry.startPosition_eq hsize
  have ho : x.start c ≤ (s.inodeTable i).iSize := by
    rw [Handle.start, hsize]
    split
    · exact le_rfl
    · rw [← hsize]
      exact hentry.2.2
  have hinumber : (s.openFileTable g).ofInumber = i := by rw [hentry.1]
  have hcast : 0 ≤ castInt n := by
    rw [castInt_of_range (by omega) (by omega)]
    omega
  rcases hlive.refers_index with ⟨a, _, ha, hindex, _⟩
  rcases h.shape.tfsWrite (g : ℕ) buffer n with ⟨r', t', hw, hshape, _⟩
  have hinv := h.inv.tfsWrite ⟨g, g.isLt, rfl, htaken⟩ hw
  have hfit : x.start c % 1024 + writeLength (x.start c) n ≤ 1024 := hblock
  have hcount : min n (maxFileSize - x.start c) = writeLength (x.start c) n := rfl
  have hlength : writeLength (x.start c) n = min n (272384 - x.start c) := rfl
  rw [hnum, writeHandle_eq (hnum ▸ hof) hlookup]
  by_cases hfar : x.start c < 272384
  · rcases tfsWrite_turns h.inv h.shape g.isLt htaken hinumber hlive ha hindex buffer hcast hstart hfar
      with ⟨J, t, hturns, hall, hbound, hcase⟩
    have hJ := turns_le_one hfit hall hbound
    rcases hcase with ⟨hout, hEq⟩ | ⟨hdone, hEq⟩
    · -- no block is left: nothing is written
      rcases hout.first hJ hfit with ⟨rfl, hpos⟩
      have hsame : growFile g i t = t := by
        apply growFile_of_le
        rw [hturns.ofOffset, hturns.sizes]
        exact ho
      cases (Option.some.inj (hw.symm.trans hEq) : (r', t') = _)
      have hfull : ¬ usedBlocks (fs.files.insert x.name
          (FileSystem.written c (x.start c) buffer n)) ≤ 1024 :=
        h.full_of_outOfBlocks hi hlookup ho hout hpos hfit
      rw [dif_neg hfull]
      refine ⟨_, hEq, ?_⟩
      rw [← hsame] at hinv hshape ⊢
      refine h.of_turns c htaken hentry hlookup hturns hJ hall (m := 0) (by simp) ho (by omega) hfar
        hinv hshape ?_ (insert_of_lookup hlookup).symm rfl
      simp [overwrite]
    · -- all bytes that fit in the file are written
      have hm := writen_of_turns_le_one hfit hfar hJ hdone
      cases (Option.some.inj (hw.symm.trans hEq) : (r', t') = _)
      have hused : usedBlocks (fs.files.insert x.name
          (FileSystem.written c (x.start c) buffer n)) ≤ 1024 := by
        have hspace := h.space_of_turns (FileSystem.written c (x.start c) buffer n) hlookup hturns hJ
          hall hm (h.compact i _ hi) hsize ho hfar (length_written buffer n hsize ho)
        omega
      rw [dif_pos hused]
      refine ⟨_, by rw [hEq, hm, hcount], ?_⟩
      exact h.of_turns _ htaken hentry hlookup hturns hJ hall hm ho (by omega) hfar hinv hshape rfl rfl rfl
  · -- the file is as long as a file can be, and nothing is written
    have hfull : x.start c = 272384 := by omega
    have hzero : min n (maxFileSize - x.start c) = 0 := by
      rw [hcount, hlength]
      omega
    have hEq := tfsWrite_far h.shape g.isLt hinumber ha hindex buffer hcast hstart (by omega)
    cases (Option.some.inj (hw.symm.trans hEq) : (r', t') = _)
    have hsame : growFile g i (s.setEntry g { s.openFileTable g with ofOffset := x.start c }) =
        s.setEntry g { s.openFileTable g with ofOffset := x.start c } := by
      apply growFile_of_le
      simpa using ho
    have hwritten : FileSystem.written c (x.start c) buffer n = c := by
      apply Subtype.ext
      simp only [FileSystem.written, hzero, overwrite, List.range_zero, List.map_nil, List.append_nil,
        List.length_nil, Nat.add_zero, List.take_append_drop]
    have hfiles : fs.files.insert x.name (FileSystem.written c (x.start c) buffer n) = fs.files := by
      rw [hwritten]
      exact insert_of_lookup hlookup
    have hused : usedBlocks (fs.files.insert x.name
        (FileSystem.written c (x.start c) buffer n)) ≤ dataBlocks := by
      rw [hfiles]
      exact fs.used_le
    have hput : Abstracts s (fs.put x.name (FileSystem.written c (x.start c) buffer n)
        (FileSystem.room_of_lookup hlookup) hused) :=
      h.of_handles h.inv h.shape rfl rfl rfl hfiles h.handles
    rw [dif_pos hused, hzero]
    refine ⟨_, hEq, ?_⟩
    rw [hsame] at hinv hshape ⊢
    refine hput.setHandle hinv hshape rfl rfl rfl (fun _ _ => rfl) ?_ ?_
    · intro j hj
      simp [hj]
    · refine ⟨htaken, i, ?_, hi, ho⟩
      simp [hentry.1]

end Write

/-! ## Reading -/

section Read

variable {s t : State} {fs : FileSystem} {i n : ℕ} {c : Contents}

theorem drop_take_map_range (f : ℕ → Byte) (size offset n : ℕ) :
    (((List.range size).map f).drop offset).take n =
      (List.range (min n (size - offset))).map fun k => f (offset + k) := by
  apply List.ext_getElem
  · simp
  · intro k hk _
    simp

theorem readHandle_eq {fhandle : ℤ} {g : Fin maxOpenFiles} {x : Handle}
    (hof : entryOf fs.handles fhandle = some (g, x)) (hlookup : fs.files.lookup x.name = some c) :
    fs.readHandle fhandle n = ((((c.val.drop x.offset).take n).length : ℤ), (c.val.drop x.offset).take n,
      fs.setHandle g (some { x with offset := x.offset + ((c.val.drop x.offset).take n).length })) := by
  unfold FileSystem.readHandle
  rw [hof]
  simp only [hlookup]

/-- Reading through an open handle, within one block. -/
theorem Abstracts.read (h : Abstracts s fs) {fhandle : ℤ} {g : Fin maxOpenFiles} {x : Handle}
    (hof : entryOf fs.handles fhandle = some (g, x)) (hlookup : fs.files.lookup x.name = some c)
    (hblock : OneBlock x.offset (min n (c.val.length - x.offset))) :
    ∃ t, tfsRead fhandle n s =
        some ((fs.readHandle fhandle n).1, (fs.readHandle fhandle n).2.1, t) ∧
      Abstracts t (fs.readHandle fhandle n).2.2 := by
  rcases h.entryOf_cases fhandle with ⟨g', x', i, hnum, hof', hx, htaken, hentry⟩ | ⟨hnone, _⟩
  case inr =>
    rw [hof] at hnone
    cases hnone
  cases (Option.some.inj (hof'.symm.trans hof) : (g', x') = (g, x))
  rcases hentry with ⟨hrow, hi, hoff⟩
  have hlive := h.inv.live_of_named hi
  have hcompact := h.compact i _ hi
  have hle := hcompact.size_le
  have hbytes := h.fileBytes_eq hi hlookup
  have hsize : (s.inodeTable i).iSize = c.val.length := by rw [← hbytes, length_fileBytes]
  have hinumber : (s.openFileTable g).ofInumber = i := by rw [hrow]
  have hstart : readStart s g = x.offset := by
    rw [readStart, fileSize, hrow]
    exact min_eq_left hoff
  have hlength : readLength s g n = min n ((s.inodeTable i).iSize - x.offset) := by
    rw [readLength, hstart, fileSize, hrow]
    rfl
  have hfit : x.offset % 1024 + readLength s g n ≤ 1024 := by
    rw [hlength, hsize]
    exact hblock
  have hread := h.shape.tfsRead_eq g.isLt hinumber hlive.2.1.1 n
  rw [hstart] at hread
  -- the bytes of the block are those of the file from the offset on
  have hdeliver : (c.val.drop x.offset).take n =
      (List.range (readLength s g n)).map fun k => byteAt s i (x.offset + k) := by
    rw [← hbytes, fileBytes, drop_take_map_range, hlength]
  have hout : ((c.val.drop x.offset).take n).length = readLength s g n := by
    rw [hdeliver]
    simp
  have hblocks : ∃ e, readBlocks g i (readLength s g n) (x.offset / 1024)
      (s.setEntry g { s.openFileTable g with ofOffset := x.offset }) =
        ((readLength s g n : ℤ), (c.val.drop x.offset).take n, s.setEntry g e) ∧
      e = ⟨i, x.offset + readLength s g n, if x.append then 1 else 0⟩ := by
    rw [hdeliver]
    rcases Nat.eq_zero_or_pos (readLength s g n) with hzero | hpos
    · rw [hzero]
      refine ⟨_, readBlocks_zero (s := s.setEntry g _) hlive, ?_⟩
      rw [hrow]
      rfl
    · have hslot : slotValue s (fileSlot i (x.offset / 1024)) ≠ -1 := by
        refine (hcompact.blocks _ ?_).2 ?_ <;> omega
      have hone := readBlocks_one (h := (g : ℕ))
        (s := s.setEntry g { s.openFileTable g with ofOffset := x.offset })
        (h.inv.moveHandle hinumber hlive (h.positionOk hi hoff)) hlive (o := x.offset) (by simp) (by omega)
        hpos hfit (by rwa [slotValue_setEntry])
      refine ⟨_, ?_, rfl⟩
      rw [hone]
      simp only [byteAt_setEntry]
      simp only [State.setEntry, Function.update_self, Function.update_idem, hrow]
  rcases hblocks with ⟨e, hblocks, he⟩
  rw [hblocks] at hread
  rw [hnum, readHandle_eq (hnum ▸ hof) hlookup, hout]
  have hinv := h.inv.tfsRead ⟨g, g.isLt, rfl, htaken⟩ hread
  rcases h.shape.tfsRead (g : ℕ) n with ⟨r', out', t', hread', hshape, _⟩
  cases (Option.some.inj (hread'.symm.trans hread) : (r', out', t') = _)
  refine ⟨_, hread, h.setHandle hinv hshape rfl rfl rfl (fun _ _ => rfl) ?_ ?_⟩
  · intro j hj
    simp [hj]
  · refine ⟨htaken, i, by simp [he], hi, ?_⟩
    rw [hlength]
    simp only [State.setEntry_inodeTable]
    omega

end Read

/-! ## Every call, and every run -/

section Runs

variable {s : State} {fs : FileSystem} {n : FileName} {flags : ℤ}

theorem Abstracts.open (h : Abstracts s fs) {path : Path} (hpath : FileName.ofPath path = some n)
    (htrunc : hasFlag flags tfsOTrunc → ∀ c, fs.files.lookup n = some c → c = Contents.empty)
    (hfits : hasFlag flags tfsOCreat → fs.files.lookup n = none → usedBlocks fs.files < dataBlocks) :
    ∃ t, tfsOpen path flags s = some ((fs.openFile n flags).1, t) ∧
      Abstracts t (fs.openFile n flags).2 := by
  rcases FileName.ofPath_eq_some hpath with ⟨p, rfl, hvalid, htail, hafter⟩
  rw [Tfs.tfsOpen, if_neg (by simp [hvalid])]
  rcases tfsLookup_cases h.inv (some p) with
    ⟨q, hq, _, k, hk, hused, hname, i, _, hnum, hEq⟩ | ⟨hEq, hmiss⟩
  · have hpq : q = p := (Option.some.inj hq).symm
    subst hpq
    have hi : NamedAs s i n.name := ⟨k, hk, hused, hnum, hname.trans htail⟩
    rcases h.lookup_of_namedAs hi with ⟨c, hc, _⟩
    have hopen := h.openExisting flags hi hc fun hflag => htrunc hflag c hc
    have hfound : (i : ℤ) ≥ 0 := by omega
    simp only [hEq, hfound, if_true]
    exact ⟨_, by rw [← hopen.1], hopen.2⟩
  · -- no entry has the name: it is created if the flags ask for it
    have hnew : fs.files.lookup n = none := by
      by_contra hsome
      rcases Option.ne_none_iff_exists'.1 hsome with ⟨c, hc⟩
      rcases (h.files n c).1 hc with ⟨i, ⟨k, hk, hused, _, hname⟩, _⟩
      exact hmiss p rfl hvalid k hk hused (hname.trans htail.symm)
    have hneg : ¬ (-1 : ℤ) ≥ 0 := by decide
    simp only [hEq, hneg, if_false]
    by_cases hflag : hasFlag flags tfsOCreat = true
    · simp only [hflag, if_true]
      exact h.openCreate hvalid hafter hnew hflag (hfits hflag hnew)
    · have hspec : fs.openFile n flags = (-1, fs) := by
        unfold FileSystem.openFile
        split
        · next c hc =>
            rw [hnew] at hc
            cases hc
        · simp [hflag]
      simp only [hflag, if_false, Bool.false_eq_true, hspec]
      exact ⟨s, rfl, h⟩

/-- One call of the library simulates one call of the specification. -/
theorem Abstracts.exec (h : Abstracts s fs) {a : Call} (hok : Allowed fs a) :
    ∃ t, fileSystem.exec a s = some ((FileSystem.exec a fs).1, t) ∧
      Abstracts t (FileSystem.exec a fs).2 := by
  cases a with
  | «open» path flags =>
      rcases hok with hinvalid | ⟨n, hpath, htrunc, hfits⟩
      · have hpath := FileName.ofPath_of_invalid hinvalid
        exact ⟨s, by simp [fileSystem, Tfs.exec, Tfs.tfsOpen, hinvalid, FileSystem.exec, hpath],
          by simpa [FileSystem.exec, hpath] using h⟩
      · rcases h.open hpath htrunc hfits with ⟨t, hopen, habs⟩
        exact ⟨t, by simp [fileSystem, Tfs.exec, hopen, FileSystem.exec, hpath],
          by simpa [FileSystem.exec, hpath] using habs⟩
  | close fhandle =>
      have hclose := h.close fhandle
      exact ⟨_, by simp [fileSystem, Tfs.exec, FileSystem.exec, hclose.1], hclose.2⟩
  | write fhandle buffer n =>
      rcases hok with ⟨hn, g, x, c, hof, hlookup, hblock⟩
      rcases h.write buffer hof hlookup hn hblock with ⟨t, hwrite, habs⟩
      exact ⟨t, by simp [fileSystem, Tfs.exec, hwrite, FileSystem.exec], habs⟩
  | read fhandle n =>
      rcases hok with ⟨g, x, c, hof, hlookup, hblock⟩
      rcases h.read hof hlookup hblock with ⟨t, hread, habs⟩
      exact ⟨t, by simp [fileSystem, Tfs.exec, hread, FileSystem.exec], habs⟩

theorem abstracts_tfsInit : Abstracts tfsInit.2 FileSystem.empty := by
  have hempty := not_entryUsed_tfsInit
  have hnone : ∀ i name, ¬ NamedAs tfsInit.2 i name := by
    rintro i name ⟨k, hk, hused, _⟩
    exact hempty k hk hused
  constructor
  · exact inv_tfsInit
  · exact shape_tfsInit
  · intro i hpos halloc
    rw [tfsInit_eq] at halloc
    have hfree := halloc.2
    simp [hpos.ne'] at hfree
  · intro j hj _ _ hused
    exact absurd hused (hempty j hj)
  · intro j hj _ _ hused
    exact absurd hused (hempty j hj)
  · intro i name hi
    exact absurd hi (hnone i name)
  · intro i name hi
    exact absurd hi (hnone i name)
  · intro n c
    simp [FileSystem.empty, hnone]
  · intro h
    change tfsInit.2.freeOpenFileEntries h = .free
    rw [tfsInit_eq]
    rfl
  · -- all blocks but that of the directory are free
    rcases tfsInit_room with ⟨_, hfree, _⟩
    have hcount : freeBlockCount tfsInit.2.disk = 1023 := by
      unfold freeBlockCount
      have hset : (Finset.range dataBlocks).filter (fun b => tfsInit.2.disk.freeBlocks b = .free) =
          (Finset.range dataBlocks).erase 0 := by
        ext b
        simp [hfree, and_comm]
      rw [hset]
      simp
    rw [hcount, usedBlocks, FileSystem.empty, total_empty]

/-- **Refinement.** On every sequence of calls that the specification covers, the library gives the replies
of the specification, and its blocks are exactly those of the files. -/
theorem tfs_refines_spec (as : List Call) (hok : machine.RunOk Allowed as FileSystem.empty) :
    ∃ rs s fs, machine.run as FileSystem.empty = some (rs, fs) ∧
      fileSystem.run as tfsInit.2 = some (rs, s) ∧ Abstracts s fs := by
  rcases Machine.run_total (M := machine) (fun a fs => ⟨_, rfl⟩) as FileSystem.empty with ⟨⟨rs, fs⟩, hrun⟩
  have hsim : ∀ s fs a r fs', Abstracts s fs → Allowed fs a → machine.exec a fs = some (r, fs') →
      ∃ s', fileSystem.exec a s = some (r, s') ∧ Abstracts s' fs' := by
    intro s fs a r fs' habs hallowed hexec
    have hEq : FileSystem.exec a fs = (r, fs') := Option.some.inj hexec
    have hcall := habs.exec hallowed
    rw [hEq] at hcall
    exact hcall
  rcases Machine.run_refines hsim as tfsInit.2 FileSystem.empty rs fs abstracts_tfsInit hok hrun with
    ⟨s, hlib, habs⟩
  exact ⟨rs, s, fs, hrun, hlib, habs⟩

def nameA : FileName :=
  ⟨slashA.tail, by decide, by decide⟩

/-- Create `/a`, write three bytes, append two through a second handle, read them through the first. -/
def appendSession : List Call :=
  [.open (some slashA) tfsOCreat, .write 0 (fun _ => 0x62) 3, .open (some slashA) tfsOAppend,
    .write 1 (fun _ => 0x63) 2, .read 0 8]

theorem tfs_refines_spec_appendSession :
    ∃ rs s fs, machine.run appendSession FileSystem.empty = some (rs, fs) ∧
      fileSystem.run appendSession tfsInit.2 = some (rs, s) ∧ Abstracts s fs := by
  apply tfs_refines_spec
  have hcreat : ¬ hasFlag tfsOCreat tfsOTrunc = true := by decide
  have happend : ¬ hasFlag tfsOAppend tfsOTrunc = true := by decide
  refine (Machine.runOk_cons_of_exec rfl).2 ⟨Or.inr ⟨nameA, by decide, fun h => absurd h hcreat, ?_⟩, ?_⟩
  · intro _ _
    decide +kernel
  refine (Machine.runOk_cons_of_exec rfl).2 ⟨⟨by decide, 0, ⟨nameA, 0, false⟩, Contents.empty,
    by decide +kernel, by decide +kernel, by decide⟩, ?_⟩
  refine (Machine.runOk_cons_of_exec rfl).2 ⟨Or.inr ⟨nameA, by decide, fun h => absurd h happend, ?_⟩, ?_⟩
  · intro _ _
    decide +kernel
  refine (Machine.runOk_cons_of_exec rfl).2 ⟨⟨by decide, 1, ⟨nameA, 3, true⟩,
    ⟨[0x62, 0x62, 0x62], by decide⟩, by decide +kernel, by decide +kernel, by decide⟩, ?_⟩
  exact (Machine.runOk_cons_of_exec rfl).2 ⟨⟨0, ⟨nameA, 3, false⟩,
    ⟨[0x62, 0x62, 0x62, 0x63, 0x63], by decide⟩, by decide +kernel, by decide +kernel, by decide⟩, trivial⟩

end Runs

end Tfs
end TecnicoFs
