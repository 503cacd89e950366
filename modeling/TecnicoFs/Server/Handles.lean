import TecnicoFs.Server.Ownership

/-!
# Server handles — calls on handles that are not open

`get_open_file_entry` checks the range of a handle and not whether the entry is taken, so a read or a write
on a closed handle goes on with whatever the entry holds.  What it then does is decided by the i-node that the
leftover number selects.  `Shape` bounds these leftovers in every state, however the calls were made.
-/

namespace TecnicoFs
namespace Server

open Lib

/-! ## What every state keeps -/

/-- An i-node has no block, or a block of the disk; and it has one unless it is empty. -/
def NodeShape (n : Inode) : Prop :=
  n.iSize ≤ 1024 ∧ ((n.iDataBlock = -1 ∧ n.iSize = 0) ∨ ∃ b : ℕ, b < 1024 ∧ n.iDataBlock = b)

/-- An open file entry, taken or not, has the number of some i-node. -/
def EntryShape (e : OpenFileEntry) : Prop :=
  e.ofOffset ≤ 1048576 ∧ ∃ i : ℕ, i < 50 ∧ e.ofInumber = i

structure Shape (s : State) : Prop where
  nodes : ∀ i, NodeShape (s.inodeTable i)
  entries : ∀ h, EntryShape (s.openFileTable h)

section Rules

variable {s t : State} {i h n : ℕ} {r : ℤ}

theorem Shape.of_tables (hs : Shape s) (hnodes : t.inodeTable = s.inodeTable)
    (hentries : t.openFileTable = s.openFileTable) : Shape t := by
  constructor
  · rw [hnodes]
    exact hs.nodes
  · rw [hentries]
    exact hs.entries

theorem Shape.setInode (hs : Shape s) {node : Inode} (hnode : NodeShape node) :
    Shape (s.setInode i node) := by
  constructor
  · intro j
    by_cases hji : j = i
    · subst hji
      simpa using hnode
    · simpa [hji] using hs.nodes j
  · exact hs.entries

theorem Shape.setEntry (hs : Shape s) {e : OpenFileEntry} (he : EntryShape e) :
    Shape (s.setEntry h e) := by
  constructor
  · exact hs.nodes
  · intro g
    by_cases hgh : g = h
    · subst hgh
      simpa using he
    · simpa [hgh] using hs.entries g

theorem Shape.addToOpenFileTable (hs : Shape s) {o : ℕ} (hi : i < 50) (ho : o ≤ 1048576) :
    Shape (addToOpenFileTable i o s).2 := by
  rcases addToOpenFileTable_cases i o s with ⟨h, _, _, _, hEq⟩ | ⟨_, hEq⟩
  · rw [hEq]
    have hadd := hs.setEntry (h := h) (e := ⟨i, o⟩) ⟨ho, i, hi, rfl⟩
    exact hadd.of_tables rfl rfl
  · rw [hEq]
    exact hs

theorem addDirEntry_frame {inumber subInumber : ℤ} {subName : Option CString}
    (h : addDirEntry inumber subInumber subName s = some (r, t)) :
    t.inodeTable = s.inodeTable ∧ t.openFileTable = s.openFileTable := by
  unfold addDirEntry at h
  repeat' split at h
  all_goals first
    | (cases h; exact ⟨rfl, rfl⟩)
    | cases h

theorem inodeDelete_frame (inumber : ℤ) (s : State) :
    (inodeDelete inumber s).2.inodeTable = s.inodeTable ∧
      (inodeDelete inumber s).2.openFileTable = s.openFileTable := by
  unfold inodeDelete
  split
  · exact ⟨rfl, rfl⟩
  · dsimp only
    split
    · exact ⟨rfl, rfl⟩
    · exact ⟨rfl, rfl⟩

theorem Shape.openExisting (hs : Shape s) (inum flags : ℤ) : Shape (openExisting inum flags s).2 := by
  by_cases hinum : ∃ i : ℕ, i < 50 ∧ inum = i
  · rcases hinum with ⟨i, hi, rfl⟩
    have hnode := hs.nodes i
    have hvalid : 0 < (s.inodeTable i).iSize →
        ∃ b : ℕ, b < 1024 ∧ (s.inodeTable i).iDataBlock = b := by
      intro hpos
      rcases hnode.2 with ⟨_, hzero⟩ | hb
      · omega
      · exact hb
    rw [openExisting_eq hi hvalid]
    -- a truncation leaves the block number in the i-node
    have htrunc : Shape (truncateIf flags i s) := by
      unfold truncateIf
      split
      · rename_i hcond
        have hdisk : Shape (s.setDisk (s.disk.markBlock (s.inodeTable i).iDataBlock.toNat .free)) :=
          hs.of_tables rfl rfl
        exact hdisk.setInode ⟨Nat.zero_le _, Or.inr (hvalid hcond.2)⟩
      · exact hs
    apply htrunc.addToOpenFileTable hi
    unfold openOffset
    split
    · have hsize := (htrunc.nodes i).1
      omega
    · omega
  · have hnone : inodeGet inum = none := by
      by_contra hsome
      rcases Option.ne_none_iff_exists'.1 hsome with ⟨i, hi⟩
      rcases inodeGet_eq_some.1 hi with ⟨hEq, hlt⟩
      exact hinum ⟨i, hlt, hEq⟩
    have hEq : Server.openExisting inum flags s = (-1, s) := by
      simp [Server.openExisting, hnone]
    rw [hEq]
    exact hs

theorem Shape.openCreate (hs : Shape s) {path : Path} (h : openCreate path s = some (r, t)) :
    Shape t := by
  unfold Server.openCreate at h
  rcases inodeCreate_file_cases s with ⟨i, hi, _, hEq⟩ | ⟨_, hEq⟩
  · have hne : (i : ℤ) ≠ -1 := by omega
    have hmarked : Shape (s.markInode i .taken) := hs.of_tables rfl rfl
    have hcreated : Shape (createdInode s i) :=
      hmarked.setInode ⟨Nat.zero_le _, Or.inl ⟨rfl, rfl⟩⟩
    simp only [hEq, hne, if_false] at h
    rcases hadd : addDirEntry rootDirInum i (afterSlash path) (createdInode s i) with _ | ⟨r₁, t₁⟩
    · rw [hadd] at h
      exact absurd h (by simp)
    · simp only [hadd] at h
      -- neither the directory nor the deletion touches what the shape is about
      have hframe := addDirEntry_frame hadd
      have hadded : Shape t₁ := hcreated.of_tables hframe.1 hframe.2
      by_cases hfail : r₁ = -1
      · simp only [hfail, if_true, Option.some.injEq, Prod.mk.injEq] at h
        rw [← h.2]
        exact hadded.of_tables (inodeDelete_frame _ _).1 (inodeDelete_frame _ _).2
      · simp only [hfail, if_false, Option.some.injEq] at h
        have hopen := hadded.addToOpenFileTable (o := 0) hi (by omega)
        rw [h] at hopen
        exact hopen
  · simp only [hEq, if_true, Option.some.injEq, Prod.mk.injEq] at h
    rw [← h.2]
    exact hs

theorem Shape.tfsOpenUnsynchronized (hs : Shape s) {path : Path} {flags : ℤ}
    (h : tfsOpenUnsynchronized path flags s = some (r, t)) : Shape t := by
  unfold Server.tfsOpenUnsynchronized at h
  by_cases hfound : tfsLookupUnsynchronized path s ≥ 0
  · simp only [hfound, if_true, Option.some.injEq] at h
    have hopen := hs.openExisting (tfsLookupUnsynchronized path s) flags
    rw [h] at hopen
    exact hopen
  · simp only [hfound, if_false] at h
    by_cases hcreate : hasFlag flags tfsOCreat = true
    · simp only [hcreate, if_true] at h
      exact hs.openCreate h
    · simp only [hcreate, if_false, Option.some.injEq, Prod.mk.injEq, Bool.false_eq_true] at h
      rw [← h.2]
      exact hs

theorem Shape.allocIfEmpty (hs : Shape s) (i : ℕ) : Shape (allocIfEmpty i s) := by
  rcases allocIfEmpty_cases i s with ⟨_, hEq⟩ | ⟨hzero, b, hb, _, hEq⟩ | ⟨hzero, _, hEq⟩
  · rw [hEq]
    exact hs
  · rw [hEq]
    have hdisk : Shape (s.setDisk (s.disk.markBlock b .taken)) := hs.of_tables rfl rfl
    exact hdisk.setInode ⟨(hs.nodes i).1, Or.inr ⟨b, hb, rfl⟩⟩
  · rw [hEq]
    exact hs.setInode ⟨(hs.nodes i).1, Or.inl ⟨rfl, hzero⟩⟩

theorem allocIfEmpty_openFileTable (i : ℕ) (s : State) :
    (allocIfEmpty i s).openFileTable = s.openFileTable := by
  rcases allocIfEmpty_cases i s with ⟨_, hEq⟩ | ⟨_, b, _, _, hEq⟩ | ⟨_, _, hEq⟩
  · rw [hEq]
  · rw [hEq]
    rfl
  · rw [hEq]
    rfl

theorem Shape.storeBytes (hs : Shape s) {a : ℕ} {buffer : ℕ → Byte}
    (hfit : (s.openFileTable h).ofOffset + n ≤ 1024)
    (hblock : ∃ b : ℕ, b < 1024 ∧ (s.inodeTable i).iDataBlock = b) :
    Shape (storeBytes h i a buffer n s) := by
  rw [storeBytes_eq hfit]
  have hdata : Shape (s.setData (memcpy s.disk.fsData (a + (s.openFileTable h).ofOffset) buffer n)) :=
    hs.of_tables rfl rfl
  refine Shape.setInode (Shape.setEntry hdata ?_) ?_
  · refine ⟨?_, (hs.entries h).2⟩
    show (s.openFileTable h).ofOffset + n ≤ 1048576
    omega
  · exact ⟨max_le (hs.nodes i).1 hfit, Or.inr hblock⟩

theorem Shape.tfsWriteUnsynchronized (hs : Shape s) {fhandle : ℤ} {buffer : ℕ → Byte}
    (hw : tfsWriteUnsynchronized fhandle buffer n s = some (r, t)) : Shape t := by
  rcases tfsWriteUnsynchronized_cases hw with ⟨_, _, rfl⟩ | ⟨h, _, _, hcases⟩
  · exact hs
  rcases hcases with ⟨_, _, rfl⟩ | ⟨i, _, _, hcases⟩
  · exact hs
  have halloc := hs.allocIfEmpty i
  rcases hcases with ⟨_, _, rfl⟩ | ⟨_, _, _, rfl⟩ | ⟨b, hb, hbEq, _, hfit, _, rfl⟩
  · exact hs
  · exact halloc
  · rw [← allocIfEmpty_openFileTable i s] at hfit ⊢
    exact halloc.storeBytes hfit ⟨b, hb, hbEq⟩

theorem Shape.tfsReadUnsynchronized (hs : Shape s) {fhandle : ℤ} {out : List Byte}
    (hr : tfsReadUnsynchronized fhandle n s = some (r, out, t)) : Shape t := by
  rcases tfsReadUnsynchronized_cases hr with ⟨_, _, _, rfl⟩ | ⟨h, _, _, hcases⟩
  · exact hs
  rcases hcases with ⟨_, _, _, rfl⟩ | ⟨i, _, _, hcases⟩
  · exact hs
  rcases hcases with ⟨_, _, _, rfl⟩ | ⟨_, _, _, _, rfl⟩ | ⟨b, _, _, _, hfit, _, _, rfl⟩
  · exact hs
  · exact hs
  · refine hs.setEntry ⟨?_, (hs.entries h).2⟩
    show (s.openFileTable h).ofOffset +
      readCount (s.inodeTable i).iSize (s.openFileTable h).ofOffset n ≤ 1048576
    omega

theorem Shape.exec (hs : Shape s) {a : Call} {reply : Reply} (h : exec a s = some (reply, t)) :
    Shape t := by
  cases a with
  | «open» name flags =>
      rcases Option.map_eq_some_iff.1 h with ⟨⟨r, s'⟩, hopen, hEq⟩
      cases hEq
      unfold tfsOpen at hopen
      split at hopen
      · cases hopen
        exact hs
      · exact hs.tfsOpenUnsynchronized hopen
  | close fhandle =>
      cases h
      unfold tfsClose
      -- a close changes a mark, and no entry
      rcases removeFromOpenFileTable_cases fhandle s with ⟨h, _, _, _, hEq⟩ | ⟨_, hEq⟩
      · rw [hEq]
        exact hs.of_tables rfl rfl
      · rw [hEq]
        exact hs
  | write fhandle buffer n =>
      rcases Option.map_eq_some_iff.1 h with ⟨⟨r, s'⟩, hwrite, hEq⟩
      cases hEq
      exact hs.tfsWriteUnsynchronized hwrite
  | read fhandle n =>
      rcases Option.map_eq_some_iff.1 h with ⟨⟨r, out, s'⟩, hread, hEq⟩
      cases hEq
      exact hs.tfsReadUnsynchronized hread

theorem shape_tfsInit : Shape tfsInit.2 := by
  rw [tfsInit_eq]
  constructor
  · intro i
    by_cases hi : i = 0
    · subst hi
      exact ⟨by simp, Or.inr ⟨0, by omega, by simp⟩⟩
    · refine ⟨by simp [hi, staticState], Or.inr ⟨0, by omega, by simp [hi, staticState]⟩⟩
  · intro h
    exact ⟨by simp [stateInit, staticState], 0, by omega, by simp [stateInit, staticState]⟩

theorem shape_of_reachable (hr : anyCalls.Reachable s) : Shape s := by
  apply hr.invariant
  · intro s hinit
    rw [show s = tfsInit.2 from hinit]
    exact shape_tfsInit
  · rintro s a t hs ⟨_, r, hexec⟩
    exact hs.exec hexec

end Rules

/-! ## Calls without effect -/

section Inert

variable {s : State} {fhandle : ℤ} {offset size n : ℕ}

theorem writeCount_pos_iff (hoff : offset ≤ 1048576) (hn : n < 2 ^ 64) :
    0 < writeCount offset n ↔
      1024 < offset ∨ 0 < n ∧ (offset < 1024 ∨ 2 ^ 64 ≤ n + offset) := by
  have hblock : blockSize = 1024 := rfl
  unfold writeCount
  rw [hblock]
  rcases le_or_gt offset 1024 with hin | hout
  · rw [sizeSub_of_le hin (by decide)]
    by_cases hwrap : n + offset < 2 ^ 64
    · rw [sizeAdd_of_lt hwrap]
      split <;> omega
    · have hsum : sizeAdd n offset = n + offset - 2 ^ 64 := by
        unfold sizeAdd
        omega
      rw [hsum, if_neg (by omega)]
      omega
  · -- behind the block the difference wraps, and only a sum that wraps too is not clamped to it
    rw [sizeSub_of_lt hout (by omega)]
    split
    · omega
    · rename_i hclamp
      have hpos : 0 < n := by
        by_contra hzero
        rw [sizeAdd_of_lt (by omega)] at hclamp
        omega
      omega

theorem readCount_pos_iff (hoff : offset ≤ 1048576) :
    0 < readCount 0 offset n ↔ 0 < n ∧ 0 < offset := by
  unfold readCount
  rcases Nat.eq_zero_or_pos offset with rfl | hpos
  · rw [sizeSub_of_le le_rfl (by norm_num)]
    simp
  · rw [sizeSub_of_lt hpos (by omega)]
    split
    · omega
    · omega

/-- The i-node that an entry of the open file table selects, taken or not. -/
def entryInode (s : State) (fhandle : ℤ) : Inode :=
  s.inodeTable (s.openFileTable fhandle.toNat).ofInumber.toNat

def entryOffset (s : State) (fhandle : ℤ) : ℕ :=
  (s.openFileTable fhandle.toNat).ofOffset

/-- A write has something to copy, finds its file empty and without a block, and the disk is full. -/
def WriteFindsNoBlock (s : State) (fhandle : ℤ) (n : ℕ) : Prop :=
  (1024 < entryOffset s fhandle ∨
      0 < n ∧ (entryOffset s fhandle < 1024 ∨ 2 ^ 64 ≤ n + entryOffset s fhandle)) ∧
    ((entryInode s fhandle).iSize = 0 ∧ (entryInode s fhandle).iDataBlock = -1) ∧
    ∀ b < dataBlocks, s.disk.freeBlocks b = .taken

/-- A read stands behind the end of a file that is empty and without a block. -/
def ReadFindsNoBlock (s : State) (fhandle : ℤ) (n : ℕ) : Prop :=
  (0 < n ∧ 0 < entryOffset s fhandle) ∧
    (entryInode s fhandle).iSize = 0 ∧ (entryInode s fhandle).iDataBlock = -1

theorem Shape.dataBlockGet_of_pos (hs : Shape s) {i : ℕ} (hpos : 0 < (s.inodeTable i).iSize) :
    dataBlockGet (s.inodeTable i).iDataBlock ≠ none := by
  rcases (hs.nodes i).2 with ⟨_, hzero⟩ | ⟨b, hb, hEq⟩
  · omega
  · rw [hEq, dataBlockGet_natCast hb]
    simp

theorem write_inert_iff (hs : Shape s) (hn : n < 2 ^ 64) (buffer : ℕ → Byte) :
    tfsWriteUnsynchronized fhandle buffer n s = some (-1, s) ↔
      ¬ (0 ≤ fhandle ∧ fhandle < maxOpenFiles) ∨ WriteFindsNoBlock s fhandle n := by
  constructor
  · intro hw
    rcases tfsWriteUnsynchronized_cases hw with ⟨hout, _⟩ | ⟨h, hh, rfl, hcases⟩
    · exact Or.inl hout
    right
    rcases (hs.entries h).2 with ⟨i, hi, hnum⟩
    rcases hcases with ⟨hnone, _⟩ | ⟨j, _, hnum', hcases⟩
    · rw [hnum, inodeGet_natCast hi] at hnone
      simp at hnone
    have hij : j = i := by
      rw [hnum] at hnum'
      omega
    subst hij
    rcases hcases with ⟨_, hr, _⟩ | ⟨hpos, hnone, _, hsame⟩ | ⟨b, _, _, _, _, hr, _⟩
    · exact absurd hr (by decide)
    · -- -1 comes from a missing block: the file is empty and the disk is full
      rcases allocIfEmpty_cases j s with ⟨hsize, hEq⟩ | ⟨_, b, hb, _, hEq⟩ | ⟨hzero, hfull, hEq⟩
      · rw [hEq] at hnone
        exact absurd hnone (hs.dataBlockGet_of_pos hsize)
      · rw [hEq] at hnone
        simp [hb] at hnone
      · have hblock : (s.inodeTable j).iDataBlock = -1 := by
          rw [hsame, hEq]
          simp
        refine ⟨(writeCount_pos_iff (hs.entries h).1 hn).1 hpos, ?_, hfull⟩
        simpa [entryInode, hnum] using And.intro hzero hblock
    · omega
  · rintro (hout | ⟨hpos, ⟨hzero, hblock⟩, hfull⟩)
    · rw [tfsWriteUnsynchronized, getOpenFileEntry_eq_none.2 hout]
    by_cases hrange : 0 ≤ fhandle ∧ fhandle < 20
    · have hh : getOpenFileEntry fhandle = some fhandle.toNat :=
        getOpenFileEntry_eq_some.2 ⟨by omega, by omega⟩
      rcases (hs.entries fhandle.toNat).2 with ⟨i, hi, hnum⟩
      have hcount := (writeCount_pos_iff (hs.entries fhandle.toNat).1 hn).2 hpos
      simp only [entryInode, hnum, Int.toNat_natCast] at hzero hblock
      -- the allocation that fails writes the -1 that was there
      have hsame : allocIfEmpty i s = s := by
        rcases allocIfEmpty_cases i s with ⟨_, hEq⟩ | ⟨_, b, hb, hfree, _⟩ | ⟨_, _, hEq⟩
        · exact hEq
        · rw [hfull b hb] at hfree
          cases hfree
        · rw [hEq, ← hblock]
          simp [State.setInode]
      simp only [tfsWriteUnsynchronized, hh, hnum, inodeGet_natCast hi, hsame, hblock,
        dataBlockGet_neg_one, gt_iff_lt, hcount, if_true]
    · rw [tfsWriteUnsynchronized, getOpenFileEntry_eq_none.2 hrange]

theorem read_inert_iff (hs : Shape s) :
    tfsReadUnsynchronized fhandle n s = some (-1, [], s) ↔
      ¬ (0 ≤ fhandle ∧ fhandle < maxOpenFiles) ∨ ReadFindsNoBlock s fhandle n := by
  constructor
  · intro hr
    rcases tfsReadUnsynchronized_cases hr with ⟨hout, _⟩ | ⟨h, hh, rfl, hcases⟩
    · exact Or.inl hout
    right
    rcases (hs.entries h).2 with ⟨i, hi, hnum⟩
    rcases hcases with ⟨hnone, _⟩ | ⟨j, _, hnum', hcases⟩
    · rw [hnum, inodeGet_natCast hi] at hnone
      simp at hnone
    have hij : j = i := by
      rw [hnum] at hnum'
      omega
    subst hij
    rcases hcases with ⟨_, hr, _⟩ | ⟨hpos, hnone, _⟩ | ⟨b, _, _, _, _, hr, _⟩
    · exact absurd hr (by decide)
    · -- without a block the size is 0, and the count is positive only past the end
      have hempty : (s.inodeTable j).iDataBlock = -1 ∧ (s.inodeTable j).iSize = 0 := by
        rcases (hs.nodes j).2 with hempty | ⟨b, hb, hEq⟩
        · exact hempty
        · rw [hEq, dataBlockGet_natCast hb] at hnone
          simp at hnone
      rw [hempty.2] at hpos
      refine ⟨(readCount_pos_iff (hs.entries h).1).1 hpos, ?_⟩
      simpa [entryInode, hnum] using And.intro hempty.2 hempty.1
    · omega
  · rintro (hout | ⟨hpos, hzero, hblock⟩)
    · rw [tfsReadUnsynchronized, getOpenFileEntry_eq_none.2 hout]
    by_cases hrange : 0 ≤ fhandle ∧ fhandle < 20
    · have hh : getOpenFileEntry fhandle = some fhandle.toNat :=
        getOpenFileEntry_eq_some.2 ⟨by omega, by omega⟩
      rcases (hs.entries fhandle.toNat).2 with ⟨i, hi, hnum⟩
      have hcount := (readCount_pos_iff (n := n) (hs.entries fhandle.toNat).1).2 hpos
      simp only [entryInode, hnum, Int.toNat_natCast] at hzero hblock
      simp only [tfsReadUnsynchronized, hh, hnum, inodeGet_natCast hi, hzero, hblock,
        dataBlockGet_neg_one, gt_iff_lt, hcount, if_true]
    · rw [tfsReadUnsynchronized, getOpenFileEntry_eq_none.2 hrange]

/-- Exactly when reads and writes fail without effect: whether the handle is open plays no part. -/
theorem inert_iff (hr : anyCalls.Reachable s) (hn : n < 2 ^ 64) (buffer : ℕ → Byte) :
    (tfsWriteUnsynchronized fhandle buffer n s = some (-1, s) ↔
      ¬ (0 ≤ fhandle ∧ fhandle < maxOpenFiles) ∨ WriteFindsNoBlock s fhandle n) ∧
    (tfsReadUnsynchronized fhandle n s = some (-1, [], s) ↔
      ¬ (0 ≤ fhandle ∧ fhandle < maxOpenFiles) ∨ ReadFindsNoBlock s fhandle n) :=
  ⟨write_inert_iff (shape_of_reachable hr) hn buffer, read_inert_iff (shape_of_reachable hr)⟩

/-- Handle 20 is out of range; handle 0 is in range and not open, and its entry selects the root directory. -/
theorem inert_iff_tfsInit :
    (tfsWriteUnsynchronized 20 (fun _ => 0x41) 1 tfsInit.2 = some (-1, tfsInit.2) ∧
      tfsReadUnsynchronized 20 1 tfsInit.2 = some (-1, [], tfsInit.2)) ∧
    ¬ HandleOpen tfsInit.2 0 ∧
      tfsWriteUnsynchronized 0 (fun _ => 0x41) 1 tfsInit.2 ≠ some (-1, tfsInit.2) ∧
      tfsReadUnsynchronized 0 1 tfsInit.2 ≠ some (-1, [], tfsInit.2) := by
  have h : ∀ fhandle, (tfsWriteUnsynchronized fhandle (fun _ => 0x41) 1 tfsInit.2 =
        some (-1, tfsInit.2) ↔ _) ∧
      (tfsReadUnsynchronized fhandle 1 tfsInit.2 = some (-1, [], tfsInit.2) ↔ _) :=
    fun fhandle => inert_iff ⟨[], .start rfl⟩ (by norm_num) (fun _ => 0x41)
  have hrange : ¬ ¬ ((0 : ℤ) ≤ 0 ∧ (0 : ℤ) < maxOpenFiles) := by decide
  have hroot : (entryInode tfsInit.2 0).iSize ≠ 0 := by
    rw [tfsInit_eq]
    decide
  refine ⟨⟨(h 20).1.2 (Or.inl (by decide)), (h 20).2.2 (Or.inl (by decide))⟩, ?_, ?_, ?_⟩
  · rw [tfsInit_eq]
    decide
  · rintro hinert
    exact hroot (((h 0).1.1 hinert).resolve_left hrange).2.1.1
  · intro hinert
    exact hroot (((h 0).2.1 hinert).resolve_left hrange).2.1

/-- No handle is open after `tfs_init`, and a write on handle 0 stores its byte in the root directory. -/
theorem write_on_closed_handle :
    anyCalls.Reachable tfsInit.2 ∧ ¬ HandleOpen tfsInit.2 0 ∧
      ∃ t, tfsWriteUnsynchronized 0 (fun _ => 0x41) 1 tfsInit.2 = some (1, t) ∧
        dataBlockGet (tfsInit.2.inodeTable rootDirInum).iDataBlock = some 0 ∧
        tfsInit.2.disk.fsData 0 = 0 ∧ t.disk.fsData 0 = 0x41 := by
  have hs := inv_tfsInit
  have hentry : tfsInit.2.openFileTable 0 = ⟨0, 0⟩ := by
    rw [tfsInit_eq]
    rfl
  have hfree : tfsInit.2.freeOpenFileEntries 0 = .free := by
    rw [tfsInit_eq]
    rfl
  have hfirst : tfsInit.2.disk.fsData 0 = 0 := by
    rw [tfsInit_eq]
    exact dName_clearEntries (m := fun _ => 0) (i := 0) (k := 0) (by omega)
  refine ⟨⟨[], .start rfl⟩, ?_⟩
  generalize tfsInit.2 = s at hs hentry hfree hfirst
  -- entry 0 still has the zeros of the static table, and i-node 0 is the root directory
  have halloc : allocIfEmpty 0 s = s := by simp [allocIfEmpty, hs.root.2]
  refine ⟨?_, storeBytes 0 0 0 (fun _ => 0x41) 1 s, ?_, hs.dataBlockGet_root, hfirst, ?_⟩
  · rintro ⟨h, _, hEq, htaken⟩
    have hzero : h = 0 := by omega
    subst hzero
    simp [hfree] at htaken
  · have hh : getOpenFileEntry 0 = some 0 := by decide
    have hi : inodeGet 0 = some 0 := by decide
    have hcount : writeCount 0 1 = 1 := by decide
    have hlong : castLong 1 = 1 := by decide
    simp [tfsWriteUnsynchronized, hh, hentry, hi, hcount, halloc, hs.dataBlockGet_root, hlong]
  · rw [storeBytes_eq (by simp [hentry])]
    simp [hentry, memcpy]

end Inert

end Server
end TecnicoFs
