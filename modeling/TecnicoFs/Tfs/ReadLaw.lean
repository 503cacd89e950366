import TecnicoFs.Tfs.Append
import TecnicoFs.Tfs.RoundTrip

/-!
# Multi-block reads — what one `tfs_read` delivers

A read that stays within one block of its file is right.  At the end of each block the loops add the bytes
of the whole call to the offset, not those of the block, so a read that goes on to a second block leaves the
handle too far on, or delivers too few bytes.
-/

namespace TecnicoFs
namespace Tfs

open Lib

/-! ## The law and its condition -/

/-- Where a read of the handle starts: its offset, moved back to the end of the file. -/
def readStart (s : State) (h : ℕ) : ℕ :=
  min (s.openFileTable h).ofOffset (fileSize s h)

def readLength (s : State) (h len : ℕ) : ℕ :=
  min len (fileSize s h - readStart s h)

/-- The call returns the number of bytes that the file has from the offset on, at most `len`; it delivers
exactly these bytes, moves the handle behind them, and changes nothing else. -/
def ReadsExactly (s : State) (h len : ℕ) : Prop :=
  tfsRead h len s = some ((readLength s h len : ℤ),
    (List.range (readLength s h len)).map fun k =>
      byteAt s (s.openFileTable h).ofInumber.toNat (readStart s h + k),
    s.setEntry h { s.openFileTable h with ofOffset := readStart s h + readLength s h len })

/-- The index block of the file is there, and the read ends in the block in which it starts, which is there
too. -/
def WithinBlock (s : State) (h len : ℕ) : Prop :=
  let i := (s.openFileTable h).ofInumber.toNat
  let o := readStart s h
  validBlockNumber (s.inodeTable i).iIndexBlock = true ∧
    (readLength s h len = 0 ∨ o / blockSize < directBlocksQuantity + indexEntries ∧
      o % blockSize + readLength s h len ≤ blockSize ∧
      validBlockNumber (slotValue s (fileSlot i (o / blockSize))) = true)

/-! ## Reads that go on to a second block -/

section Several

variable {s t : State} {h i a n o k b toRead : ℕ} {r : ℤ} {out : List Byte}

/-- A read from `o` whose first turn delivered `k` bytes: nothing came after it, or the handle is that many
bytes too far on. -/
def FirstOrBeyond (o k : ℕ) (out : List Byte) (offset : ℕ) : Prop :=
  (out.length = k ∧ offset = o + k) ∨ o + k + out.length ≤ offset

theorem readLoop_firstOrBeyond {slots : BlockSlots} {bound : ℕ → ℕ} (left index : ℕ) {v : ℕ}
    (hoff : (s.openFileTable h).ofOffset ≤ 272384 * (v + 1)) (hlen : out.length ≤ 1024 * v)
    (hv : v + left ≤ 266) (hfirst : FirstOrBeyond o k out (s.openFileTable h).ofOffset) {e : ReadEnd}
    (hEq : readLoop slots bound h toRead left index out s = e) :
    ∃ v' ≤ v + left, (e.state.openFileTable h).ofOffset ≤ 272384 * (v' + 1) ∧
      e.out.length ≤ 1024 * v' ∧ e.state.inodeTable = s.inodeTable ∧
      FirstOrBeyond o k e.out (e.state.openFileTable h).ofOffset := by
  rcases readLoop_moves (h := h) slots bound toRead left index v out s
    hoff hlen hv with ⟨v', hv', offset, hoff', hlen', hstate, hgrow⟩
  rw [hEq] at hlen' hstate hgrow
  have hoffset : (e.state.openFileTable h).ofOffset = offset := by
    rw [hstate]
    simp
  refine ⟨v', hv', hoffset ▸ hoff', hlen', by rw [hstate]; rfl, ?_⟩
  rw [hoffset]
  rcases hgrow with ⟨hout, rfl⟩ | hgrow
  · rw [hout]
    exact hfirst
  · right
    rcases hfirst with ⟨_, hk⟩ | hbeyond
    · omega
    · omega

/-- A read that must go on to a second block, and delivers its `n` bytes, leaves the handle too far on. -/
theorem readBlocks_several (ho : (s.openFileTable h).ofOffset = o) (hbound : o < 272384)
    (hn : 1024 < o % 1024 + n) (ha : a < 1024) (hindex : (s.inodeTable i).iIndexBlock = a)
    (hb : b < 1024) (hblock : slotValue s (fileSlot i (o / 1024)) = b)
    (hr : readBlocks h i n (o / 1024) s = (r, out, t)) (hout : out.length = n) :
    o + n < (t.openFileTable h).ofOffset := by
  have hget : dataBlockGet (s.inodeTable i).iIndexBlock = some (a * 1024) := by
    rw [hindex, dataBlockGet_natCast ha]
  have hentries : indexEntries = 256 := rfl
  have hmod : o % 1024 < 1024 := Nat.mod_lt _ (by omega)
  obtain ⟨k, hk⟩ : ∃ k, k = 1024 - o % 1024 := ⟨_, rfl⟩
  -- the first turn reads up to the end of the block
  have hturn : ∀ {slots : BlockSlots} {x : ℕ → Slot} {m j : ℕ} (bound : ℕ → ℕ) (left : ℕ),
      Row i a slots x m → x j = fileSlot i (o / 1024) → n ≤ bound 0 → ∃ out₁ : List Byte, ∃ u : State,
      out₁.length = k ∧ u = s.setEntry h { s.openFileTable h with ofOffset := o + k } ∧
      readLoop slots bound h n (left + 1) j [] s = readLoop slots bound h n left (j + 1) out₁ u := by
    intro slots x m j bound left hrow hx hb0
    have hfull : readInBlock o (bound ([] : List Byte).length) = k := by
      unfold readInBlock
      simp only [blockSize, List.length_nil]
      rw [if_neg (by omega), hk]
    have hsum : sizeAdd o (([] : List Byte).length + k) = o + k := by
      rw [List.length_nil, Nat.zero_add]
      exact sizeAdd_of_lt (by omega)
    have hlt : ([] : List Byte).length < n := by
      rw [List.length_nil]
      omega
    refine ⟨(List.range k).map fun j => byteAt s i (o + j), _, by simp, rfl, ?_⟩
    rw [readLoop_succ_of_value bound n left [] hrow hindex hx ho hlt hfull (by omega) hb hblock, hsum,
      List.nil_append]
  -- the end of the call, once the loops have passed the first turn
  have hend : FirstOrBeyond o k out (t.openFileTable h).ofOffset → o + n < (t.openFileTable h).ofOffset := by
    rintro (⟨hlen, _⟩ | hbeyond)
    · omega
    · omega
  apply hend
  unfold readBlocks at hr
  by_cases hten : o / 1024 < 10
  · have hx : Slot.direct i (o / 1024) = fileSlot i (o / 1024) := by simp [fileSlot, hten]
    have hleft : directBlocksQuantity - o / 1024 = 9 - o / 1024 + 1 := by
      simp only [directBlocksQuantity]
      omega
    rcases hturn (fun read => n - read) (9 - o / 1024) (row_direct i a) hx (by omega) with
      ⟨out₁, u, hlen₁, hu, hfirst⟩
    have hoff₁ : (u.openFileTable h).ofOffset = o + k := by simp [hu]
    rw [hleft, hfirst] at hr
    rcases hloop : readLoop (directSlots i) (fun read => n - read) h n (9 - o / 1024) (o / 1024 + 1) out₁ u
      with ⟨out₂, t₂⟩ | ⟨index₂, out₂, t₂⟩
    all_goals
      rcases readLoop_firstOrBeyond (v := 1) (o := o) (k := k) (9 - o / 1024) (o / 1024 + 1) (by omega)
        (by omega) (by omega) (Or.inl ⟨hlen₁, hoff₁⟩) hloop with ⟨v, hv, hoff₂, hlen₂, hnodes, hafter⟩
      rw [hloop] at hr
    · cases hr
      exact hafter
    · have hget₂ : dataBlockGet (t₂.inodeTable i).iIndexBlock = some (a * 1024) := by
        rw [show t₂.inodeTable = u.inodeTable from hnodes, hu]
        exact hget
      simp only [hget₂] at hr
      rcases hloop₂ : readLoop (indexSlots (a * 1024)) (fun _ => n) h n
          (indexEntries - indirectIndex index₂) (indirectIndex index₂) out₂ t₂ with
        ⟨out₃, t₃⟩ | ⟨index₃, out₃, t₃⟩
      all_goals
        rcases readLoop_firstOrBeyond _ _ hoff₂ hlen₂ (by omega) hafter hloop₂ with
          ⟨_, _, _, _, _, hlast⟩
        rw [hloop₂] at hr
        cases hr
        exact hlast
  · have hx : Slot.entry i (o / 1024 - 10) = fileSlot i (o / 1024) := by simp [fileSlot, hten]
    have hdirect : directBlocksQuantity - o / 1024 = 0 := directLeft_of_ge (by omega)
    have hindirect : indirectIndex (o / 1024) = o / 1024 - 10 := indirectIndex_of_ge (by omega)
    have hleft : indexEntries - (o / 1024 - 10) = 265 - o / 1024 + 1 := by omega
    rcases hturn (fun _ => n) (265 - o / 1024) (row_index i a) hx le_rfl with
      ⟨out₁, u, hlen₁, hu, hfirst⟩
    have hoff₁ : (u.openFileTable h).ofOffset = o + k := by simp [hu]
    simp only [hdirect, readLoop, hget, hindirect, hleft, hfirst] at hr
    rcases hloop : readLoop (indexSlots (a * 1024)) (fun _ => n) h n (265 - o / 1024)
      (o / 1024 - 10 + 1) out₁ u with ⟨out₂, t₂⟩ | ⟨index₂, out₂, t₂⟩
    all_goals
      rcases readLoop_firstOrBeyond (v := 1) (o := o) (k := k) (265 - o / 1024) (o / 1024 - 10 + 1)
        (by omega) (by omega) (by omega) (Or.inl ⟨hlen₁, hoff₁⟩) hloop with ⟨_, _, _, _, _, hlast⟩
      rw [hloop] at hr
      cases hr
      exact hlast

end Several

/-! ## Reads that find no block -/

section Missing

variable {s t : State} {h i n index : ℕ} {r : ℤ} {out : List Byte}

/-- A read loop without a block has not read everything, by induction on the slots that are left. -/
theorem readLoop_noBlock_lt {slots : BlockSlots} {bound : ℕ → ℕ} {toRead : ℕ} (left : ℕ) :
    ∀ (index : ℕ) (out : List Byte) (s : State) {out' : List Byte} {t : State},
      readLoop slots bound h toRead left index out s = .noBlock out' t → out'.length < toRead := by
  induction left with
  | zero =>
      intro index out s out' t hEq
      cases hEq
  | succ left ih =>
      intro index out s out' t hEq
      rw [readLoop] at hEq
      split at hEq
      · next hlt =>
          rcases hget : dataBlockGet (slots.get s index) with _ | block
          · simp only [hget] at hEq
            cases hEq
            exact hlt
          · simp only [hget] at hEq
            exact ih _ _ _ hEq
      · cases hEq

/-- Without an index block a read fails, or returns too little. -/
theorem readBlocks_of_no_index (hoff : index < 10 → (s.openFileTable h).ofOffset ≤ 272384)
    (hindex : dataBlockGet (s.inodeTable i).iIndexBlock = none)
    (hr : readBlocks h i n index s = (r, out, t)) (hout : out.length = n) : r = -1 := by
  unfold readBlocks at hr
  by_cases hten : index < 10
  · rcases hloop : readLoop (directSlots i) (fun read => n - read) h n (directBlocksQuantity - index) index
      [] s with ⟨out₁, t₁⟩ | ⟨index₁, out₁, t₁⟩
    · rw [hloop] at hr
      cases hr
      -- the first loop returns before it has read `n` bytes
      have hlt := readLoop_noBlock_lt _ _ _ _ hloop
      omega
    · -- the first loop moves the handle only, so the index block is missing after it too
      have hleft : 0 + (directBlocksQuantity - index) ≤ 266 := by
        simp only [directBlocksQuantity]
        omega
      rcases readLoop_moves (h := h) (directSlots i) (fun read => n - read) n
        (directBlocksQuantity - index) index 0 [] s (hoff hten) (by simp) hleft with
        ⟨_, _, offset, _, _, hstate, _⟩
      rw [hloop] at hr hstate
      have hget : dataBlockGet (t₁.inodeTable i).iIndexBlock = none := by
        rw [show t₁ = _ from hstate]
        exact hindex
      simp only [hget] at hr
      cases hr
      rfl
  · have hdirect : directBlocksQuantity - index = 0 := directLeft_of_ge (by omega)
    simp only [hdirect, readLoop, hindex] at hr
    cases hr
    rfl

/-- A read that starts in a block that the file does not have delivers nothing. -/
theorem readBlocks_of_no_block (hn : 0 < n)
    (hblock : index < 266 → dataBlockGet (slotValue s (fileSlot i index)) = none)
    (hr : readBlocks h i n index s = (r, out, t)) : out = [] := by
  have hlt : ([] : List Byte).length < n := hn
  have hentries : indexEntries = 256 := rfl
  unfold readBlocks at hr
  by_cases hten : index < 10
  · -- a direct block: the first turn of the first loop
    have hget : dataBlockGet ((directSlots i).get s index) = none := by
      have hslot := hblock (by omega)
      rw [fileSlot, if_pos hten] at hslot
      exact hslot
    have hleft : directBlocksQuantity - index = 9 - index + 1 := by
      simp only [directBlocksQuantity]
      omega
    simp only [hleft, readLoop, if_pos hlt, hget] at hr
    cases hr
    rfl
  · -- a block of the index block: the first loop makes no turn
    have hdirect : directBlocksQuantity - index = 0 := directLeft_of_ge (by omega)
    have hindirect : indirectIndex index = index - 10 := indirectIndex_of_ge (by omega)
    simp only [hdirect, readLoop, hindirect] at hr
    rcases haddr : dataBlockGet (s.inodeTable i).iIndexBlock with _ | a
    · simp only [haddr] at hr
      cases hr
      rfl
    · simp only [haddr] at hr
      by_cases hfar : index < 266
      · have hget : dataBlockGet ((indexSlots a).get s (index - 10)) = none := by
          rcases dataBlockGet_eq_some_iff.1 haddr with ⟨c, _, hc, rfl⟩
          have hslot := hblock hfar
          rw [fileSlot, if_neg hten] at hslot
          simpa [slotValue, indexAddress, hc, indexSlots] using hslot
        have hleft : indexEntries - (index - 10) = 265 - index + 1 := by omega
        simp only [hleft, readLoop, if_pos hlt, hget] at hr
        cases hr
        rfl
      · -- past the last block no loop makes a turn
        have hleft : indexEntries - (index - 10) = 0 := by omega
        simp only [hleft, readLoop] at hr
        cases hr
        rfl

end Missing

/-! ## The law -/

section Law

variable {s : State} {h i len : ℕ}

theorem readCount_eq (hs : Shape s) (hnum : (s.openFileTable h).ofInumber = i) :
    readCount (s.inodeTable i).iSize (readStart s h) len = readLength s h len := by
  have hsize : fileSize s h = (s.inodeTable i).iSize := by rw [fileSize, hnum, Int.toNat_natCast]
  have hle : readStart s h ≤ (s.inodeTable i).iSize := by
    rw [← hsize]
    exact min_le_right _ _
  have hbound := hs.sizes i
  unfold readCount readLength
  rw [sizeSub_of_le hle (by omega), hsize]
  split <;> omega

theorem Shape.tfsRead_eq (hs : Shape s) (hh : h < 20) (hnum : (s.openFileTable h).ofInumber = i)
    (hi : i < 50) (len : ℕ) : Tfs.tfsRead h len s = some (readBlocks h i (readLength s h len)
      (readStart s h / 1024) (s.setEntry h { s.openFileTable h with ofOffset := readStart s h })) := by
  have hsize : fileSize s h = (s.inodeTable i).iSize := by rw [fileSize, hnum, Int.toNat_natCast]
  have hbound : readStart s h < 2 ^ 31 := by
    have := hs.offsets h
    unfold readStart
    omega
  have hstart : min (s.openFileTable h).ofOffset (s.inodeTable i).iSize = readStart s h := by
    rw [← hsize]
    rfl
  unfold Tfs.tfsRead
  simp only [getOpenFileEntry_natCast hh, hnum, inodeGet_natCast hi, clampOffset_eq, hstart,
    State.setEntry_openFileTable, State.setEntry_inodeTable, Function.update_self,
    blockIndex_of_lt hbound, Int.toNat_natCast, readCount_eq hs hnum]
  exact if_neg (by omega)

/-- A read delivers exactly what was asked iff it ends in the block in which it starts. -/
theorem readsExactly_iff {hist : List (State × Call)} (he : properCalls.Execution hist s)
    (hopen : HandleOpen s h) (len : ℕ) : ReadsExactly s h len ↔ WithinBlock s h len := by
  have hs := shape_of_execution he
  rcases hopen with ⟨g, hg, hgh, _⟩
  have hh : h < 20 := by omega
  rcases hs.inumbers h with ⟨i, hi, hnum⟩
  have hread := hs.tfsRead_eq hh hnum hi len
  have hoff : readStart s h ≤ 272384 * 267 := (min_le_left _ _).trans (hs.offsets h)
  unfold ReadsExactly WithinBlock
  rw [hread, hnum, Int.toNat_natCast]
  simp only [Option.some.injEq, blockSize, directBlocksQuantity]
  generalize readStart s h = o at hoff ⊢
  generalize readLength s h len = n
  generalize hu : s.setEntry h { s.openFileTable h with ofOffset := o } = u
  have hou : (u.openFileTable h).ofOffset = o := by simp [← hu]
  have hslot : ∀ x, slotValue u x = slotValue s x := by
    intro x
    rw [← hu, slotValue_setEntry]
  have hnode : u.inodeTable = s.inodeTable := by
    rw [← hu]
    rfl
  have hentries : indexEntries = 256 := rfl
  constructor
  · intro hEq
    have hlen : ((List.range n).map fun k => byteAt s i (o + k)).length = n := by simp
    -- the second loop looks the index block up even when it has nothing to read
    have hindex : validBlockNumber (s.inodeTable i).iIndexBlock = true := by
      by_contra hinvalid
      have hnone : dataBlockGet (u.inodeTable i).iIndexBlock = none := by
        rw [hnode, dataBlockGet, if_neg hinvalid]
      have hfail := readBlocks_of_no_index (by omega) hnone hEq hlen
      omega
    refine ⟨hindex, ?_⟩
    by_cases hzero : n = 0
    · exact Or.inl hzero
    right
    -- the first turn must find a block
    have hblock : ¬ (o / 1024 < 266 → dataBlockGet (slotValue u (fileSlot i (o / 1024))) = none) := by
      intro hnone
      have hnil := readBlocks_of_no_block (by omega) hnone hEq
      rw [hnil, List.length_nil] at hlen
      omega
    rcases Classical.not_imp.1 hblock with ⟨hfar, hsome⟩
    rw [hslot] at hsome
    have hvalid : validBlockNumber (slotValue s (fileSlot i (o / 1024))) = true := by
      by_contra hinvalid
      exact hsome (by rw [dataBlockGet, if_neg hinvalid])
    refine ⟨by omega, ?_, hvalid⟩
    by_contra hlong
    -- a read that goes on in a second block advances the offset too far
    have hrangeI := validBlockNumber_iff.1 hindex
    have hrangeB := validBlockNumber_iff.1 hvalid
    have hbeyond := readBlocks_several (a := (s.inodeTable i).iIndexBlock.toNat)
      (b := (slotValue s (fileSlot i (o / 1024))).toNat) hou (by omega) (by omega) (by omega)
      (by rw [hnode]; omega) (by omega) (by rw [hslot]; omega) hEq hlen
    simp at hbeyond
  · rintro ⟨hindex, hcase⟩
    have hrangeI := validBlockNumber_iff.1 hindex
    by_cases hzero : n = 0
    · subst hzero
      have hget : dataBlockGet (u.inodeTable i).iIndexBlock =
          some ((s.inodeTable i).iIndexBlock.toNat * 1024) := by
        rw [hnode, dataBlockGet, if_pos hindex]
      rw [readBlocks_zero_of_index hget, ← hu]
      rfl
    · rcases hcase.resolve_left hzero with ⟨hfar, hfit, hvalid⟩
      have hrangeB := validBlockNumber_iff.1 hvalid
      -- one turn, in one of the loops, delivers it all
      rw [readBlocks_of_value (a := (s.inodeTable i).iIndexBlock.toNat)
        (b := (slotValue s (fileSlot i (o / 1024))).toNat) (by omega) (by rw [hnode]; omega) hou
        (by omega) (by omega) hfit (by omega) (by rw [hslot]; omega)]
      have hbyte : ∀ p, byteAt u i p = byteAt s i p := by
        intro p
        rw [← hu, byteAt_setEntry]
      simp only [hbyte]
      simp [← hu, State.setEntry]

instance (s : State) (h len : ℕ) : Decidable (WithinBlock s h len) :=
  inferInstanceAs (Decidable (_ ∧ _))

/-- Fill the first block of `/a`, write one byte to the second, and open the file again. -/
def twoBlocks : List Call :=
  [.open (some slashA) tfsOCreat, .write 0 (fun _ => 0x41) 1024, .write 0 (fun _ => 0x42) 1,
    .open (some slashA) 0]

theorem performAll_twoBlocks_within :
    (System.performAll (fileSystem.record OnOpenHandle) twoBlocks ([], tfsInit.2)).any
      (fun x => HandleOpen x.2 (1 : ℕ) ∧ WithinBlock x.2 1 1024) = true := by
  rw [tfsInit_eq]
  decide +kernel

theorem readsExactly_iff_twoBlocks : ∃ hist s, properCalls.Execution hist s ∧
    hist.map Prod.snd = twoBlocks.reverse ∧ ReadsExactly s 1 1024 := by
  rcases Machine.execution_of_any performAll_twoBlocks_within with ⟨hist, s, he, hlabels, hopen, hwithin⟩
  exact ⟨hist, s, he, hlabels, (readsExactly_iff he hopen 1024).2 hwithin⟩

/-- Reading the whole file of 1025 bytes through handle 1 leaves the handle at 2049. -/
def ReadsTooFar (s : State) : Prop :=
  HandleOpen s (1 : ℕ) ∧ (readStart s 1 = 0 ∧ readLength s 1 1025 = 1025) ∧
    (tfsRead 1 1025 s).any (fun x =>
      x.1 = 1025 && decide ((x.2.2.openFileTable 1).ofOffset = 2049)) = true

instance (s : State) : Decidable (ReadsTooFar s) :=
  inferInstanceAs (Decidable (_ ∧ _))

theorem performAll_twoBlocks_tooFar :
    (System.performAll (fileSystem.record OnOpenHandle) twoBlocks ([], tfsInit.2)).any
      (fun x => ReadsTooFar x.2) = true := by
  rw [tfsInit_eq]
  decide +kernel

theorem longRead_moves_too_far : ∃ hist s, properCalls.Execution hist s ∧
    hist.map Prod.snd = twoBlocks.reverse ∧ ReadsTooFar s ∧ ¬ ReadsExactly s 1 1025 := by
  rcases Machine.execution_of_any performAll_twoBlocks_tooFar with ⟨hist, s, he, hlabels, hP⟩
  refine ⟨hist, s, he, hlabels, hP, ?_⟩
  rcases hP with ⟨_, ⟨hstart, hlength⟩, hread⟩
  rcases (Option.any_eq_true _ _).1 hread with ⟨⟨r, out, t⟩, hEq, hoff⟩
  have hoff : (t.openFileTable 1).ofOffset = 2049 := of_decide_eq_true (Bool.and_eq_true_iff.1 hoff).2
  intro hexact
  unfold ReadsExactly at hexact
  have hread : tfsRead (1 : ℕ) 1025 s = some (r, out, t) := hEq
  rw [hread, Option.some.injEq, Prod.mk.injEq, Prod.mk.injEq] at hexact
  rw [hexact.2.2] at hoff
  simp only at hstart hlength
  rw [State.setEntry_openFileTable, Function.update_self, hstart, hlength] at hoff
  cases hoff

end Law

end Tfs
end TecnicoFs
