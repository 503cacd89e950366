import Mathlib.Data.Finset.Card
import Mathlib.Order.Interval.Finset.Nat
import TecnicoFs.Server.Ownership

/-!
# Server open files — the table of open files and its counter

`open_files_number` counts the TAKEN entries of `free_open_file_entries`. A call of the library adds one
entry, removes one, or leaves both the table and the counter, and no call changes `state_closing`.
-/

namespace TecnicoFs
namespace Server

open Lib

/-! ## Entries that are TAKEN -/

def takenHandles (s : State) : Finset ℕ :=
  (Finset.range maxOpenFiles).filter fun h => s.freeOpenFileEntries h = .taken

/-- The counter is right. -/
def Counted (s : State) : Prop :=
  s.openFilesNumber = (takenHandles s).card

section Handles

variable {s t : State} {h : ℕ}

theorem mem_takenHandles : h ∈ takenHandles s ↔ h < maxOpenFiles ∧ s.freeOpenFileEntries h = .taken := by
  simp [takenHandles]

theorem takenHandles_taken (hh : h < maxOpenFiles)
    (ht : t.freeOpenFileEntries = Function.update s.freeOpenFileEntries h .taken) :
    takenHandles t = insert h (takenHandles s) := by
  ext g
  rw [Finset.mem_insert, mem_takenHandles, mem_takenHandles, ht]
  by_cases hg : g = h
  · simp [hg, hh]
  · simp [hg]

theorem takenHandles_free (ht : t.freeOpenFileEntries = Function.update s.freeOpenFileEntries h .free) :
    takenHandles t = (takenHandles s).erase h := by
  ext g
  rw [Finset.mem_erase, mem_takenHandles, mem_takenHandles, ht]
  by_cases hg : g = h
  · simp [hg]
  · simp [hg]

theorem Counted.range (hs : Counted s) : 0 ≤ s.openFilesNumber ∧ s.openFilesNumber ≤ maxOpenFiles := by
  have hle : (takenHandles s).card ≤ (Finset.range maxOpenFiles).card :=
    Finset.card_le_card (Finset.filter_subset _ _)
  rw [Finset.card_range] at hle
  rw [hs]
  exact ⟨Int.natCast_nonneg _, Int.ofNat_le.2 hle⟩

/-- The counter is 0 where no entry is TAKEN, and only there. -/
theorem Counted.eq_zero_iff (hs : Counted s) :
    s.openFilesNumber = 0 ↔ ∀ h < maxOpenFiles, s.freeOpenFileEntries h = .free := by
  rw [hs, Int.natCast_eq_zero, Finset.card_eq_zero, Finset.eq_empty_iff_forall_notMem]
  constructor
  · intro hnone h hh
    exact AllocationState.ne_taken.1 fun htaken => hnone h (mem_takenHandles.2 ⟨hh, htaken⟩)
  · intro hfree h hmem
    rcases mem_takenHandles.1 hmem with ⟨hh, htaken⟩
    rw [hfree h hh] at htaken
    cases htaken

end Handles

/-! ## What a call does to the table -/

/-- The table, its counter and the flag are the same. -/
structure SameTable (s t : State) : Prop where
  entries : t.freeOpenFileEntries = s.freeOpenFileEntries
  number : t.openFilesNumber = s.openFilesNumber
  closing : t.stateClosing = s.stateClosing

/-- One entry becomes TAKEN, or the table stays. -/
inductive TableGrowth (s t : State) : Prop
  | same : SameTable s t → TableGrowth s t
  | added (h : ℕ) : h < maxOpenFiles → s.freeOpenFileEntries h = .free →
      t.freeOpenFileEntries = Function.update s.freeOpenFileEntries h .taken →
      t.openFilesNumber = s.openFilesNumber + 1 → t.stateClosing = s.stateClosing → TableGrowth s t

/-- The table grows, or one entry becomes FREE. -/
inductive TableChange (s t : State) : Prop
  | grown : TableGrowth s t → TableChange s t
  | removed (h : ℕ) : h < maxOpenFiles → s.freeOpenFileEntries h = .taken →
      t.freeOpenFileEntries = Function.update s.freeOpenFileEntries h .free →
      t.openFilesNumber = s.openFilesNumber - 1 → t.stateClosing = s.stateClosing → TableChange s t

section Calls

variable {s t u : State} {r : ℤ}

theorem SameTable.refl (s : State) : SameTable s s :=
  ⟨rfl, rfl, rfl⟩

theorem SameTable.trans (hst : SameTable s t) (htu : SameTable t u) : SameTable s u :=
  ⟨htu.entries.trans hst.entries, htu.number.trans hst.number, htu.closing.trans hst.closing⟩

theorem TableGrowth.closing (h : TableGrowth s t) : t.stateClosing = s.stateClosing := by
  cases h with
  | same hsame => exact hsame.closing
  | added _ _ _ _ _ hclosing => exact hclosing

theorem TableGrowth.number_le (h : TableGrowth s t) : s.openFilesNumber ≤ t.openFilesNumber := by
  cases h with
  | same hsame => exact hsame.number.ge
  | added _ _ _ _ hnumber _ => omega

theorem TableGrowth.of_same (hst : SameTable s t) (h : TableGrowth t u) : TableGrowth s u := by
  cases h with
  | same hsame => exact .same (hst.trans hsame)
  | added h hh hfree hentries hnumber hclosing =>
      rw [hst.entries] at hfree hentries
      exact .added h hh hfree hentries (by rw [hnumber, hst.number]) (hclosing.trans hst.closing)

theorem TableChange.closing (h : TableChange s t) : t.stateClosing = s.stateClosing := by
  cases h with
  | grown hgrowth => exact hgrowth.closing
  | removed _ _ _ _ _ hclosing => exact hclosing

theorem Counted.growth (hs : Counted s) (h : TableGrowth s t) : Counted t := by
  unfold Counted at hs ⊢
  cases h with
  | same hsame => rw [hsame.number, hs, takenHandles, takenHandles, hsame.entries]
  | added h hh hfree hentries hnumber =>
      have hnew : h ∉ takenHandles s := by
        intro hmem
        rw [(mem_takenHandles.1 hmem).2] at hfree
        cases hfree
      rw [hnumber, hs, takenHandles_taken hh hentries, Finset.card_insert_of_notMem hnew]
      omega

/-- A change of the table keeps the counter right. -/
theorem Counted.change (hs : Counted s) (h : TableChange s t) : Counted t := by
  cases h with
  | grown hgrowth => exact hs.growth hgrowth
  | removed h hh htaken hentries hnumber =>
      have hmem : h ∈ takenHandles s := mem_takenHandles.2 ⟨hh, htaken⟩
      have hpos : 0 < (takenHandles s).card := Finset.card_pos.2 ⟨h, hmem⟩
      unfold Counted at hs ⊢
      rw [hnumber, hs, takenHandles_free hentries, Finset.card_erase_of_mem hmem]
      omega

theorem addToOpenFileTable_growth (inumber : ℤ) (offset : ℕ) (s : State) :
    TableGrowth s (addToOpenFileTable inumber offset s).2 := by
  rcases addToOpenFileTable_cases inumber offset s with ⟨h, hh, hfree, _, hEq⟩ | ⟨_, hEq⟩
  · rw [hEq]
    exact .added h hh hfree rfl rfl rfl
  · rw [hEq]
    exact .same (.refl s)

theorem removeFromOpenFileTable_change (fhandle : ℤ) (s : State) :
    TableChange s (removeFromOpenFileTable fhandle s).2 := by
  rcases removeFromOpenFileTable_cases fhandle s with ⟨h, hh, _, htaken, hEq⟩ | ⟨_, hEq⟩
  · rw [hEq]
    exact .removed h hh htaken rfl rfl rfl
  · rw [hEq]
    exact .grown (.same (.refl s))

theorem openExisting_growth (inum flags : ℤ) (s : State) :
    TableGrowth s (openExisting inum flags s).2 := by
  unfold openExisting truncateFile
  rcases inodeGet inum with _ | i
  · exact .same (.refl s)
  · by_cases htrunc : hasFlag flags tfsOTrunc ∧ (s.inodeTable i).iSize > 0
    · rcases hfree : s.disk.dataBlockFree (s.inodeTable i).iDataBlock with ⟨r, d⟩
      by_cases hfail : r = -1
      · simp only [htrunc, hfree, hfail, and_self, if_true]
        exact .same ⟨rfl, rfl, rfl⟩
      · simp only [htrunc, hfree, hfail, and_self, if_true, if_false]
        refine TableGrowth.of_same ?_ (addToOpenFileTable_growth inum _ _)
        exact ⟨rfl, rfl, rfl⟩
    · simp only [htrunc, if_false]
      exact (addToOpenFileTable_growth inum _ s).of_same (.refl s)

theorem sameTable_addDirEntry {inumber subInumber : ℤ} {subName : Option CString}
    (h : addDirEntry inumber subInumber subName s = some (r, t)) : SameTable s t := by
  unfold addDirEntry at h
  repeat' split at h
  all_goals first
    | (cases h; exact ⟨rfl, rfl, rfl⟩)
    | cases h

theorem sameTable_inodeDelete (inumber : ℤ) (s : State) : SameTable s (inodeDelete inumber s).2 := by
  unfold inodeDelete
  split
  · exact .refl s
  · dsimp only
    split
    · exact ⟨rfl, rfl, rfl⟩
    · exact ⟨rfl, rfl, rfl⟩

theorem openCreate_growth {path : Path} (h : openCreate path s = some (r, t)) : TableGrowth s t := by
  unfold openCreate at h
  rcases inodeCreate_file_cases s with ⟨i, _, _, hEq⟩ | ⟨_, hEq⟩
  · have hne : (i : ℤ) ≠ -1 := by omega
    simp only [hEq, hne, if_false] at h
    rcases hadd : addDirEntry rootDirInum i (afterSlash path) (createdInode s i) with _ | ⟨r₁, t₁⟩
    · rw [hadd] at h
      exact absurd h (by simp)
    · simp only [hadd] at h
      have hcreated : SameTable s (createdInode s i) := ⟨rfl, rfl, rfl⟩
      have hsame := hcreated.trans (sameTable_addDirEntry hadd)
      by_cases hfail : r₁ = -1
      · simp only [hfail, if_true, Option.some.injEq, Prod.mk.injEq] at h
        rw [← h.2]
        exact .same (hsame.trans (sameTable_inodeDelete i t₁))
      · simp only [hfail, if_false, Option.some.injEq] at h
        have hopen := (addToOpenFileTable_growth i 0 t₁).of_same hsame
        rwa [h] at hopen
  · simp only [hEq, if_true, Option.some.injEq, Prod.mk.injEq] at h
    rw [← h.2]
    exact .same (.refl s)

theorem tfsOpenUnsynchronized_growth {path : Path} {flags : ℤ}
    (h : tfsOpenUnsynchronized path flags s = some (r, t)) : TableGrowth s t := by
  unfold tfsOpenUnsynchronized at h
  by_cases hfound : tfsLookupUnsynchronized path s ≥ 0
  · simp only [hfound, if_true, Option.some.injEq] at h
    have hopen := openExisting_growth (tfsLookupUnsynchronized path s) flags s
    rwa [h] at hopen
  · simp only [hfound, if_false] at h
    by_cases hcreate : hasFlag flags tfsOCreat = true
    · simp only [hcreate, if_true] at h
      exact openCreate_growth h
    · simp only [hcreate, if_false, Option.some.injEq, Prod.mk.injEq, Bool.false_eq_true] at h
      rw [← h.2]
      exact .same (.refl s)

theorem sameTable_allocIfEmpty (i : ℕ) (s : State) : SameTable s (allocIfEmpty i s) := by
  rcases allocIfEmpty_cases i s with ⟨_, hEq⟩ | ⟨_, b, _, _, hEq⟩ | ⟨_, _, hEq⟩
  · rw [hEq]
    exact .refl s
  · rw [hEq]
    exact ⟨rfl, rfl, rfl⟩
  · rw [hEq]
    exact ⟨rfl, rfl, rfl⟩

theorem sameTable_storeBytes (h i a n : ℕ) (buffer : ℕ → Byte) (s : State) :
    SameTable s (storeBytes h i a buffer n s) := by
  unfold storeBytes
  dsimp only
  split
  · exact ⟨rfl, rfl, rfl⟩
  · exact ⟨rfl, rfl, rfl⟩

/-- Only `tfs_close` removes an entry. -/
theorem exec_growth {a : Call} {reply : Reply} (ha : ∀ fhandle, a ≠ .close fhandle)
    (h : exec a s = some (reply, t)) : TableGrowth s t := by
  cases a with
  | «open» name flags =>
      rcases Option.map_eq_some_iff.1 h with ⟨⟨r, s'⟩, hopen, hEq⟩
      cases hEq
      unfold tfsOpen at hopen
      split at hopen
      · cases hopen
        exact .same (.refl s)
      · exact tfsOpenUnsynchronized_growth hopen
  | close fhandle => exact absurd rfl (ha fhandle)
  | write fhandle buffer n =>
      rcases Option.map_eq_some_iff.1 h with ⟨⟨r, s'⟩, hwrite, hEq⟩
      cases hEq
      rcases tfsWriteUnsynchronized_cases hwrite with ⟨_, _, rfl⟩ | ⟨h, _, _, hcases⟩
      · exact .same (.refl s')
      rcases hcases with ⟨_, _, rfl⟩ | ⟨i, _, _, hcases⟩
      · exact .same (.refl s')
      -- no byte to store, no block for them, or the bytes are stored
      rcases hcases with ⟨_, _, rfl⟩ | ⟨_, _, _, rfl⟩ | ⟨b, _, _, _, _, _, rfl⟩
      · exact .same (.refl s')
      · exact .same (sameTable_allocIfEmpty i s)
      · exact .same ((sameTable_allocIfEmpty i s).trans (sameTable_storeBytes _ _ _ _ _ _))
  | read fhandle n =>
      rcases Option.map_eq_some_iff.1 h with ⟨⟨r, out, s'⟩, hread, hEq⟩
      cases hEq
      rcases tfsReadUnsynchronized_cases hread with ⟨_, _, _, rfl⟩ | ⟨h, _, _, hcases⟩
      · exact .same (.refl s')
      rcases hcases with ⟨_, _, _, rfl⟩ | ⟨i, _, _, hcases⟩
      · exact .same (.refl s')
      rcases hcases with ⟨_, _, _, rfl⟩ | ⟨_, _, _, _, rfl⟩ | ⟨b, _, _, _, _, _, _, rfl⟩
      · exact .same (.refl s')
      · exact .same (.refl s')
      · exact .same ⟨rfl, rfl, rfl⟩

theorem exec_change {a : Call} {reply : Reply} (h : exec a s = some (reply, t)) : TableChange s t := by
  cases a with
  | close fhandle =>
      cases h
      exact removeFromOpenFileTable_change fhandle s
  | «open» name flags => exact .grown (exec_growth (fun _ => Call.noConfusion) h)
  | write fhandle buffer n => exact .grown (exec_growth (fun _ => Call.noConfusion) h)
  | read fhandle n => exact .grown (exec_growth (fun _ => Call.noConfusion) h)

/-- `tfs_init` opens no file. -/
theorem counted_tfsInit : Counted tfsInit.2 := by
  have hnone : takenHandles tfsInit.2 = ∅ := by
    rw [Finset.eq_empty_iff_forall_notMem]
    intro h hmem
    have htaken := (mem_takenHandles.1 hmem).2
    rw [tfsInit_eq] at htaken
    cases htaken
  have hzero : tfsInit.2.openFilesNumber = 0 := by
    rw [tfsInit_eq]
    rfl
  rw [Counted, hnone, hzero, Finset.card_empty]
  exact Int.ofNat_zero.symm

end Calls

end Server
end TecnicoFs
