import TecnicoFs.Server.Effects

/-!
# Server failed opens — what an open that gives no handle leaves behind

Adding the handle is the last step of `tfs_open`, and it fails when no entry of the open file table is free.
By then a new file was created, which the note in the code announces, and an existing one was truncated,
which nothing announces: the caller gets -1 and the bytes are gone.
-/

namespace TecnicoFs
namespace Server

open Lib

/-! ## Runs that may be shutting down -/

/-- A step of a run: a call of the library, or the store of `set_state_closing`. -/
inductive Event
  | call (a : Call)
  | setClosing

/-- Runs from `tfs_init` whose reads and writes use open handles, and in which a shutdown may begin at any
moment. -/
def closableCalls : System State Event where
  init s := s = tfsInit.2
  step s e t := match e with
    | .call a => OnOpenHandle s a ∧ ∃ reply, exec a s = some (reply, t)
    | .setClosing => t = setStateClosing s

section Runs

variable {s t : State}

theorem Inv.setStateClosing (hs : Inv s) : Inv (setStateClosing s) :=
  hs.of_handles rfl rfl rfl hs.handles

theorem inv_of_closable (hr : closableCalls.Reachable s) : Inv s := by
  apply hr.invariant
  · intro s hinit
    rw [show s = tfsInit.2 from hinit]
    exact inv_tfsInit
  · intro s e t hs hstep
    cases e with
    | call a =>
        rcases hstep with ⟨hok, reply, hexec⟩
        exact hs.exec hok hexec
    | setClosing =>
        rw [show t = Server.setStateClosing s from hstep]
        exact hs.setStateClosing

/-- The runs without a shutdown are among them. -/
theorem closable_of_execution {h : List (State × Call)} (he : properCalls.Execution h s) :
    closableCalls.Execution (h.map fun p => (p.1, .call p.2)) s :=
  he.map (f := id) (g := fun _ a => Event.call a) (fun _ hinit => hinit) fun _ _ _ hstep => hstep

theorem closable_of_reachable (hr : properCalls.Reachable s) : closableCalls.Reachable s := by
  rcases hr with ⟨h, he⟩
  exact ⟨_, closable_of_execution he⟩

end Runs

/-! ## Statement -/

/-- Each file of `s` has in `t` the name, the size and the bytes it had. -/
def KeepsFiles (s t : State) : Prop :=
  ∀ i name, NamedAs s i name →
    NamedAs t i name ∧ (t.inodeTable i).iSize = (s.inodeTable i).iSize ∧ fileBytes t i = fileBytes s i

/-- Neither allocation map changed. -/
def KeepsMaps (s t : State) : Prop :=
  t.freeinodeTs = s.freeinodeTs ∧ t.disk.freeBlocks = s.disk.freeBlocks

/-- Only the open file table was full, and the missing file was created without a byte. -/
def CreatedEmpty (path : Path) (s t : State) : Prop :=
  (∀ h < maxOpenFiles, s.freeOpenFileEntries h = .taken) ∧ tfsLookupUnsynchronized path s = -1 ∧
    ∃ i < inodeTableSize, s.freeinodeTs i = .free ∧
      t.freeinodeTs = Function.update s.freeinodeTs i .taken ∧ t.disk.freeBlocks = s.disk.freeBlocks ∧
      (t.inodeTable i).iSize = 0 ∧
      ∃ name, afterSlash path = some name ∧ NamedAs t i (cutName name)

/-- What is asked of an open that fails. -/
def DestroysNothing (path : Path) (s t : State) : Prop :=
  KeepsFiles s t ∧ (KeepsMaps s t ∨ CreatedEmpty path s t)

/-- The open is made while the server runs, asks for a truncation, and its path names a file with bytes. -/
def CutsFile (path : Path) (flags : ℤ) (s : State) : Prop :=
  s.stateClosing = false ∧ hasFlag flags tfsOTrunc ∧
    ∃ i : ℕ, tfsLookupUnsynchronized path s = i ∧ 0 < (s.inodeTable i).iSize

/-! ## The ways to fail -/

section Failures

variable {s t : State} {path : Path} {flags : ℤ} {i k : ℕ}

theorem keepsFiles_refl (s : State) : KeepsFiles s s :=
  fun _ _ hn => ⟨hn, rfl, rfl⟩

theorem destroysNothing_refl (path : Path) (s : State) : DestroysNothing path s s :=
  ⟨keepsFiles_refl s, Or.inl ⟨rfl, rfl⟩⟩

/-- A failed `add_to_open_file_table` found every entry taken. -/
theorem addToOpenFileTable_full {inumber : ℤ} {offset : ℕ}
    (h : (addToOpenFileTable inumber offset s).1 = -1) :
    (∀ h < maxOpenFiles, s.freeOpenFileEntries h = .taken) ∧
      (addToOpenFileTable inumber offset s).2 = s := by
  rcases addToOpenFileTable_cases inumber offset s with ⟨g, _, _, _, hEq⟩ | ⟨hfull, hEq⟩
  · rw [hEq] at h
    simp only at h
    omega
  · exact ⟨hfull, by rw [hEq]⟩

/-- Undoing the creation of an i-node leaves the files and the maps. -/
theorem Inv.destroysNothing_undone (hs : Inv s) (path : Path) (hfree : s.freeinodeTs i = .free) :
    DestroysNothing path s ((Server.createdInode s i).markInode i .free) := by
  refine ⟨?_, Or.inl ⟨?_, rfl⟩⟩
  · intro j name hj
    have hji : j ≠ i := by
      rintro rfl
      exact hs.not_named_of_free hfree hj.named
    refine ⟨hj, ?_, ?_⟩
    · simp [Server.createdInode, hji]
    · exact hs.fileBytes_createdInode hfree hj.named
  · simp [Server.createdInode, ← hfree]

/-- A file that was created and got no handle is empty, and no other file changed. -/
theorem Inv.destroysNothing_created (hs : Inv s) {name : CString} (hi : i < 50)
    (hfree : s.freeinodeTs i = .free) (hname : afterSlash path = some name)
    (hlookup : tfsLookupUnsynchronized path s = -1) (hk : k < 23) (hempty : ¬ EntryUsed s.disk.fsData 0 k)
    (hfull : ∀ h < maxOpenFiles, s.freeOpenFileEntries h = .taken) :
    DestroysNothing path s (Server.namedInode (Server.createdInode s i) k i name) := by
  have hcreated := hs.createdInode hi hfree
  refine ⟨?_, Or.inr ⟨hfull, hlookup, i, hi, hfree, rfl, rfl, ?_, name, hname, ?_⟩⟩
  · intro j old hj
    have hji : j ≠ i := by
      rintro rfl
      exact hs.not_named_of_free hfree hj.named
    refine ⟨?_, by simp [Server.namedInode, Server.createdInode, hji], ?_⟩
    · -- the entry of an older file is not the one that was filled
      rcases hj with ⟨l, hl, hused, hnum, hold⟩
      have hlk : l ≠ k := fun h => hempty (h ▸ hused)
      exact ⟨l, hl, (entryUsed_namedInode hi).2 (Or.inr hused), (dInumber_namedInode_of_ne hlk).trans hnum,
        (entryName_fillEntry_of_ne hlk).trans hold⟩
    · rw [← hs.fileBytes_createdInode hfree hj.named]
      exact fileBytes_of_data hcreated hj.named rfl fun a ha => fillEntry_of_disjoint (by omega)
  · simp [Server.namedInode, Server.createdInode]
  · exact ⟨k, hk, (entryUsed_namedInode hi).2 (Or.inl rfl), dInumber_namedInode_self hi,
      entryName_fillEntry_self⟩

/-- A truncation that was made is not undone. -/
theorem not_keepsFiles_truncateIf (hi : Named s i) (hflag : hasFlag flags tfsOTrunc)
    (hsize : 0 < (s.inodeTable i).iSize) : ¬ KeepsFiles s (truncateIf flags i s) := by
  intro hkeep
  rcases hi with ⟨k, hk, hused, hnum⟩
  have hbytes := (hkeep i _ ⟨k, hk, hused, hnum, rfl⟩).2.2
  rw [fileBytes_truncateIf_self, if_pos hflag] at hbytes
  have hlength : (fileBytes s i).length = 0 := by rw [← hbytes, List.length_nil]
  rw [length_fileBytes] at hlength
  omega

theorem truncateIf_of_not (hnot : ¬ (hasFlag flags tfsOTrunc ∧ 0 < (s.inodeTable i).iSize)) :
    truncateIf flags i s = s :=
  if_neg hnot

end Failures

/-! ## The exact condition -/

/-- A failed open destroys nothing, unless it is asked to truncate a file that has bytes. -/
theorem failed_open_destroysNothing_iff {s t : State} {path : Path} {flags : ℤ}
    (hr : closableCalls.Reachable s) (h : tfsOpen path flags s = some (-1, t)) :
    DestroysNothing path s t ↔ ¬ CutsFile path flags s := by
  have hs := inv_of_closable hr
  have heffect := hs.open_effect h
  generalize hreply : (⟨-1, []⟩ : Reply) = reply at heffect
  cases heffect with
  | notOpened hwhy =>
      refine ⟨?_, fun _ => destroysNothing_refl path s⟩
      rintro - ⟨hrunning, _, i, hlookup, _⟩
      rcases hwhy with hclosing | hmissing
      · rw [hrunning] at hclosing
        cases hclosing
      · omega
  | @found _ _ i hrunning hlookup hi =>
      -- the file was found, and cut if the flags say so; then no handle was free
      have hfailed := congrArg Reply.ret hreply
      rcases addToOpenFileTable_full hfailed.symm with ⟨_, hstate⟩
      rw [hstate]
      constructor
      · rintro ⟨hkeep, _⟩ ⟨_, hflag, j, hj, hsize⟩
        have hji : j = i := by omega
        subst hji
        exact not_keepsFiles_truncateIf hi hflag hsize hkeep
      · intro hnot
        rw [truncateIf_of_not fun hcut => hnot ⟨hrunning, hcut.1, i, hlookup, hcut.2⟩]
        exact destroysNothing_refl path s
  | notCreated hlookup hi hfree =>
      -- the directory is full: the new i-node is freed again
      refine ⟨?_, fun _ => hs.destroysNothing_undone path hfree⟩
      rintro - ⟨_, _, j, hj, _⟩
      omega
  | created hlookup hi hfree hname _ hk hempty _ =>
      -- the file was created and got no handle; no existing file was cut
      have hfailed := congrArg Reply.ret hreply
      rcases addToOpenFileTable_full hfailed.symm with ⟨hfull, hstate⟩
      rw [hstate]
      refine ⟨?_, fun _ => hs.destroysNothing_created hi hfree hname hlookup hk hempty hfull⟩
      rintro - ⟨_, _, j, hj, _⟩
      omega

/-- Write a byte to `/a`, and open it until no handle is left. -/
def takeAllHandles : List Call :=
  [.open (some slashA) tfsOCreat, .write 0 (fun _ => 0x41) 1] ++
    List.replicate 19 (.open (some slashA) 0)

/-- `/a` has its byte, and both an open and a truncating open of it give -1; the second leaves it empty. -/
def LosesA (s : State) : Prop :=
  (EntryUsed s.disk.fsData 0 0 ∧ dInumber s.disk.fsData 0 0 = 1) ∧
    (s.stateClosing = false ∧ tfsLookupUnsynchronized (some slashA) s = 1 ∧ (s.inodeTable 1).iSize = 1) ∧
    ((tfsOpen (some slashA) 0 s).any fun x => x.1 = -1) = true ∧
    ((tfsOpen (some slashA) tfsOTrunc s).any fun x => x.1 = -1 ∧ (x.2.inodeTable 1).iSize = 0) = true

instance (s : State) : Decidable (LosesA s) :=
  inferInstanceAs (Decidable (_ ∧ _))

theorem performAll_takeAllHandles :
    (System.performAll (library.record OnOpenHandle) takeAllHandles ([], tfsInit.2)).any
      (LosesA ·.2) = true := by
  rw [tfsInit_eq]
  decide +kernel

/-- With no handle left, an open of `/a` fails and destroys nothing, and one that truncates it does. -/
theorem failed_open_destroysNothing_iff_takeAllHandles : ∃ s t u, closableCalls.Reachable s ∧
    (tfsOpen (some slashA) 0 s = some (-1, t) ∧ DestroysNothing (some slashA) s t) ∧
    tfsOpen (some slashA) tfsOTrunc s = some (-1, u) ∧ ¬ DestroysNothing (some slashA) s u := by
  rcases Machine.execution_of_any performAll_takeAllHandles with
    ⟨h, s, he, _, _, ⟨hrunning, hlookup, hsize⟩, hplain, htrunc⟩
  rcases (Option.any_eq_true _ _).1 hplain with ⟨⟨r, t⟩, ht, hr⟩
  rcases (Option.any_eq_true _ _).1 htrunc with ⟨⟨r', u⟩, hu, hlost⟩
  obtain rfl : r = -1 := of_decide_eq_true hr
  obtain rfl : r' = -1 := (of_decide_eq_true hlost).1
  have hreach := closable_of_reachable ⟨h, he⟩
  have hcuts : CutsFile (some slashA) tfsOTrunc s := by
    have hpos : 0 < (s.inodeTable 1).iSize := by
      rw [show (s.inodeTable 1).iSize = 1 from hsize]
      exact one_pos
    exact ⟨hrunning, by decide, 1, hlookup, hpos⟩
  have hkeeps : ¬ CutsFile (some slashA) 0 s := by
    rintro ⟨_, hflag, _⟩
    exact absurd hflag (by decide)
  exact ⟨s, t, u, hreach, ⟨ht, (failed_open_destroysNothing_iff hreach ht).2 hkeeps⟩, hu,
    fun hnothing => (failed_open_destroysNothing_iff hreach hu).1 hnothing hcuts⟩

theorem failed_open_destroys : ∃ s t, closableCalls.Reachable s ∧
    tfsOpen (some slashA) tfsOTrunc s = some (-1, t) ∧ ¬ DestroysNothing (some slashA) s t := by
  rcases Machine.execution_of_any performAll_takeAllHandles with
    ⟨h, s, he, _, ⟨hused, hnum⟩, ⟨_, _, hsize⟩, _, hopen⟩
  rcases (Option.any_eq_true _ _).1 hopen with ⟨⟨r, t⟩, hEq, hlost⟩
  rcases of_decide_eq_true hlost with ⟨hr, hzero⟩
  simp only at hr hzero
  subst hr
  refine ⟨s, t, closable_of_reachable ⟨h, he⟩, hEq, ?_⟩
  rintro ⟨hkeep, _⟩
  have hkept : (t.inodeTable 1).iSize = (s.inodeTable 1).iSize :=
    (hkeep 1 _ ⟨0, by omega, hused, hnum, rfl⟩).2.1
  have hcut : (t.inodeTable 1).iSize = 0 := hzero
  have hbyte : (s.inodeTable 1).iSize = 1 := hsize
  omega

end Server
end TecnicoFs
