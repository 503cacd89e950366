import TecnicoFs.Server.Refinement

/-!
# Server effects — what one call can do, and what it leaves alone

`Effect s a reply t` lists the outcomes of a call on open handles, one constructor for each way through the
code.  The laws about runs go through this list instead of through the functions.  The first of them is
isolation: a call on one file changes no other file and no entry of the root directory.
-/

namespace TecnicoFs
namespace Server

open Lib

/-! ## The outcomes of a call -/

/-- The outcomes of a call `a` made in state `s`. -/
inductive Effect (s : State) : Call → Reply → State → Prop
  | notOpened {name : Path} {flags : ℤ} :
      s.stateClosing = true ∨ tfsLookupUnsynchronized name s = -1 →
      Effect s (.open name flags) ⟨-1, []⟩ s
  | found {name : Path} {flags : ℤ} {i : ℕ} :
      s.stateClosing = false → tfsLookupUnsynchronized name s = i → Named s i →
      Effect s (.open name flags)
        ⟨(addToOpenFileTable i (openOffset flags i s) (truncateIf flags i s)).1, []⟩
        (addToOpenFileTable i (openOffset flags i s) (truncateIf flags i s)).2
  | notCreated {name : Path} {flags : ℤ} {i : ℕ} :
      tfsLookupUnsynchronized name s = -1 → i < 50 → s.freeinodeTs i = .free →
      Effect s (.open name flags) ⟨-1, []⟩ ((createdInode s i).markInode i .free)
  | created {name : Path} {subName : CString} {flags : ℤ} {i k : ℕ} :
      tfsLookupUnsynchronized name s = -1 → i < 50 → s.freeinodeTs i = .free →
      afterSlash name = some subName → subName.strlen ≠ 0 → k < 23 →
      ¬ EntryUsed s.disk.fsData 0 k → (∀ j < k, EntryUsed s.disk.fsData 0 j) →
      Effect s (.open name flags)
        ⟨(addToOpenFileTable i 0 (namedInode (createdInode s i) k i subName)).1, []⟩
        (addToOpenFileTable i 0 (namedInode (createdInode s i) k i subName)).2
  | notClosed {fhandle : ℤ} : Effect s (.close fhandle) ⟨-1, []⟩ s
  | closed {h : ℕ} :
      h < 20 → s.freeOpenFileEntries h = .taken →
      Effect s (.close h) ⟨0, []⟩
        { s.markHandle h .free with openFilesNumber := s.openFilesNumber - 1 }
  | wroteNothing {h n : ℕ} {buffer : ℕ → Byte} :
      writeCount (s.openFileTable h).ofOffset n = 0 → Effect s (.write h buffer n) ⟨0, []⟩ s
  | noBlock {h i n : ℕ} {buffer : ℕ → Byte} :
      (s.openFileTable h).ofInumber = i → Named s i → (s.inodeTable i).iSize = 0 →
      Effect s (.write h buffer n) ⟨-1, []⟩ (s.setInode i { s.inodeTable i with iDataBlock := -1 })
  | wrote {h i b n count : ℕ} {buffer : ℕ → Byte} {t : State} :
      h < 20 → s.freeOpenFileEntries h = .taken → (s.openFileTable h).ofInumber = i → Named s i →
      b < 1024 → count = writeCount (s.openFileTable h).ofOffset n → 0 < count →
      (s.openFileTable h).ofOffset + count ≤ 1024 → WriteEffect s h i b buffer count t →
      Effect s (.write h buffer n) ⟨count, []⟩ t
  | readNothing {h n : ℕ} {r : ℤ} : Effect s (.read h n) ⟨r, []⟩ s
  | delivered {h i b n count : ℕ} :
      h < 20 → s.freeOpenFileEntries h = .taken → (s.openFileTable h).ofInumber = i → Named s i →
      (s.inodeTable i).iDataBlock = b →
      count = readCount (s.inodeTable i).iSize (s.openFileTable h).ofOffset n → 0 < count →
      Effect s (.read h n)
        ⟨count, memread s.disk.fsData (b * 1024 + (s.openFileTable h).ofOffset) count⟩
        (s.setEntry h { s.openFileTable h with ofOffset := (s.openFileTable h).ofOffset + count })

section Outcomes

variable {s t : State} {r : ℤ}

theorem Inv.open_effect (hs : Inv s) {name : Path} {flags : ℤ}
    (h : tfsOpen name flags s = some (r, t)) : Effect s (.open name flags) ⟨r, []⟩ t := by
  unfold tfsOpen at h
  split at h
  · next hclosing =>
      cases h
      exact .notOpened (Or.inl hclosing)
  rename_i hrunning
  unfold Server.tfsOpenUnsynchronized at h
  -- the branches of tfs_open: the name is found, or it is missing and TFS_O_CREAT is looked at
  rcases tfsLookup_cases hs name with ⟨p, _, _, k, hk, hused, _, i, hnum, hEq⟩ | ⟨hEq, _⟩
  · have hfound : (i : ℤ) ≥ 0 := by omega
    have hn : Named s i := ⟨k, hk, hused, hnum⟩
    have halloc := (hs.of_named hn).2
    simp only [hEq, hfound, if_true, Option.some.injEq] at h
    rw [openExisting_eq halloc.1 (hs.valid i halloc)] at h
    have heffect : Effect s (.open name flags) _ _ :=
      .found (by simpa [stateClosingStatus] using hrunning) hEq hn
    rw [h] at heffect
    exact heffect
  · have hmiss : ¬ (-1 : ℤ) ≥ 0 := by decide
    simp only [hEq, hmiss, if_false] at h
    by_cases hcreate : hasFlag flags tfsOCreat = true
    · simp only [hcreate, if_true] at h
      rcases openCreate_cases hs h with ⟨_, rfl, rfl⟩ | ⟨i, hi, hfree, subName, hname, hcase⟩
      · exact .notOpened (Or.inr hEq)
      -- an i-node was taken; the directory entry may still be refused
      rcases hcase with ⟨_, rfl, rfl⟩ | ⟨k, hk, hunused, hbefore, hlen, hadd⟩
      · exact .notCreated hEq hi hfree
      · have heffect : Effect s (.open name flags) _ _ :=
          .created hEq hi hfree hname hlen hk hunused hbefore
        rw [← hadd] at heffect
        exact heffect
    · simp only [hcreate, if_false, Option.some.injEq, Prod.mk.injEq, Bool.false_eq_true] at h
      rw [← h.1, ← h.2]
      exact .notOpened (Or.inr hEq)

theorem close_effect (fhandle : ℤ) (s : State) :
    Effect s (.close fhandle) ⟨(tfsClose fhandle s).1, []⟩ (tfsClose fhandle s).2 := by
  unfold tfsClose
  rcases removeFromOpenFileTable_cases fhandle s with ⟨h, hh, rfl, htaken, hEq⟩ | ⟨_, hEq⟩
  · rw [hEq]
    exact .closed hh htaken
  · rw [hEq]
    exact .notClosed

theorem Inv.write_effect (hs : Inv s) {fhandle : ℤ} (hopen : HandleOpen s fhandle)
    {buffer : ℕ → Byte} {n : ℕ} (hw : Server.tfsWriteUnsynchronized fhandle buffer n s = some (r, t)) :
    Effect s (.write fhandle buffer n) ⟨r, []⟩ t := by
  rcases hs.handle_file hopen with ⟨h, hh, rfl, htaken, _, i, hnum, hi, hn⟩
  rcases tfsWriteUnsynchronized_cases hw with ⟨hout, _⟩ | ⟨h', _, hEq', hcases⟩
  · exact absurd ⟨by omega, by omega⟩ hout
  have hhEq : h' = h := by omega
  subst hhEq
  rcases hcases with ⟨hnone, _⟩ | ⟨i', _, hnum', hcases⟩
  · rw [hnum, inodeGet_natCast hi] at hnone
    cases hnone
  have hiEq : i' = i := by
    rw [hnum] at hnum'
    omega
  subst hiEq
  rcases hcases with ⟨hzero, rfl, rfl⟩ | ⟨_, hnone, rfl, rfl⟩ | ⟨b, hb, hbEq, hpos, hfit, rfl, rfl⟩
  · exact .wroteNothing hzero
  · rcases hs.dataBlockGet_none (hs.of_named hn).2 hnone with ⟨hzero, _, hstate⟩
    rw [hstate]
    exact .noBlock hnum hn hzero
  · exact .wrote hh htaken hnum hn hb rfl hpos hfit (writeEffect_storeBytes _ hbEq hfit)

theorem Inv.read_effect (hs : Inv s) {fhandle : ℤ} (hopen : HandleOpen s fhandle) {n : ℕ}
    {out : List Byte} (hr : Server.tfsReadUnsynchronized fhandle n s = some (r, out, t)) :
    Effect s (.read fhandle n) ⟨r, out⟩ t := by
  rcases hs.handle_file hopen with ⟨h, hh, rfl, htaken, _, i, hnum, _, hn⟩
  rcases tfsReadUnsynchronized_cases hr with ⟨_, rfl, rfl, rfl⟩ | ⟨h', _, hEq', hcases⟩
  · exact .readNothing
  have hhEq : h' = h := by omega
  subst hhEq
  rcases hcases with ⟨_, rfl, rfl, rfl⟩ | ⟨i', _, hnum', hcases⟩
  · exact .readNothing
  have hiEq : i' = i := by
    rw [hnum] at hnum'
    omega
  subst hiEq
  rcases hcases with ⟨_, rfl, rfl, rfl⟩ | ⟨_, _, rfl, rfl, rfl⟩ | ⟨b, _, hb, hpos, _, rfl, rfl, rfl⟩
  · exact .readNothing
  · exact .readNothing
  · exact .delivered hh htaken hnum hn hb rfl hpos

/-- A call on open handles has one of the listed outcomes. -/
theorem Inv.effect (hs : Inv s) {a : Call} (hok : OnOpenHandle s a) {reply : Reply}
    (h : Server.exec a s = some (reply, t)) : Effect s a reply t := by
  cases a with
  | «open» name flags =>
      rcases Option.map_eq_some_iff.1 h with ⟨⟨r, s'⟩, hopen, hEq⟩
      cases hEq
      exact hs.open_effect hopen
  | close fhandle =>
      cases h
      exact close_effect fhandle s
  | write fhandle buffer n =>
      rcases Option.map_eq_some_iff.1 h with ⟨⟨r, s'⟩, hwrite, hEq⟩
      cases hEq
      exact hs.write_effect hok hwrite
  | read fhandle n =>
      rcases Option.map_eq_some_iff.1 h with ⟨⟨r, out, s'⟩, hread, hEq⟩
      cases hEq
      exact hs.read_effect hok hread

end Outcomes

/-! ## Isolation -/

section Isolation

variable {s t : State} {a : Call} {reply : Reply} {i j k : ℕ}

/-- The i-node of the file that a call is about: the one that its path looks up to, or that its handle
refers to. -/
def operand (s : State) : Call → ℤ
  | .open name _ => tfsLookupUnsynchronized name s
  | .close fhandle => (s.openFileTable fhandle.toNat).ofInumber
  | .write fhandle _ _ => (s.openFileTable fhandle.toNat).ofInumber
  | .read fhandle _ => (s.openFileTable fhandle.toNat).ofInumber

@[simp] theorem addToOpenFileTable_disk (inumber : ℤ) (offset : ℕ) (s : State) :
    (addToOpenFileTable inumber offset s).2.disk = s.disk := by
  rcases addToOpenFileTable_cases inumber offset s with ⟨h, _, _, _, hEq⟩ | ⟨_, hEq⟩
  · rw [hEq]
    rfl
  · rw [hEq]

@[simp] theorem addToOpenFileTable_inodeTable (inumber : ℤ) (offset : ℕ) (s : State) :
    (addToOpenFileTable inumber offset s).2.inodeTable = s.inodeTable := by
  rcases addToOpenFileTable_cases inumber offset s with ⟨h, _, _, _, hEq⟩ | ⟨_, hEq⟩
  · rw [hEq]
    rfl
  · rw [hEq]

@[simp] theorem addToOpenFileTable_freeinodeTs (inumber : ℤ) (offset : ℕ) (s : State) :
    (addToOpenFileTable inumber offset s).2.freeinodeTs = s.freeinodeTs := by
  rcases addToOpenFileTable_cases inumber offset s with ⟨h, _, _, _, hEq⟩ | ⟨_, hEq⟩
  · rw [hEq]
    rfl
  · rw [hEq]

theorem fileBytes_addToOpenFileTable {inumber : ℤ} {offset : ℕ} :
    fileBytes (addToOpenFileTable inumber offset s).2 j = fileBytes s j := by
  simp [fileBytes]

/-- The files that existed before another one was created. -/
theorem Inv.fileBytes_createdInode (hs : Inv s) (hfree : s.freeinodeTs i = .free) (hj : Named s j) :
    fileBytes (Server.createdInode s i) j = fileBytes s j := by
  have hji : j ≠ i := by
    rintro rfl
    exact hs.not_named_of_free hfree hj
  simp [fileBytes, Server.createdInode, hji]

theorem Effect.fileBytes_eq (h : Effect s a reply t) (hs : Inv s) (hj : Named s j)
    (hother : operand s a ≠ j) : fileBytes t j = fileBytes s j := by
  cases h with
  | notOpened _ => rfl
  | found _ hlookup _ =>
      have hji : j ≠ _ := fun hEq => hother (hlookup.trans (by rw [hEq]))
      rw [fileBytes_addToOpenFileTable, fileBytes_truncateIf_of_ne hji]
  | notCreated _ _ hfree =>
      rw [← hs.fileBytes_createdInode hfree hj]
      rfl
  | created _ hi hfree _ _ _ _ _ =>
      have hcreated := hs.createdInode hi hfree
      rw [fileBytes_addToOpenFileTable, ← hs.fileBytes_createdInode hfree hj]
      -- the new entry is filled inside the directory block, which no file owns
      refine fileBytes_of_data hcreated hj rfl ?_
      intro a ha
      exact fillEntry_of_disjoint (by omega)
  | notClosed => rfl
  | closed _ _ => rfl
  | wroteNothing _ => rfl
  | noBlock hnum _ _ =>
      have hji : j ≠ _ := fun hEq => hother (by rw [hEq]; simpa [operand] using hnum)
      simp [fileBytes, hji]
  | wrote _ _ hnum hi _ _ _ hfit hw =>
      have hji : j ≠ _ := fun hEq => hother (by rw [hEq]; simpa [operand] using hnum)
      exact hw.fileBytes_of_ne hs hi hfit hji hj
  | readNothing => rfl
  | delivered _ _ _ _ _ _ _ => rfl

/-- A used entry of the root directory is never written again. -/
theorem Effect.entry_eq (h : Effect s a reply t) (hs : Inv s) (hk : k < 23)
    (hused : EntryUsed s.disk.fsData 0 k) :
    ∀ l < 44, t.disk.fsData (k * 44 + l) = s.disk.fsData (k * 44 + l) := by
  intro l hl
  cases h with
  | notOpened _ => rfl
  | found _ _ _ => simp
  | notCreated _ _ _ => rfl
  | @created _ _ _ _ k' _ _ _ _ _ _ hempty _ =>
      have hne : k ≠ k' := by
        rintro rfl
        exact hempty hused
      rw [addToOpenFileTable_disk]
      exact fillEntry_of_disjoint (by omega)
  | notClosed => rfl
  | closed _ _ => rfl
  | wroteNothing _ => rfl
  | noBlock _ _ _ => rfl
  | wrote _ _ _ hi _ _ _ _ hw =>
      have hroot := hw.sameRoot hs hi (k * 44 + l) (by omega)
      rwa [Nat.zero_add] at hroot
  | readNothing => rfl
  | delivered _ _ _ _ _ _ _ => rfl

/-- **Isolation.**  A call on one file leaves the size and the bytes of every other file, and every used
entry of the root directory, exactly as they were. -/
theorem isolation (hr : properCalls.Reachable s) (hstep : properCalls.step s a t) :
    (∀ j, Named s j → operand s a ≠ j →
      (t.inodeTable j).iSize = (s.inodeTable j).iSize ∧ fileBytes t j = fileBytes s j) ∧
    ∃ dir, dataBlockGet (s.inodeTable rootDirInum).iDataBlock = some dir ∧
      dataBlockGet (t.inodeTable rootDirInum).iDataBlock = some dir ∧
      ∀ k < maxDirEntries, EntryUsed s.disk.fsData dir k → ∀ l < dirEntrySize,
        t.disk.fsData (dir + k * dirEntrySize + l) = s.disk.fsData (dir + k * dirEntrySize + l) := by
  have hs := inv_of_reachable hr
  have ht := inv_of_reachable (hr.next hstep)
  rcases hstep with ⟨hok, reply, hexec⟩
  have heffect := hs.effect hok hexec
  refine ⟨?_, 0, hs.dataBlockGet_root, ht.dataBlockGet_root, ?_⟩
  · intro j hj hother
    have hbytes := heffect.fileBytes_eq hs hj hother
    refine ⟨?_, hbytes⟩
    rw [← length_fileBytes, hbytes, length_fileBytes]
  · intro k hk hused l hl
    rw [Nat.zero_add]
    exact heffect.entry_eq hs hk hused l hl

/-- Write two bytes to `/a`, and create `/b`. -/
def twoFiles : List Call :=
  [.open (some slashA) tfsOCreat, .write 0 (fun _ => 0x41) 2, .open (some slashB) tfsOCreat]

/-- Handle 1 is on `/b`, and `/a` has its two bytes. -/
def BesideA (s : State) : Prop :=
  (EntryUsed s.disk.fsData 0 0 ∧ dInumber s.disk.fsData 0 0 = 1) ∧ fileBytes s 1 = [0x41, 0x41] ∧
    OnOpenHandle s (.write 1 (fun _ => 0x42) 3) ∧ operand s (.write 1 (fun _ => 0x42) 3) = 2 ∧
    (exec (.write 1 (fun _ => 0x42) 3) s).isSome

instance (s : State) : Decidable (BesideA s) :=
  inferInstanceAs (Decidable (_ ∧ _))

theorem performAll_twoFiles :
    (System.performAll (library.record OnOpenHandle) twoFiles ([], tfsInit.2)).any
      (BesideA ·.2) = true := by
  rw [tfsInit_eq]
  decide +kernel

theorem isolation_besideA : ∃ s t, properCalls.Reachable s ∧ BesideA s ∧
    properCalls.step s (.write 1 (fun _ => 0x42) 3) t ∧ fileBytes t 1 = [0x41, 0x41] := by
  rcases Machine.execution_of_any performAll_twoFiles with ⟨h, s, he, _, hbeside⟩
  rcases hbeside with ⟨⟨hused, hnum⟩, hbytes, hok, hoperand, hsome⟩
  rcases Option.isSome_iff_exists.1 hsome with ⟨⟨reply, t⟩, hexec⟩
  have hnamed : Named s 1 := ⟨0, by omega, hused, hnum⟩
  have hstep : properCalls.step s (.write 1 (fun _ => 0x42) 3) t := ⟨hok, reply, hexec⟩
  have hkept := (isolation ⟨h, he⟩ hstep).1 1 hnamed (by rw [hoperand]; decide)
  exact ⟨s, t, ⟨h, he⟩, ⟨⟨hused, hnum⟩, hbytes, hok, hoperand, hsome⟩, hstep, hkept.2.trans hbytes⟩

end Isolation

end Server
end TecnicoFs
