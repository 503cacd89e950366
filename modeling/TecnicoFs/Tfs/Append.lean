import TecnicoFs.Tfs.Shape

/-!
# Multi-block append mode — which handles write at the end

`tfs_write` moves a handle to the end of its file when `of_append_flag` is set.  `tfs_open` sets the flag in
the branch for a file that it found, and in no other: a handle that created its file never appends, whatever
flags it was opened with.  The history of a run says which open returned a handle.
-/

namespace TecnicoFs
namespace Tfs

open Lib

/-! ## Where a write starts -/

/-- The size of the file that a handle stands for. -/
def fileSize (s : State) (h : ℕ) : ℕ :=
  (s.inodeTable (s.openFileTable h).ofInumber.toNat).iSize

/-- The offset from which `tfs_write` takes the first block and the first byte in it. -/
def startPosition (s : State) (h : ℕ) : ℕ :=
  ((seekForAppend h (s.openFileTable h).ofInumber.toNat s).openFileTable h).ofOffset

/-- The call runs its loops from block `p / BLOCK_SIZE` of the file with the handle at offset `p`, so its
first byte goes to byte `p % BLOCK_SIZE` of that block. -/
def StartsAt (s : State) (h : ℕ) (buffer : ℕ → Byte) (n p : ℕ) : Prop :=
  ∃ i : ℕ, (s.openFileTable h).ofInumber = i ∧
    tfsWrite h buffer n s = some (writeBlocks h i buffer n (p / blockSize)
      (s.setEntry h { s.openFileTable h with ofOffset := p }))

section Start

variable {s : State} {h i n : ℕ}

theorem startPosition_eq (s : State) (h : ℕ) : startPosition s h =
    if (s.openFileTable h).ofAppendFlag = 1 then fileSize s h else (s.openFileTable h).ofOffset := by
  unfold startPosition seekForAppend fileSize
  split
  · simp
  · rfl

theorem seekForAppend_eq (hi : (s.openFileTable h).ofInumber = i) : seekForAppend h i s =
    s.setEntry h { s.openFileTable h with ofOffset := startPosition s h } := by
  rw [startPosition_eq, fileSize, hi, Int.toNat_natCast]
  unfold seekForAppend
  split
  · rfl
  · simp [State.setEntry]

theorem startPosition_le (hs : Shape s) (h : ℕ) : startPosition s h ≤ 272384 * 267 := by
  rw [startPosition_eq]
  split
  · exact hs.sizes _
  · exact hs.offsets h

theorem Shape.startsAt (hs : Shape s) (hh : h < 20) (buffer : ℕ → Byte) (hn : 0 ≤ castInt n) :
    StartsAt s h buffer n (startPosition s h) := by
  rcases hs.inumbers h with ⟨i, hi, hnum⟩
  have hbound := startPosition_le hs h
  have hneg : ¬ castInt n < 0 := by omega
  refine ⟨i, hnum, ?_⟩
  unfold Tfs.tfsWrite
  simp only [getOpenFileEntry_natCast hh, hneg, if_false, hnum, inodeGet_natCast hi]
  rw [seekForAppend_eq hnum]
  simp only [State.setEntry_openFileTable, Function.update_self,
    blockIndex_of_lt (show startPosition s h < 2 ^ 31 by omega), Int.toNat_natCast, hnum]
  exact if_neg (by omega)

end Start

/-! ## The open of a handle -/

/-- The latest `tfs_open` of a history that returned the handle, with the state it was made in. -/
def opener : List (State × Call) → ℕ → Option (State × Path × ℤ)
  | [], _ => none
  | (s, .open path flags) :: hist, h =>
      if (tfsOpen path flags s).map Prod.fst = some (h : ℤ) then some (s, path, flags)
      else opener hist h
  | (_, .close _) :: hist, h => opener hist h
  | (_, .write _ _ _) :: hist, h => opener hist h
  | (_, .read _ _) :: hist, h => opener hist h

/-- The flag of every open handle comes from the open that returned it. -/
def FlagsFromOpen (hist : List (State × Call)) (s : State) : Prop :=
  ∀ h, s.freeOpenFileEntries h = .taken → ∃ s₀ path flags, opener hist h = some (s₀, path, flags) ∧
    ((s.openFileTable h).ofAppendFlag = 1 ↔
      0 ≤ tfsLookup path s₀ ∧ hasFlag flags tfsOAppend = true)

section Opener

variable {hist : List (State × Call)} {s t u : State} {h n : ℕ} {r : ℤ} {path : Path} {flags : ℤ}

theorem SameHandles.flagsFromOpen (hsame : SameHandles s t) (hf : FlagsFromOpen hist s) :
    FlagsFromOpen hist t := by
  intro h htaken
  rw [hsame.taken] at htaken
  rw [hsame.append]
  exact hf h htaken

/-- An open that fails leaves the openers as they were. -/
theorem opener_of_fail (hopen : tfsOpen path flags s = some (-1, t)) (h : ℕ) :
    opener ((s, .open path flags) :: hist) h = opener hist h := by
  have hne : ¬ (-1 : ℤ) = h := by omega
  rw [opener, hopen]
  simp [hne]

/-- An open that returns handle `g` becomes the opener of `g`, and of no other handle. -/
theorem opener_of_open {g : ℕ} (hopen : tfsOpen path flags s = some ((g : ℤ), t)) (h : ℕ) :
    opener ((s, .open path flags) :: hist) h =
      if g = h then some (s, path, flags) else opener hist h := by
  rw [opener, hopen]
  simp

theorem FlagsFromOpen.tfsOpen (hf : FlagsFromOpen hist s) (hs : Shape s)
    (hopen : tfsOpen path flags s = some (r, t)) :
    FlagsFromOpen ((s, .open path flags) :: hist) t := by
  -- an open that fails gives no handle, and every handle keeps its opener
  have hfail : ∀ u, Undisturbed s u → Tfs.tfsOpen path flags s = some (-1, u) →
      FlagsFromOpen ((s, .open path flags) :: hist) u := by
    intro u hu hopen h htaken
    rw [hu.freeOpenFileEntries] at htaken
    rw [opener_of_fail hopen, hu.openFileTable]
    exact hf h htaken
  rcases hs.tfsOpen path flags with ⟨r', t', u, hEq, hu, hcase⟩
  rw [hopen] at hEq
  cases hEq
  rcases hcase with ⟨rfl, rfl⟩ | ⟨i, offset, append, _, _, happend, hadd⟩
  · exact hfail _ hu hopen
  rcases addToOpenFileTable_cases i offset append u with ⟨g, _, hfree, _, hnew⟩ | ⟨_, hfull⟩
  · rw [hnew] at hadd
    cases hadd
    intro h htaken
    rw [opener_of_open hopen]
    by_cases hgh : g = h
    · subst hgh
      rw [if_pos rfl]
      -- the new handle has the flag of this open
      exact ⟨s, path, flags, rfl, by simpa using happend⟩
    · have hhg : h ≠ g := Ne.symm hgh
      rw [if_neg hgh]
      simp only [State.setEntry_freeOpenFileEntries, State.markHandle_freeOpenFileEntries,
        Function.update_of_ne hhg, hu.freeOpenFileEntries] at htaken
      simp only [State.setEntry_openFileTable, State.markHandle_openFileTable,
        Function.update_of_ne hhg, hu.openFileTable]
      exact hf h htaken
  · rw [hfull] at hadd
    cases hadd
    exact hfail _ hu hopen

theorem flagsFromOpen_step (hf : FlagsFromOpen hist s) (hs : Shape s) {a : Call} {reply : Reply}
    (hexec : exec a s = some (reply, t)) : FlagsFromOpen ((s, a) :: hist) t := by
  cases a with
  | «open» path flags =>
      rcases Option.map_eq_some_iff.1 hexec with ⟨⟨r, t'⟩, hopen, hEq⟩
      cases hEq
      exact hf.tfsOpen hs hopen
  | close fhandle =>
      cases hexec
      intro h htaken
      unfold tfsClose removeFromOpenFileTable at htaken ⊢
      split at htaken
      · next hinvalid =>
          rw [if_pos hinvalid]
          exact hf h htaken
      · next hvalid =>
          rw [if_neg hvalid]
          -- the closed handle is no longer taken
          have hne : h ≠ fhandle.toNat := by
            rintro rfl
            simp at htaken
          exact hf h (by simpa [hne] using htaken)
  | write fhandle buffer n =>
      rcases hs.tfsWrite fhandle buffer n with ⟨r, t', hEq, _, hsame⟩
      simp only [exec, hEq, Option.map_some, Option.some.injEq, Prod.mk.injEq] at hexec
      rw [← hexec.2]
      exact hsame.flagsFromOpen hf
  | read fhandle n =>
      rcases hs.tfsRead fhandle n with ⟨r, out, t', hEq, _, hsame⟩
      simp only [exec, hEq, Option.map_some, Option.some.injEq, Prod.mk.injEq] at hexec
      rw [← hexec.2]
      exact hsame.flagsFromOpen hf

/-- Whatever calls are made, with whatever handles. -/
theorem flagsFromOpen_of_execution {allowed : State → Call → Prop}
    (he : (fileSystem.toSystem tfsInit.2 allowed).Execution hist s) : FlagsFromOpen hist s := by
  induction he with
  | start hinit =>
      intro h htaken
      rw [show _ = tfsInit.2 from hinit, tfsInit_room.2.2 h] at htaken
      cases htaken
  | next hprev hstep ih =>
      rcases hstep with ⟨_, reply, hexec⟩
      exact flagsFromOpen_step ih (shape_of_execution hprev) hexec

end Opener

/-! ## The law -/

/-- A write through a handle that was opened with `TFS_O_APPEND` starts at the end of the file iff that open
found the file, or the offset of the handle happens to be the end. -/
theorem append_iff_found {hist : List (State × Call)} {s : State} (he : properCalls.Execution hist s)
    {h : ℕ} (hopen : HandleOpen s h) {s₀ : State} {path : Path} {flags : ℤ}
    (hopener : opener hist h = some (s₀, path, flags)) (happend : hasFlag flags tfsOAppend = true)
    (buffer : ℕ → Byte) {n : ℕ} (hn : 0 ≤ castInt n) :
    StartsAt s h buffer n (startPosition s h) ∧
      (startPosition s h = fileSize s h ↔
        0 ≤ tfsLookup path s₀ ∨ (s.openFileTable h).ofOffset = fileSize s h) := by
  rcases hopen with ⟨g, hg, hgh, htaken⟩
  have hgh : h = g := by omega
  subst hgh
  refine ⟨(shape_of_execution he).startsAt hg buffer hn, ?_⟩
  rcases flagsFromOpen_of_execution he h htaken with ⟨s₁, path₁, flags₁, hopener₁, hflag⟩
  rw [hopener] at hopener₁
  cases hopener₁
  rw [startPosition_eq]
  by_cases hfound : 0 ≤ tfsLookup path s₀
  · rw [if_pos (hflag.2 ⟨hfound, happend⟩)]
    simp [hfound]
  · have hnot : ¬ (s.openFileTable h).ofAppendFlag = 1 := fun hone => hfound (hflag.1 hone).1
    rw [if_neg hnot]
    simp [hfound]

/-- Write two bytes to `/a` and open it again for appending. -/
def appendLater : List Call :=
  [.open (some slashA) tfsOCreat, .write 0 (fun _ => 0x41) 2, .open (some slashA) tfsOAppend]

/-- Handle 1 was opened for appending on a file that was found, and has two bytes. -/
def AppendsToA (hist : List (State × Call)) (s : State) : Prop :=
  (HandleOpen s (1 : ℕ) ∧ fileSize s 1 = 2) ∧ (opener hist 1).any (fun x =>
    hasFlag x.2.2 tfsOAppend && decide (0 ≤ tfsLookup x.2.1 x.1)) = true

instance (hist : List (State × Call)) (s : State) : Decidable (AppendsToA hist s) :=
  inferInstanceAs (Decidable (_ ∧ _))

theorem performAll_appendLater :
    (System.performAll (fileSystem.record OnOpenHandle) appendLater ([], tfsInit.2)).any
      (fun x => AppendsToA x.1 x.2) = true := by
  rw [tfsInit_eq]
  decide +kernel

theorem append_iff_found_appendLater : ∃ hist s, properCalls.Execution hist s ∧
    hist.map Prod.snd = appendLater.reverse ∧ StartsAt s 1 (fun _ => 0x42) 3 2 := by
  rcases Machine.execution_of_any performAll_appendLater with
    ⟨hist, s, he, hlabels, ⟨hopen, hsize⟩, hopener⟩
  rcases (Option.any_eq_true _ _).1 hopener with ⟨⟨s₀, path, flags⟩, hopener, hfound⟩
  rcases Bool.and_eq_true_iff.1 hfound with ⟨happend, hfound⟩
  have hlaw := append_iff_found he hopen hopener happend (fun _ => 0x42) (n := 3) (by decide)
  have hend := hlaw.2.2 (Or.inl (of_decide_eq_true hfound))
  rw [hsize] at hend
  exact ⟨hist, s, he, hlabels, hend ▸ hlaw.1⟩

/-- Create `/a` for appending, and write two bytes to it through another handle. -/
def createForAppend : List Call :=
  [.open (some slashA) (tfsOCreat + tfsOAppend), .open (some slashA) 0, .write 1 (fun _ => 0x41) 2]

/-- Handle 0 was opened for appending; the file has two bytes, and the next write puts its byte over the
first of them. -/
def OverwritesA (hist : List (State × Call)) (s : State) : Prop :=
  (HandleOpen s (0 : ℕ) ∧ (opener hist 0).any (fun x => hasFlag x.2.2 tfsOAppend) = true) ∧
    (fileSize s 0 = 2 ∧ startPosition s 0 = 0) ∧
    (tfsWrite 0 (fun _ => 0x42) 1 s).any (fun x =>
      x.1 = 1 && byteAt x.2 1 0 = 0x42 && decide (fileSize x.2 0 = 2)) = true

instance (hist : List (State × Call)) (s : State) : Decidable (OverwritesA hist s) :=
  inferInstanceAs (Decidable (_ ∧ _))

theorem performAll_createForAppend :
    (System.performAll (fileSystem.record OnOpenHandle) createForAppend ([], tfsInit.2)).any
      (fun x => OverwritesA x.1 x.2) = true := by
  rw [tfsInit_eq]
  decide +kernel

/-- The handle that created the file writes at its start, not at its end. -/
theorem creator_does_not_append : ∃ hist s, properCalls.Execution hist s ∧
    hist.map Prod.snd = createForAppend.reverse ∧ OverwritesA hist s ∧
    StartsAt s 0 (fun _ => 0x42) 1 0 ∧ startPosition s 0 ≠ fileSize s 0 := by
  rcases Machine.execution_of_any performAll_createForAppend with ⟨hist, s, he, hlabels, hP⟩
  have hstarts := (shape_of_execution he).startsAt (h := 0) (by omega) (fun _ => 0x42) (n := 1)
    (by decide)
  have hsize : fileSize s 0 = 2 := hP.2.1.1
  have hstart : startPosition s 0 = 0 := hP.2.1.2
  rw [hstart] at hstarts
  refine ⟨hist, s, he, hlabels, hP, hstarts, ?_⟩
  rw [hsize, hstart]
  decide

end Tfs
end TecnicoFs
