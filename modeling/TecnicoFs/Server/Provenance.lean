import TecnicoFs.Server.Effects

/-!
# Server provenance — whose bytes a read delivers

`written h i` replays the history `h` of a run as an ideal file that nobody else touches: it holds, at each
position, the last byte that a write on i-node `i` put there since the i-node was created or truncated, and
zero elsewhere.  Blocks are recycled without being cleared and open handles survive a truncation, so the
library delivers these bytes exactly as long as no transfer starts past the end of its file.
-/

namespace TecnicoFs
namespace Server

open Lib

/-! ## What the writes of a run put where -/

/-- The call creates or truncates the file with i-node `i`. -/
def StartsEmpty (s : State) (i : ℕ) : Call → Prop
  | .open name flags => s.freeinodeTs i = .free ∨
      s.stateClosing = false ∧ tfsLookupUnsynchronized name s = i ∧ hasFlag flags tfsOTrunc
  | _ => False

instance (s : State) (i : ℕ) (a : Call) : Decidable (StartsEmpty s i a) :=
  match a with
  | .open _ _ => inferInstanceAs (Decidable (_ ∨ _))
  | .close _ => inferInstanceAs (Decidable False)
  | .write _ _ _ => inferInstanceAs (Decidable False)
  | .read _ _ => inferInstanceAs (Decidable False)

/-- The bytes that a call puts into the file with i-node `i`. -/
def putBytes (s : State) (i : ℕ) (m : Memory) : Call → Memory
  | .write fhandle buffer n =>
      let file := s.openFileTable fhandle.toNat
      if file.ofInumber = i then
        match exec (.write fhandle buffer n) s with
        | some (reply, _) => memcpy m file.ofOffset buffer reply.ret.toNat
        | none => m
      else
        m
  | _ => m

/-- What the writes of a run have put into the file with i-node `i` since its creation or its last
truncation. -/
def written : List (State × Call) → ℕ → Memory
  | [], _ => fun _ => 0
  | (s, a) :: h, i => if StartsEmpty s i a then fun _ => 0 else putBytes s i (written h i) a

/-- After the run `h`, reading delivers what was written there. -/
def DeliversWritten (h : List (State × Call)) (s : State) (fhandle : ℤ) (n : ℕ) : Prop :=
  ∀ reply t, exec (.read fhandle n) s = some (reply, t) →
    reply.data = memread (written h (s.openFileTable fhandle.toNat).ofInumber.toNat)
      (s.openFileTable fhandle.toNat).ofOffset reply.data.length

/-- Every read of a run delivers what was written to its file before it. -/
def ReadsOwnBytes : List (State × Call) → Prop
  | [] => True
  | (s, a) :: h => (∀ fhandle n, a = .read fhandle n → DeliversWritten h s fhandle n) ∧
      ReadsOwnBytes h

/-- A transfer starts within its file. -/
def StartsInFile (s : State) : Call → Prop
  | .open _ _ => True
  | .close _ => True
  | .write fhandle _ n =>
      let file := s.openFileTable fhandle.toNat
      0 < writeCount file.ofOffset n → file.ofOffset ≤ (s.inodeTable file.ofInumber.toNat).iSize
  | .read fhandle n =>
      let file := s.openFileTable fhandle.toNat
      0 < n → file.ofOffset ≤ (s.inodeTable file.ofInumber.toNat).iSize

/-! ## Files and what was written to them -/

section Contents

variable {s t : State} {a : Call} {reply : Reply} {h : List (State × Call)} {i j n : ℕ}

/-- Each file holds what was written to it. -/
def HoldsWritten (h : List (State × Call)) (s : State) : Prop :=
  ∀ j, Named s j → fileBytes s j = memread (written h j) 0 (s.inodeTable j).iSize

theorem written_cons_of_not (hstart : ¬ StartsEmpty s i a) :
    written ((s, a) :: h) i = putBytes s i (written h i) a := by
  simp only [written, if_neg hstart]

theorem written_cons_of_open {name : Path} {flags : ℤ}
    (hstart : ¬ StartsEmpty s i (.open name flags)) :
    written ((s, .open name flags) :: h) i = written h i :=
  written_cons_of_not hstart

theorem putBytes_write (fhandle : ℤ) (buffer : ℕ → Byte) {m : Memory}
    (hexec : exec (.write fhandle buffer n) s = some (reply, t)) :
    putBytes s i m (.write fhandle buffer n) =
      if (s.openFileTable fhandle.toNat).ofInumber = i then
        memcpy m (s.openFileTable fhandle.toNat).ofOffset buffer reply.ret.toNat
      else
        m := by
  simp only [putBytes, hexec]

theorem not_startsEmpty_of_named {name : Path} {flags : ℤ} (hs : Inv s) (hj : Named s j)
    (hother : s.stateClosing = true ∨ tfsLookupUnsynchronized name s ≠ j) :
    ¬ StartsEmpty s j (.open name flags) := by
  rintro (hfree | ⟨hrunning, hlookup, _⟩)
  · exact hs.not_named_of_free hfree hj
  · rcases hother with hclosing | hother
    · rw [hrunning] at hclosing
      cases hclosing
    · exact hother hlookup

/-- The file that a call is not about. -/
theorem Effect.holdsWritten_of_ne (heffect : Effect s a reply t) (hs : Inv s)
    (hexec : exec a s = some (reply, t)) (hholds : HoldsWritten h s) (hj : Named s j)
    (hother : operand s a ≠ j) :
    fileBytes t j = memread (written ((s, a) :: h) j) 0 (t.inodeTable j).iSize := by
  have hbytes := heffect.fileBytes_eq hs hj hother
  have hsize : (t.inodeTable j).iSize = (s.inodeTable j).iSize := by
    rw [← length_fileBytes, hbytes, length_fileBytes]
  have hwritten : written ((s, a) :: h) j = written h j := by
    cases a with
    | «open» name flags =>
        exact written_cons_of_open (not_startsEmpty_of_named hs hj (Or.inr hother))
    | close fhandle => exact written_cons_of_not id
    | write fhandle buffer n =>
        have hnum : (s.openFileTable fhandle.toNat).ofInumber ≠ j := hother
        rw [written_cons_of_not id, putBytes_write fhandle buffer hexec, if_neg hnum]
    | read fhandle n => exact written_cons_of_not id
  rw [hbytes, hsize, hwritten]
  exact hholds j hj

/-- A file that appears is empty. -/
theorem Effect.named_or_empty (heffect : Effect s a reply t) (hs : Inv s) (hj : Named t j) :
    Named s j ∨ (t.inodeTable j).iSize = 0 := by
  cases heffect with
  | notOpened _ => exact Or.inl hj
  | found _ _ _ =>
      left
      refine (Named.congr ?_).1 hj
      rw [addToOpenFileTable_disk, truncateIf_fsData]
      exact SameBlock.refl _ _
  | notCreated _ _ _ => exact Or.inl hj
  | @created _ subName _ i k _ hi _ _ _ hk hunused _ =>
      have hnamed : Named (namedInode (createdInode s i) k i subName) j := by
        refine (Named.congr ?_).1 hj
        rw [addToOpenFileTable_disk]
        exact SameBlock.refl _ _
      -- the only new name is that of the file just created
      rcases (named_namedInode hi hk hunused).1 hnamed with rfl | hold
      · right
        simp [namedInode, createdInode]
      · exact Or.inl hold
  | notClosed => exact Or.inl hj
  | closed _ _ => exact Or.inl hj
  | wroteNothing _ => exact Or.inl hj
  | noBlock _ _ _ => exact Or.inl hj
  | wrote _ _ _ hi _ _ _ _ hw => exact Or.inl ((Named.congr (hw.sameRoot hs hi)).1 hj)
  | readNothing => exact Or.inl hj
  | delivered _ _ _ _ _ _ _ => exact Or.inl hj

theorem memread_of_size_zero {m : Memory} (hzero : (t.inodeTable j).iSize = 0) :
    fileBytes t j = memread m 0 (t.inodeTable j).iSize := by
  simp [fileBytes, hzero, memread]

/-- The file that a call is about. -/
theorem Effect.holdsWritten_self (heffect : Effect s a reply t) (hs : Inv s)
    (hexec : exec a s = some (reply, t)) (hok : StartsInFile s a) (hholds : HoldsWritten h s)
    (hj : Named s j) (hself : operand s a = j) :
    fileBytes t j = memread (written ((s, a) :: h) j) 0 (t.inodeTable j).iSize := by
  cases heffect with
  | @notOpened name flags hwhy =>
      have hother : s.stateClosing = true ∨ tfsLookupUnsynchronized name s ≠ j := by
        rcases hwhy with hclosing | hmiss
        · exact Or.inl hclosing
        · exact Or.inr (by rw [hmiss]; omega)
      rw [written_cons_of_open (not_startsEmpty_of_named hs hj hother)]
      exact hholds j hj
  | @found name flags i _ hlookup _ =>
      have hji : j = i := by
        have hEq : (i : ℤ) = j := hlookup.symm.trans hself
        omega
      subst hji
      rw [fileBytes_addToOpenFileTable, addToOpenFileTable_inodeTable]
      by_cases hflag : hasFlag flags tfsOTrunc = true
      · -- a truncation: nothing is left to compare, and the record starts anew
        apply memread_of_size_zero
        rw [← length_fileBytes, fileBytes_truncateIf_self, if_pos hflag]
        rfl
      · -- without one neither the file nor the record changes
        have hkept : truncateIf flags j s = s := by simp [truncateIf, hflag]
        have hstart : ¬ StartsEmpty s j (.open name flags) := by
          rintro (hfree | ⟨_, _, htrunc⟩)
          · exact hs.not_named_of_free hfree hj
          · exact hflag htrunc
        rw [hkept, written_cons_of_open hstart]
        exact hholds j hj
  | notCreated hmiss _ _ =>
      have hEq : (-1 : ℤ) = j := hmiss.symm.trans hself
      omega
  | created hmiss _ _ _ _ _ _ _ =>
      have hEq : (-1 : ℤ) = j := hmiss.symm.trans hself
      omega
  | notClosed =>
      rw [written_cons_of_not id]
      exact hholds j hj
  | closed _ _ =>
      rw [written_cons_of_not id]
      exact hholds j hj
  | wroteNothing _ =>
      rw [written_cons_of_not id, putBytes_write _ _ hexec]
      simpa using hholds j hj
  | @noBlock hd i _ _ hnum _ hzero =>
      have hji : j = i := by
        have hEq : (i : ℤ) = j := hnum.symm.trans (by simpa [operand] using hself)
        omega
      subst hji
      apply memread_of_size_zero
      simpa using hzero
  | @wrote hd i b n count buffer _ _ _ hnum hi _ hcount hpos hfit hw =>
      have hji : j = i := by
        have hEq : (i : ℤ) = j := hnum.symm.trans (by simpa [operand] using hself)
        omega
      subst hji
      -- the write starts within the file, so file and record are overwritten at the same place
      have hoff : (s.openFileTable hd).ofOffset ≤ (s.inodeTable j).iSize := by
        have hstart := hok (by simpa using hcount ▸ hpos)
        simpa [hnum] using hstart
      have hcopy : memread (memcpy (written h j) (0 + (s.openFileTable hd).ofOffset) buffer count) 0
          (max (s.inodeTable j).iSize ((s.openFileTable hd).ofOffset + count)) =
          Spec.overwrite (memread (written h j) 0 (s.inodeTable j).iSize) (s.openFileTable hd).ofOffset
            ((List.range count).map buffer) := memread_memcpy_overwrite hoff
      rw [written_cons_of_not id, putBytes_write _ _ hexec, hw.fileBytes_self hoff, hholds j hj,
        ← hcopy, hw.node]
      simp [hnum]
  | readNothing =>
      rw [written_cons_of_not id]
      exact hholds j hj
  | delivered _ _ _ _ _ _ _ =>
      rw [written_cons_of_not id]
      exact hholds j hj

theorem Effect.holdsWritten (heffect : Effect s a reply t) (hs : Inv s)
    (hexec : exec a s = some (reply, t)) (hok : StartsInFile s a) (hholds : HoldsWritten h s) :
    HoldsWritten ((s, a) :: h) t := by
  intro j hjt
  rcases heffect.named_or_empty hs hjt with hj | hzero
  · by_cases hself : operand s a = j
    · exact heffect.holdsWritten_self hs hexec hok hholds hj hself
    · exact heffect.holdsWritten_of_ne hs hexec hholds hj hself
  · exact memread_of_size_zero hzero

theorem readCount_pos_len {size offset : ℕ} (hpos : 0 < readCount size offset n) : 0 < n := by
  unfold readCount at hpos
  split at hpos
  · exact hpos
  · omega

theorem deliversWritten {fhandle : ℤ} (hs : Inv s) (hopen : HandleOpen s fhandle)
    (hok : StartsInFile s (.read fhandle n)) (hholds : HoldsWritten h s) :
    DeliversWritten h s fhandle n := by
  intro reply t hexec
  have heffect := hs.effect (a := .read fhandle n) hopen hexec
  cases heffect with
  | readNothing => simp [memread]
  | @delivered hd i b _ count _ _ hnum hi hb hcount hpos =>
      have halloc := (hs.of_named hi).2
      have hsize := hs.sizes i halloc
      have hoff : (s.openFileTable hd).ofOffset ≤ (s.inodeTable i).iSize := by
        have hstart := hok (readCount_pos_len (hcount ▸ hpos))
        simpa [hnum] using hstart
      have hle : count ≤ (s.inodeTable i).iSize - (s.openFileTable hd).ofOffset := by
        rw [hcount, readCount_eq hoff hsize]
        exact min_le_right _ _
      have hblock : fileBytes s i = memread s.disk.fsData (b * 1024) (s.inodeTable i).iSize := by
        rw [fileBytes, hb, Int.toNat_natCast]
      -- a read is a slice of the file's bytes, and the record has the same bytes there
      have hslice : ∀ (m : Memory) (a : ℕ), memread m (a + (s.openFileTable hd).ofOffset) count =
          ((memread m a (s.inodeTable i).iSize).drop (s.openFileTable hd).ofOffset).take count := by
        intro m a
        rw [drop_memread, take_memread, min_eq_left hle]
      simp only [length_memread, Int.toNat_natCast, hnum]
      calc memread s.disk.fsData (b * 1024 + (s.openFileTable hd).ofOffset) count
          = ((fileBytes s i).drop (s.openFileTable hd).ofOffset).take count := by
            rw [hslice, hblock]
        _ = ((memread (written h i) 0 (s.inodeTable i).iSize).drop
              (s.openFileTable hd).ofOffset).take count := by
            rw [hholds i hi]
        _ = memread (written h i) (s.openFileTable hd).ofOffset count := by
            rw [← hslice, Nat.zero_add]

end Contents

/-! ## Every run -/

/-- In a run whose transfers start within their files, every read delivers what was written to its file
since the file was created or truncated. -/
theorem reads_own_bytes {h : List (State × Call)} {s : State} (he : properCalls.Execution h s)
    (hC : System.EachStep StartsInFile h) : ReadsOwnBytes h := by
  have hall : HoldsWritten h s ∧ ReadsOwnBytes h := by
    induction he with
    | start hinit =>
        refine ⟨?_, trivial⟩
        rintro j ⟨k, hk, hused, _⟩
        rw [show _ = tfsInit.2 from hinit] at hused
        exact absurd hused (not_entryUsed_tfsInit k hk)
    | @next h s t a he hstep ih =>
        rcases System.eachStep_cons.1 hC with ⟨hok, hrest⟩
        rcases ih hrest with ⟨hholds, hreads⟩
        have hs := inv_of_reachable ⟨h, he⟩
        rcases hstep with ⟨hopen, reply, hexec⟩
        refine ⟨(hs.effect hopen hexec).holdsWritten hs hexec hok hholds, ?_, hreads⟩
        rintro fhandle n rfl
        exact deliversWritten hs hopen hok hholds
  exact hall.2


instance (s : State) (a : Call) : Decidable (StartsInFile s a) :=
  match a with
  | .open _ _ => inferInstanceAs (Decidable True)
  | .close _ => inferInstanceAs (Decidable True)
  | .write _ _ _ => inferInstanceAs (Decidable (_ → _))
  | .read _ _ => inferInstanceAs (Decidable (_ → _))

instance (h : List (State × Call)) : Decidable (System.EachStep StartsInFile h) :=
  inferInstanceAs (Decidable (∀ p ∈ h, StartsInFile p.1 p.2))

/-- Write two bytes to `/a` and read them back through a second handle. -/
def readBack : List Call :=
  [.open (some slashA) tfsOCreat, .write 0 (fun _ => 0x41) 2, .open (some slashA) 0, .read 1 5]

theorem performAll_readBack :
    (System.performAll (library.record OnOpenHandle) readBack ([], tfsInit.2)).any
      (fun x => System.EachStep StartsInFile x.1) = true := by
  rw [tfsInit_eq]
  decide +kernel

theorem reads_own_bytes_readBack : ∃ h s, properCalls.Execution h s ∧
    h.map Prod.snd = readBack.reverse ∧ ReadsOwnBytes h := by
  rcases Machine.execution_of_any performAll_readBack with ⟨h, s, he, hlabels, hC⟩
  exact ⟨h, s, he, hlabels, reads_own_bytes he hC⟩

/-- Truncate `/a` under a handle that stands at its end, and write to a new file `/b`. -/
def recycle : List Call :=
  [.open (some slashA) tfsOCreat, .write 0 (fun _ => 0x41) 3, .open (some slashA) tfsOTrunc,
    .open (some slashB) tfsOCreat, .write 2 (fun _ => 0x42) 5]

/-- Handle 0 is on `/a`, where nothing was written since the truncation, and reads bytes of `/b`. -/
def LeaksB (h : List (State × Call)) (s : State) : Prop :=
  OnOpenHandle s (.read 0 2) ∧
    ((exec (.read 0 2) s).any fun x => x.1.data = [0x42, 0x42]) = true ∧
    (s.openFileTable 0).ofInumber = 1 ∧ memread (written h 1) (s.openFileTable 0).ofOffset 2 = [0, 0]

instance (h : List (State × Call)) (s : State) : Decidable (LeaksB h s) :=
  inferInstanceAs (Decidable (_ ∧ _))

theorem performAll_recycle :
    (System.performAll (library.record OnOpenHandle) recycle ([], tfsInit.2)).any
      (fun x => LeaksB x.1 x.2) = true := by
  rw [tfsInit_eq]
  decide +kernel

theorem foreign_bytes_delivered : ∃ h s, properCalls.Execution h s ∧
    h.map Prod.snd = (recycle ++ [Call.read 0 2]).reverse ∧ ¬ ReadsOwnBytes h := by
  rcases Machine.execution_of_any performAll_recycle with ⟨h, s, he, hlabels, hopen, hread, hnum, hzero⟩
  rcases (Option.any_eq_true _ _).1 hread with ⟨⟨reply, t⟩, hexec, hdata⟩
  have hdata : reply.data = [0x42, 0x42] := of_decide_eq_true hdata
  refine ⟨_, t, he.next ⟨hopen, reply, hexec⟩, by simp [hlabels], ?_⟩
  rintro ⟨hlast, _⟩
  have hown := hlast 0 2 rfl reply t hexec
  have hfile : (s.openFileTable (0 : ℤ).toNat).ofInumber.toNat = 1 := congrArg Int.toNat hnum
  rw [hdata, hfile] at hown
  exact absurd (hown.trans hzero) (by decide)

end Server
end TecnicoFs
