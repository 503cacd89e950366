import TecnicoFs.Lib.Appending
import TecnicoFs.Tfs.Append
import TecnicoFs.Tfs.RoundTrip

/-!
# Appenders — threads that append to one file

`tfs_write` moves a handle opened for appending to the end of the file before it takes the lock of the
i-node, and stores the bytes under the lock.  Each call is thus two steps, and other threads may take theirs
in between.
-/

namespace TecnicoFs
namespace Tfs
namespace Appenders

open Lib

/-! ## The two steps of a call -/

/-- Where a call stands: not begun, waiting for the lock of i-node `i`, or returned. -/
inductive Pc
  | start
  | locking (h i : ℕ)
  | returned (r : ℤ)
  deriving DecidableEq

/-- `tfs_write` up to the lock. -/
def beforeLock (fhandle : ℤ) (toWrite : ℕ) (s : State) : Pc × State :=
  match getOpenFileEntry fhandle with
  | none => (.returned (-1), s)
  | some h =>
      if castInt toWrite < 0 then
        (.returned (-1), s)
      else
        match inodeGet (s.openFileTable h).ofInumber with
        | none => (.returned (-1), s)
        | some i => (.locking h i, seekForAppend h i s)

/-- "Locking the inode", up to "Unlocking the inode" -/
def underLock (h i : ℕ) (buffer : ℕ → Byte) (toWrite : ℕ) (s : State) : Option (ℤ × State) :=
  let index := blockIndex (s.openFileTable h).ofOffset
  if index < 0 ∧ 0 < toWrite then
    none
  else
    some (writeBlocks h i buffer toWrite index.toNat s)

/-- A call that is not interrupted takes its two steps one after the other. -/
theorem tfsWrite_steps (fhandle : ℤ) (buffer : ℕ → Byte) (n : ℕ) (s : State) :
    (∃ h i t, beforeLock fhandle n s = (.locking h i, t) ∧
      tfsWrite fhandle buffer n s = underLock h i buffer n t) ∨
    (beforeLock fhandle n s = (.returned (-1), s) ∧ tfsWrite fhandle buffer n s = some (-1, s)) := by
  unfold beforeLock tfsWrite
  rcases getOpenFileEntry fhandle with _ | h
  · exact Or.inr ⟨rfl, rfl⟩
  by_cases hneg : castInt n < 0
  · right
    simp [hneg]
  simp only [hneg, if_false]
  rcases inodeGet (s.openFileTable h).ofInumber with _ | i
  · exact Or.inr ⟨rfl, rfl⟩
  · exact Or.inl ⟨h, i, _, rfl, rfl⟩

/-! ## Threads -/

/-- One `tfs_write`. -/
structure Append where
  handle : ℕ
  bytes : List Byte

def Append.buffer (a : Append) (p : ℕ) : Byte :=
  a.bytes.getD p 0

/-- The tables, and each thread's position. -/
structure World (k : ℕ) where
  lib : State
  pc : Fin k → Pc

def World.start {k : ℕ} (s : State) : World k where
  lib := s
  pc := fun _ => .start

variable {k : ℕ} (calls : Fin k → Append)

def perform : AppendStep (Fin k) → World k → Option (World k)
  | .refresh t, w =>
      match w.pc t with
      | .start =>
          let (pc, s) := beforeLock (calls t).handle (calls t).bytes.length w.lib
          some ⟨s, Function.update w.pc t pc⟩
      | _ => none
  | .store t, w =>
      match w.pc t with
      | .locking h i =>
          (underLock h i (calls t).buffer (calls t).bytes.length w.lib).map fun x =>
            ⟨x.2, Function.update w.pc t (.returned x.1)⟩
      | _ => none

/-- The bytes that a step stores stay inside one data block. -/
def StaysInBlock (w : World k) : AppendStep (Fin k) → Prop
  | .refresh _ => True
  | .store t =>
      (w.lib.openFileTable (calls t).handle).ofOffset % blockSize + (calls t).bytes.length ≤ blockSize

instance (w : World k) (a : AppendStep (Fin k)) : Decidable (StaysInBlock calls w a) :=
  match a with
  | .refresh _ => inferInstanceAs (Decidable True)
  | .store _ => inferInstanceAs (Decidable (_ ≤ _))

/-- Thread `t` makes the call `calls t`, and their steps come in any order. -/
def appenders (s : State) : System (World k) (AppendStep (Fin k)) where
  init w := w = World.start s
  step w a w' := StaysInBlock calls w a ∧ perform calls a w = some w'

/-! ## The law -/

/-- The byte of file `i` at position `p`, if the file has a block there. -/
def contentAt (s : State) (i p : ℕ) : Option Byte :=
  if slotValue s (fileSlot i (p / blockSize)) = -1 then none else some (byteAt s i p)

/-- In `t`, file `i` is what it was in `s`, followed by `bytes`. -/
structure Appended (s : State) (i : ℕ) (bytes : List Byte) (t : State) : Prop where
  size : (t.inodeTable i).iSize = (s.inodeTable i).iSize + bytes.length
  old : ∀ p < (s.inodeTable i).iSize, ∀ c, contentAt s i p = some c → contentAt t i p = some c
  new : ∀ p (hp : p < bytes.length), contentAt t i ((s.inodeTable i).iSize + p) = some bytes[p]

/-- The file is its old contents followed by the buffers of all calls, in some order. -/
def LosesNothing (s : State) (i : ℕ) (t : State) : Prop :=
  ∃ order : List (Fin k), order.Perm (List.finRange k) ∧
    Appended s i (order.flatMap fun u => (calls u).bytes) t

/-- The handle is open on file `i`, and was opened for appending when the file existed. -/
def OpenedToAppend (hist : List (State × Call)) (s : State) (h i : ℕ) : Prop :=
  HandleOpen s h ∧ (s.openFileTable h).ofInumber = i ∧ ∃ s₀ path flags,
    opener hist h = some (s₀, path, flags) ∧ hasFlag flags tfsOAppend = true ∧ 0 ≤ tfsLookup path s₀

section Appended

variable {s t u : State} {i : ℕ} {l l' : List Byte}

theorem Appended.refl (s : State) (i : ℕ) : Appended s i [] s := by
  constructor
  · rfl
  · intro p _ c hc
    exact hc
  · intro p hp
    simp at hp

theorem Appended.trans (h₁ : Appended s i l t) (h₂ : Appended t i l' u) : Appended s i (l ++ l') u := by
  have hsize := h₁.size
  constructor
  · rw [h₂.size, hsize, List.length_append, Nat.add_assoc]
  · intro p hp c hc
    exact h₂.old p (by omega) c (h₁.old p hp c hc)
  · intro p hp
    rw [List.length_append] at hp
    by_cases hpl : p < l.length
    · rw [List.getElem_append_left hpl]
      exact h₂.old _ (by omega) _ (h₁.new p hpl)
    · have hpos : (s.inodeTable i).iSize + p = (t.inodeTable i).iSize + (p - l.length) := by omega
      rw [List.getElem_append_right (by omega), hpos]
      exact h₂.new (p - l.length) (by omega)

/-- Moving a handle changes no file. -/
theorem Appended.of_setEntry (s : State) (i h : ℕ) (e : OpenFileEntry) : Appended s i [] (s.setEntry h e) := by
  have hcontent : ∀ p, contentAt (s.setEntry h e) i p = contentAt s i p := by
    intro p
    simp only [contentAt, byteAt_setEntry, slotValue_setEntry]
  constructor
  · rfl
  · intro p _ c hc
    rw [hcontent]
    exact hc
  · intro p hp
    simp at hp

end Appended

/-! ## What a step does -/

section Effects

variable {s t : State} {h i o n : ℕ} {r : ℤ} {bytes : List Byte}

/-- A step that stores all its bytes moves only its own handle, and the end of the file. -/
structure StoreEffect (s : State) (h i : ℕ) (bytes : List Byte) (t : State) : Prop where
  inv : Inv t
  entries : t.openFileTable = Function.update s.openFileTable h
    { s.openFileTable h with ofOffset := (s.openFileTable h).ofOffset + bytes.length }
  freeOpenFileEntries : t.freeOpenFileEntries = s.freeOpenFileEntries
  size : (t.inodeTable i).iSize = max (s.inodeTable i).iSize ((s.openFileTable h).ofOffset + bytes.length)
  appended : bytes.length = 0 ∨ (s.openFileTable h).ofOffset = (s.inodeTable i).iSize → Appended s i bytes t

/-- Bytes that are stored at the end of the file are appended to it. -/
theorem appended_of_stored {b : ℕ} (hs : Inv s) (hlive : LiveFile s i) (hend : (s.inodeTable i).iSize = o)
    (ho : o < 272384) (hfit : o % 1024 + bytes.length ≤ 1024)
    (hst : Stored s h (fileSlot i (o / 1024)) b (o % 1024) (fun p => bytes.getD p 0) bytes.length
      (o + bytes.length) t) : Appended s i bytes (growFile h i t) := by
  have hcontent : ∀ p, contentAt (growFile h i t) i p = contentAt t i p := by
    intro p
    simp only [contentAt, slotValue_growFile, byteAt_growFile]
  constructor
  · rw [growFile_iSize, hst.sizes, hend, hst.openFileTable, Function.update_self]
    exact max_eq_right (Nat.le_add_right o _)
  · intro p hp c hc
    rw [hend] at hp
    rw [contentAt] at hc
    split at hc
    · cases hc
    · next hne =>
        have hold := hst.byteAt_eq hs hlive ho hfit (p := p) (by omega) (Or.inr hne)
        rw [hcontent, contentAt, if_neg hold.1, hold.2, if_neg (by omega)]
        exact hc
  · intro p hp
    have hnew := hst.byteAt_eq hs hlive ho hfit (p := o + p) (by omega) (Or.inl (by omega))
    rw [hend, hcontent, contentAt, if_neg hnew.1, hnew.2, if_pos (by omega), Nat.add_sub_cancel_left,
      List.getD_eq_getElem _ _ hp]

/-- Under the lock, a call that reports all its bytes has stored them. -/
theorem storeEffect (hs : Inv s) (hh : h < 20) (htaken : s.freeOpenFileEntries h = .taken)
    (hnum : (s.openFileTable h).ofInumber = i) (hoff : (s.openFileTable h).ofOffset ≤ (s.inodeTable i).iSize)
    (hfit : (s.openFileTable h).ofOffset % blockSize + bytes.length ≤ blockSize)
    (hw : underLock h i (fun p => bytes.getD p 0) bytes.length s = some ((bytes.length : ℤ), t)) :
    StoreEffect s h i bytes t := by
  rcases hs.handles h hh htaken with ⟨j, hj, hlive, hposition⟩
  have hji : j = i := by
    rw [hnum] at hj
    omega
  subst hji
  have hfit : (s.openFileTable h).ofOffset % 1024 + bytes.length ≤ 1024 := hfit
  have hbound : (s.openFileTable h).ofOffset < 2 ^ 31 := by
    have hle := hposition.1
    omega
  have hwrite : writeBlocks h j (fun p => bytes.getD p 0) bytes.length ((s.openFileTable h).ofOffset / 1024) s =
      ((bytes.length : ℤ), t) := by
    unfold underLock at hw
    simp only [blockIndex_of_lt hbound, Int.toNat_natCast] at hw
    rw [if_neg (by omega), Option.some.injEq] at hw
    exact hw
  have hinv := hs.writeBlocks (fun p => bytes.getD p 0) bytes.length hh htaken hnum hlive
  rw [hwrite] at hinv
  by_cases hpos : 0 < bytes.length
  · -- the handle is before the last block, and the turn found a block
    have ho : (s.openFileTable h).ofOffset < 272384 := by
      by_contra hfar
      rw [writeBlocks_past hlive (by omega), Prod.mk.injEq] at hwrite
      omega
    rcases writeBlocks_one_cases hs hlive rfl ho hpos hfit with ⟨b, u, hst, hEq⟩ | ⟨_, _, hzero⟩
    · rw [hEq, Prod.mk.injEq] at hwrite
      rcases hwrite with ⟨_, rfl⟩
      constructor
      · exact hinv
      · rw [growFile_openFileTable, hst.openFileTable]
      · rw [growFile_freeOpenFileEntries, hst.freeOpenFileEntries]
      · rw [growFile_iSize, hst.sizes, hst.openFileTable, Function.update_self]
      · intro hend
        exact appended_of_stored hs hlive (by omega) ho hfit hst
    · rw [hwrite] at hzero
      omega
  · have hnil : bytes = [] := List.eq_nil_of_length_eq_zero (by omega)
    subst hnil
    have hsame : growFile h j s = s := if_neg (by omega)
    rw [List.length_nil, writeBlocks_of_done hlive (writeLoop_of_le (lt_irrefl 0)) (lt_irrefl 0), hsame,
        Prod.mk.injEq] at hwrite
    rcases hwrite with ⟨_, rfl⟩
    constructor
    · exact hs
    · simp
    · rfl
    · simp [hoff]
    · intro _
      exact Appended.refl s j

/-- The refresh of a handle that appends. -/
theorem beforeLock_append (hs : Inv s) (hh : h < 20) (htaken : s.freeOpenFileEntries h = .taken)
    (hnum : (s.openFileTable h).ofInumber = i) (happend : (s.openFileTable h).ofAppendFlag = 1) (n : ℕ) :
    beforeLock h n s = (.returned (-1), s) ∨
      beforeLock h n s = (.locking h i, s.setEntry h ⟨i, (s.inodeTable i).iSize, 1⟩) ∧
        Inv (s.setEntry h ⟨i, (s.inodeTable i).iSize, 1⟩) := by
  rcases hs.handle_file ⟨h, hh, rfl, htaken⟩ with ⟨g, _, hg, _, j, hj, hlt, hlive, _⟩
  have hgh : g = h := by omega
  subst hgh
  have hji : j = i := by
    rw [hnum] at hj
    omega
  subst hji
  unfold beforeLock
  rw [getOpenFileEntry_natCast hh]
  by_cases hneg : castInt n < 0
  · left
    simp [hneg]
  · right
    -- the size is read here, before the lock of the i-node
    have hseek : seekForAppend g j s = s.setEntry g ⟨j, (s.inodeTable j).iSize, 1⟩ := by
      unfold seekForAppend
      rw [if_pos happend]
      simp only [hnum, happend]
    refine ⟨by simp only [hneg, if_false, hnum, inodeGet_natCast hlt, hseek], ?_⟩
    rw [← hseek]
    exact (hs.seekForAppend hh htaken hnum hlive).1

end Effects

/-! ## Runs -/

/-- The log whose appends are the calls. -/
def logAfter (s : State) (i : ℕ) (labels : List (AppendStep (Fin k))) : Log (Fin k) :=
  Log.after (fun t => (calls t).bytes.length) ⟨(s.inodeTable i).iSize, fun _ => 0⟩ labels

/-- Every call that has returned has returned its full length. -/
def FullLengths (w : World k) : Prop :=
  ∀ t r, w.pc t = .returned r → r = (calls t).bytes.length

/-- What holds after the steps `labels`, latest first. -/
structure Running (s : State) (i : ℕ) (labels : List (AppendStep (Fin k))) (w : World k) : Prop where
  inv : Inv w.lib
  handles : ∀ t, (calls t).handle < 20 ∧ w.lib.freeOpenFileEntries (calls t).handle = .taken ∧
    (w.lib.openFileTable (calls t).handle).ofInumber = i ∧
    (w.lib.openFileTable (calls t).handle).ofAppendFlag = 1
  size : (w.lib.inodeTable i).iSize = (logAfter calls s i labels).size
  locking : ∀ t h j, w.pc t = .locking h j → h = (calls t).handle ∧ j = i ∧
    (w.lib.openFileTable h).ofOffset = (logAfter calls s i labels).position t ∧ .refresh t ∈ labels
  refreshed : Refreshed labels
  nodup : (stores labels).Nodup
  stored : ∀ t, .store t ∈ labels ↔ ∃ r, w.pc t = .returned r

section Runs

variable {calls} {s : State} {i : ℕ} {w w' : World k} {a : AppendStep (Fin k)}
  {labels : List (AppendStep (Fin k))}

theorem perform_cases (h : perform calls a w = some w') :
    (∃ t, a = .refresh t ∧ w.pc t = .start ∧
      w' = ⟨(beforeLock (calls t).handle (calls t).bytes.length w.lib).2,
        Function.update w.pc t (beforeLock (calls t).handle (calls t).bytes.length w.lib).1⟩) ∨
    ∃ t g j r u, a = .store t ∧ w.pc t = .locking g j ∧
      underLock g j (calls t).buffer (calls t).bytes.length w.lib = some (r, u) ∧
      w' = ⟨u, Function.update w.pc t (.returned r)⟩ := by
  cases a with
  | refresh t =>
      left
      rcases hpc : w.pc t with _ | ⟨g, j⟩ | r
      · simp only [perform, hpc, Option.some.injEq] at h
        exact ⟨t, rfl, hpc, h.symm⟩
      · simp [perform, hpc] at h
      · simp [perform, hpc] at h
  | store t =>
      right
      rcases hpc : w.pc t with _ | ⟨g, j⟩ | r
      · simp [perform, hpc] at h
      · simp only [perform, hpc] at h
        rcases Option.map_eq_some_iff.1 h with ⟨⟨r, u⟩, hlock, rfl⟩
        exact ⟨t, g, j, r, u, rfl, hpc, hlock, rfl⟩
      · simp [perform, hpc] at h

/-- A call that returned stays returned. -/
theorem FullLengths.prev (hfull : FullLengths calls w') (h : perform calls a w = some w') :
    FullLengths calls w := by
  intro u r hu
  have hkept : ∀ t pc, w.pc t ≠ .returned r → Function.update w.pc t pc u = .returned r := by
    intro t pc ht
    have hut : u ≠ t := by
      rintro rfl
      exact ht hu
    rw [Function.update_of_ne hut, hu]
  rcases perform_cases h with ⟨t, _, hpc, rfl⟩ | ⟨t, g, j, r', v, _, hpc, _, rfl⟩
  · exact hfull u r (hkept t _ (by simp [hpc]))
  · exact hfull u r (hkept t _ (by simp [hpc]))

/-- What a step does in a run whose calls all return their full lengths. -/
theorem Running.step_cases (hr : Running calls s i labels w) (hfull : FullLengths calls w')
    (hstep : (appenders calls s).step w a w') :
    (∃ t, a = .refresh t ∧ w.pc t = .start ∧
      w' = ⟨w.lib.setEntry (calls t).handle ⟨i, (w.lib.inodeTable i).iSize, 1⟩,
        Function.update w.pc t (.locking (calls t).handle i)⟩ ∧ Inv w'.lib) ∨
    ∃ t u, a = .store t ∧ w.pc t = .locking (calls t).handle i ∧
      StoreEffect w.lib (calls t).handle i (calls t).bytes u ∧
      w' = ⟨u, Function.update w.pc t (.returned (calls t).bytes.length)⟩ := by
  rcases hstep with ⟨hblock, hperform⟩
  rcases perform_cases hperform with ⟨t, rfl, hpc, rfl⟩ | ⟨t, g, j, r, u, rfl, hpc, hlock, rfl⟩
  · left
    rcases hr.handles t with ⟨hh, htaken, hnum, happend⟩
    rcases beforeLock_append hr.inv hh htaken hnum happend (calls t).bytes.length with hfail | ⟨hEq, hinv⟩
    · -- a refused length is not the full length
      have hret := hfull t (-1) (by simp [hfail])
      omega
    · simp only [hEq]
      exact ⟨t, rfl, hpc, rfl, hinv⟩
  · right
    rcases hr.locking t g j hpc with ⟨rfl, rfl, hpos, hmem⟩
    rcases hr.handles t with ⟨hh, htaken, hnum, _⟩
    have hret : r = (calls t).bytes.length := hfull t r (by simp)
    subst hret
    have hoff : (w.lib.openFileTable (calls t).handle).ofOffset ≤ (w.lib.inodeTable j).iSize := by
      rw [hpos, hr.size]
      exact Log.position_le _ _ hmem
    exact ⟨t, u, rfl, hpc, storeEffect hr.inv hh htaken hnum hoff hblock hlock, rfl⟩

theorem Running.next (hinj : Function.Injective fun t => (calls t).handle) (hr : Running calls s i labels w)
    (hfull : FullLengths calls w') (hstep : (appenders calls s).step w a w') :
    Running calls s i (a :: labels) w' := by
  rcases hr.step_cases hfull hstep with ⟨t, rfl, hpc, rfl, hinv⟩ | ⟨t, u, rfl, hpc, heffect, rfl⟩
  · -- thread `t` refreshes its offset: its call is at the end that the log gives it
    constructor
    · exact hinv
    · intro u
      rcases hr.handles u with ⟨hh, htaken, hnum, happend⟩
      by_cases hut : u = t
      · subst hut
        exact ⟨hh, htaken, by simp, by simp⟩
      · have hne : (calls u).handle ≠ (calls t).handle := fun hEq => hut (hinj hEq)
        exact ⟨hh, htaken, by simpa [hne] using hnum, by simpa [hne] using happend⟩
    · exact hr.size
    · intro u g j hu
      by_cases hut : u = t
      · subst hut
        simp only [Function.update_self, Pc.locking.injEq] at hu
        rcases hu with ⟨rfl, rfl⟩
        refine ⟨rfl, rfl, ?_, by simp⟩
        simp [logAfter, Log.after, Log.step, hr.size]
      · have hu : w.pc u = .locking g j := by simpa [hut] using hu
        rcases hr.locking u g j hu with ⟨rfl, rfl, hpos, hmem⟩
        -- the others' offsets are untouched, since their handles are other ones
        have hne : (calls u).handle ≠ (calls t).handle := fun hEq => hut (hinj hEq)
        refine ⟨rfl, rfl, ?_, by simp [hmem]⟩
        simpa [logAfter, Log.after, Log.step, hne, hut] using hpos
    · exact hr.refreshed
    · exact hr.nodup
    · intro u
      by_cases hut : u = t
      · subst hut
        have hnot : ¬ .store u ∈ labels := by
          rw [hr.stored, hpc]
          simp
        simp [hnot]
      · simpa [Function.update_of_ne hut] using hr.stored u
  · -- thread `t` stores its bytes at the offset of its refresh; it has not stored before
    rcases hr.locking t _ _ hpc with ⟨_, _, hpos, hmem⟩
    have hnot : ¬ .store t ∈ labels := by
      rw [hr.stored, hpc]
      simp
    constructor
    · exact heffect.inv
    · intro v
      rcases hr.handles v with ⟨hh, htaken, hnum, happend⟩
      refine ⟨hh, by rw [heffect.freeOpenFileEntries, htaken], ?_, ?_⟩
      · rw [heffect.entries]
        by_cases hvt : v = t
        · subst hvt
          simpa using hnum
        · have hne : (calls v).handle ≠ (calls t).handle := fun hEq => hvt (hinj hEq)
          simpa [hne] using hnum
      · rw [heffect.entries]
        by_cases hvt : v = t
        · subst hvt
          simpa using happend
        · have hne : (calls v).handle ≠ (calls t).handle := fun hEq => hvt (hinj hEq)
          simpa [hne] using happend
    · -- the file grows if the call ends past its size, as the log says
      simp only [heffect.size, hpos, hr.size]
      rfl
    · intro v g j hv
      by_cases hvt : v = t
      · subst hvt
        simp at hv
      · have hv : w.pc v = .locking g j := by simpa [hvt] using hv
        rcases hr.locking v g j hv with ⟨rfl, rfl, hposV, hmemV⟩
        have hne : (calls v).handle ≠ (calls t).handle := fun hEq => hvt (hinj hEq)
        refine ⟨rfl, rfl, ?_, by simp [hmemV]⟩
        rw [heffect.entries, Function.update_of_ne hne, hposV]
        rfl
    · exact ⟨hmem, hr.refreshed⟩
    · rw [stores, List.nodup_append]
      refine ⟨hr.nodup, by simp, ?_⟩
      intro x hx y hy
      rw [List.mem_singleton] at hy
      rintro rfl
      exact hnot (mem_stores.1 (hy ▸ hx))
    · intro v
      by_cases hvt : v = t
      · subst hvt
        simp
      · simpa [Function.update_of_ne hvt, hvt] using hr.stored v

theorem running_of_execution (hstart : Running calls s i [] (World.start s))
    (hinj : Function.Injective fun t => (calls t).handle) {hist : List (World k × AppendStep (Fin k))}
    (he : (appenders calls s).Execution hist w) (hfull : FullLengths calls w) :
    Running calls s i (hist.map Prod.snd) w := by
  induction he with
  | start hinit =>
      rw [show _ = World.start s from hinit]
      exact hstart
  | next _ hstep ih => exact (ih (hfull.prev hstep.2)).next hinj hfull hstep

/-- As long as every store of bytes is at the end, the file is appended to in the order of the stores. -/
theorem appended_of_atEnd (hstart : Running calls s i [] (World.start s))
    (hinj : Function.Injective fun t => (calls t).handle) {hist : List (World k × AppendStep (Fin k))}
    (he : (appenders calls s).Execution hist w) (hfull : FullLengths calls w)
    (hend : AtEnd (fun t => (calls t).bytes.length) ⟨(s.inodeTable i).iSize, fun _ => 0⟩ (hist.map Prod.snd)) :
    Appended s i ((stores (hist.map Prod.snd)).flatMap fun u => (calls u).bytes) w.lib := by
  induction he with
  | start hinit =>
      rw [show _ = World.start s from hinit]
      exact Appended.refl s i
  | next hprev hstep ih =>
      have hbefore := hfull.prev hstep.2
      have hr := running_of_execution hstart hinj hprev hbefore
      rcases hr.step_cases hfull hstep with ⟨t, rfl, _, rfl, _⟩ | ⟨t, u, rfl, hpc, heffect, rfl⟩
      · rw [List.map_cons, stores, ← List.append_nil (List.flatMap _ _)]
        exact (ih hbefore hend).trans (Appended.of_setEntry _ i _ _)
      · rcases hr.locking t _ _ hpc with ⟨_, _, hpos, _⟩
        have hnew := heffect.appended (by
          rw [hpos, hr.size]
          exact hend.1)
        rw [List.map_cons, stores, List.flatMap_append, List.flatMap_singleton]
        exact (ih hbefore hend.2).trans hnew

end Runs

/-! ## When appends lose nothing -/

section Law

variable {hist₀ : List (State × Call)} {s : State} {i : ℕ} {calls}

theorem running_start (he : properCalls.Execution hist₀ s)
    (hC : System.EachStep (fun s a => ¬ TruncatesFile s a) hist₀)
    (hhandles : ∀ t, OpenedToAppend hist₀ s (calls t).handle i) : Running calls s i [] (World.start s) := by
  constructor
  · exact (inv_of_execution he hC).1
  · intro t
    rcases hhandles t with ⟨⟨g, hg, hgh, htaken⟩, hnum, s₀, path, flags, hopener, happend, hfound⟩
    have hgh : (calls t).handle = g := by omega
    subst hgh
    rcases flagsFromOpen_of_execution he _ htaken with ⟨s₁, path₁, flags₁, hopener₁, hflag⟩
    rw [hopener] at hopener₁
    cases hopener₁
    exact ⟨hg, htaken, hnum, hflag.2 ⟨hfound, happend⟩⟩
  · rfl
  · intro t h j hpc
    cases hpc
  · trivial
  · exact List.nodup_nil
  · intro t
    simp [World.start]

/-- After a run that truncates no file but empty ones, once all calls have returned their full lengths, the file
is its old contents followed by all buffers iff no call stored bytes between the refresh and the locked section
of another one that did. -/
theorem losesNothing_iff (he₀ : properCalls.Execution hist₀ s)
    (hC : System.EachStep (fun s a => ¬ TruncatesFile s a) hist₀)
    (hhandles : ∀ t, OpenedToAppend hist₀ s (calls t).handle i)
    (hinj : Function.Injective fun t => (calls t).handle)
    {hist : List (World k × AppendStep (Fin k))} {w : World k} (he : (appenders calls s).Execution hist w)
    (hdone : ∀ t, w.pc t = .returned (calls t).bytes.length) :
    LosesNothing calls s i w.lib ↔ Unmixed (fun t => (calls t).bytes.length) (hist.map Prod.snd) := by
  have hstart := running_start he₀ hC hhandles
  have hfull : FullLengths calls w := by
    intro t r ht
    rw [hdone t] at ht
    exact (Pc.returned.inj ht).symm
  have hr := running_of_execution hstart hinj he hfull
  -- every call has stored once
  have horder : (stores (hist.map Prod.snd)).Perm (List.finRange k) := by
    rw [List.perm_ext_iff_of_nodup hr.nodup (List.nodup_finRange k)]
    intro t
    rw [mem_stores, hr.stored]
    simp [hdone t]
  rw [← atEnd_iff_unmixed (l := ⟨(s.inodeTable i).iSize, fun _ => 0⟩) hr.refreshed]
  constructor
  · rintro ⟨order, hperm, happended⟩
    rw [← Log.size_eq_iff _ hr.refreshed]
    have hsum := ((horder.trans hperm.symm).map fun t => (calls t).bytes.length).sum_nat
    have hsize := happended.size
    rw [List.length_flatMap, hr.size] at hsize
    rw [hsum]
    exact hsize
  · intro hend
    exact ⟨_, horder, appended_of_atEnd hstart hinj he hfull hend⟩

end Law

/-! ## Two threads -/

/-- Create `/a`, and open it twice for appending. -/
def openTwice : List Call :=
  [.open (some slashA) tfsOCreat, .open (some slashA) tfsOAppend, .open (some slashA) tfsOAppend]

/-- Two threads append one byte each. -/
def twoAppends (t : Fin 2) : Append :=
  if t.val = 0 then ⟨1, [0x41]⟩ else ⟨2, [0x42]⟩

def performInBlock (a : AppendStep (Fin k)) (w : World k) : Option (World k) :=
  if StaysInBlock calls w a then perform calls a w else none

theorem execution_of_performAll {s : State} {as : List (AppendStep (Fin k))} {w : World k}
    (h : System.performAll (performInBlock calls) as (World.start s) = some w) :
    ∃ hist, (appenders calls s).Execution hist w ∧ hist.map Prod.snd = as.reverse := by
  have hstep : ∀ a ∈ as, ∀ w w', performInBlock calls a w = some w' → (appenders calls s).step w a w' := by
    intro a _ w w' hw
    unfold performInBlock at hw
    split at hw
    · next hblock => exact ⟨hblock, hw⟩
    · cases hw
  have hstart : (appenders calls s).Execution [] (World.start s) := .start rfl
  simpa using hstart.performAll hstep h

/-- The handles of both threads, after `openTwice`. -/
def ReadyToAppend (hist : List (State × Call)) (s : State) : Prop :=
  ∀ t, (HandleOpen s (twoAppends t).handle ∧ (s.openFileTable (twoAppends t).handle).ofInumber = 1) ∧
    (opener hist (twoAppends t).handle).any
      (fun x => hasFlag x.2.2 tfsOAppend && decide (0 ≤ tfsLookup x.2.1 x.1)) = true

instance (hist : List (State × Call)) (s : State) : Decidable (ReadyToAppend hist s) :=
  inferInstanceAs (Decidable (∀ _ : Fin 2, _))

theorem ReadyToAppend.openedToAppend {hist : List (State × Call)} {s : State} (hr : ReadyToAppend hist s)
    (t : Fin 2) : OpenedToAppend hist s (twoAppends t).handle (1 : ℕ) := by
  rcases hr t with ⟨⟨hopen, hnum⟩, hopener⟩
  rcases (Option.any_eq_true _ _).1 hopener with ⟨⟨s₀, path, flags⟩, hEq, hfound⟩
  rcases Bool.and_eq_true_iff.1 hfound with ⟨happend, hfound⟩
  exact ⟨hopen, hnum, s₀, path, flags, hEq, happend, of_decide_eq_true hfound⟩

/-- Both calls have returned 1, and the file has `n` bytes more than before. -/
def GrownBy (s : State) (n : ℕ) (w : World 2) : Prop :=
  (∀ t, w.pc t = .returned (twoAppends t).bytes.length) ∧
    (w.lib.inodeTable 1).iSize = (s.inodeTable 1).iSize + n

instance (s : State) (n : ℕ) (w : World 2) : Decidable (GrownBy s n w) :=
  inferInstanceAs (Decidable ((∀ _ : Fin 2, _) ∧ _))

theorem injective_twoAppends : Function.Injective fun t => (twoAppends t).handle := by
  have hapart : ∀ t u, (twoAppends t).handle = (twoAppends u).handle → t = u := by decide
  exact fun t u => hapart t u

theorem performAll_openTwice :
    (System.performAll (fileSystem.record OnOpenHandle) openTwice ([], tfsInit.2)).any
      (fun x => ReadyToAppend x.1 x.2 ∧
        (System.performAll (performInBlock twoAppends) [.refresh 0, .refresh 1, .store 0, .store 1]
          (World.start x.2)).any (fun w => GrownBy x.2 1 w) = true ∧
        (System.performAll (performInBlock twoAppends) [.refresh 0, .store 0, .refresh 1, .store 1]
          (World.start x.2)).any (fun w => GrownBy x.2 2 w) = true) = true := by
  rw [tfsInit_eq]
  decide +kernel

theorem eachStep_openTwice {hist : List (State × Call)} (hlabels : hist.map Prod.snd = openTwice.reverse) :
    System.EachStep (fun s a => ¬ TruncatesFile s a) hist := by
  apply eachStep_of_flags
  intro a ha name flags hEq
  rw [hlabels] at ha
  simp only [openTwice, List.reverse_cons, List.reverse_nil, List.nil_append, List.cons_append, List.mem_cons,
    List.not_mem_nil, or_false] at ha
  rcases ha with rfl | rfl | rfl
  · cases hEq
    decide
  · cases hEq
    decide
  · cases hEq
    decide

/-- Both threads refresh before either stores: the second byte is stored over the first one. -/
theorem overlapping_appends_lose : ∃ hist₀ s, properCalls.Execution hist₀ s ∧
    System.EachStep (fun s a => ¬ TruncatesFile s a) hist₀ ∧
    (∀ t, OpenedToAppend hist₀ s (twoAppends t).handle (1 : ℕ)) ∧
    Function.Injective (fun t => (twoAppends t).handle) ∧
    ∃ hist w, (appenders twoAppends s).Execution hist w ∧
      hist.map Prod.snd = [.store 1, .store 0, .refresh 1, .refresh 0] ∧
      (∀ t, w.pc t = .returned (twoAppends t).bytes.length) ∧ ¬ LosesNothing twoAppends s 1 w.lib := by
  rcases Machine.execution_of_any performAll_openTwice with ⟨hist₀, s, he, hlabels, hready, hoverlap, _⟩
  rcases (Option.any_eq_true _ _).1 hoverlap with ⟨w, hw, hgrown⟩
  rcases of_decide_eq_true hgrown with ⟨hdone, hgrown⟩
  have hsize : (w.lib.inodeTable 1).iSize = (s.inodeTable 1).iSize + 1 := hgrown
  rcases execution_of_performAll twoAppends hw with ⟨hist, hrun, hsteps⟩
  refine ⟨hist₀, s, he, eachStep_openTwice hlabels, hready.openedToAppend, injective_twoAppends, hist,
      w, hrun, hsteps,
    hdone, ?_⟩
  rintro ⟨order, hperm, happended⟩
  have hsum := (hperm.map fun t => (twoAppends t).bytes.length).sum_nat
  have htwo : ((List.finRange 2).map fun t => (twoAppends t).bytes.length).sum = 2 := by decide
  have htotal := happended.size
  rw [List.length_flatMap, hsum, htwo, hsize] at htotal
  omega

theorem losesNothing_iff_inTurn : ∃ hist₀ s, properCalls.Execution hist₀ s ∧
    ∃ hist w, (appenders twoAppends s).Execution hist w ∧
      hist.map Prod.snd = [.store 1, .refresh 1, .store 0, .refresh 0] ∧ LosesNothing twoAppends s 1 w.lib := by
  rcases Machine.execution_of_any performAll_openTwice with ⟨hist₀, s, he, hlabels, hready, _, hinTurn⟩
  rcases (Option.any_eq_true _ _).1 hinTurn with ⟨w, hw, hgrown⟩
  rcases of_decide_eq_true hgrown with ⟨hdone, _⟩
  rcases execution_of_performAll twoAppends hw with ⟨hist, hrun, hsteps⟩
  refine ⟨hist₀, s, he, hist, w, hrun, hsteps, ?_⟩
  apply (losesNothing_iff he (eachStep_openTwice hlabels) hready.openedToAppend injective_twoAppends hrun hdone).2
  rw [hsteps]
  exact ⟨Or.inr (Or.inl rfl), Or.inr (Or.inl rfl), trivial⟩

end Appenders
end Tfs
end TecnicoFs
