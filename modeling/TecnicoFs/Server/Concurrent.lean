import TecnicoFs.Lib.Simulation
import TecnicoFs.Server.Effects
import TecnicoFs.Server.Statements

/-!
# Concurrent — calls of the library that overlap

Any number of threads call the functions of the library at the same time, and between two memory accesses of
one of them the others go on.  `single_global_lock` makes each function take effect at once all the same:
such runs are linearizable to the library that runs one call after the other, and with it to its
specification.
-/

namespace TecnicoFs
namespace Server

open Lib

namespace Statements

/-! ## No function sets `state_closing` -/

section Keeps

variable {i h n dst : ℕ} {src : ℕ → Byte}

theorem keeps_onDisk {ρ : Type} (c : Code Disk ρ) : (onDisk c).Keeps State.stateClosing :=
  Code.keeps_within (by intro d s; rfl) c

theorem keeps_dataBlockAlloc : dataBlockAlloc.Keeps State.stateClosing :=
  Code.keeps_search (fun _ => Code.keeps_read)
    (fun _ => (Code.keeps_write (by intro s; rfl)).bind fun _ => Code.keeps_pure) Code.keeps_pure _ _

theorem keeps_dataBlockFree (z : ℤ) : (dataBlockFree z).Keeps State.stateClosing :=
  keeps_onDisk _

theorem keeps_setSize (size : ℕ) : (setSize i size).Keeps State.stateClosing :=
  Code.keeps_write (by intro s; rfl)

theorem keeps_setDataBlock (b : ℤ) : (setDataBlock i b).Keeps State.stateClosing :=
  Code.keeps_write (by intro s; rfl)

theorem keeps_setOffset (offset : ℕ) : (setOffset h offset).Keeps State.stateClosing :=
  Code.keeps_write (by intro s; rfl)

theorem keeps_createDirectory : (createDirectory i).Keeps State.stateClosing := by
  have hfail : (do
      Code.write fun s : State => s.markInode i .free
      pure (-1 : ℤ)).Keeps State.stateClosing :=
    (Code.keeps_write (by intro s; rfl)).bind fun _ => Code.keeps_pure
  refine keeps_dataBlockAlloc.bind fun b => hfail.ite ?_
  refine (keeps_setSize _).bind fun _ => (keeps_setDataBlock _).bind fun _ => ?_
  split
  · exact hfail
  · exact (keeps_onDisk _).bind fun _ => Code.keeps_pure

theorem keeps_inodeCreate (nType : InodeType) : (inodeCreate nType).Keeps State.stateClosing := by
  refine Code.keeps_search (fun _ => Code.keeps_read) (fun i => ?_) Code.keeps_pure _ _
  refine (Code.keeps_write (by intro s; rfl)).bind fun _ => (Code.keeps_write (by intro s; rfl)).bind fun _ => ?_
  cases nType with
  | directory => exact keeps_createDirectory
  | file => exact (keeps_setSize _).bind fun _ => (keeps_setDataBlock _).bind fun _ => Code.keeps_pure

theorem keeps_inodeDelete (inumber : ℤ) : (inodeDelete inumber).Keeps State.stateClosing := by
  refine Code.keeps_pure.ite (Code.keeps_read.bind fun _ => Code.keeps_pure.ite ?_)
  refine (Code.keeps_write (by intro s; rfl)).bind fun _ => Code.keeps_read.bind fun node => ?_
  exact ((keeps_dataBlockFree _).bind fun _ => Code.keeps_pure).ite Code.keeps_pure

theorem keeps_addDirEntry (inumber subInumber : ℤ) (subName : Option CString) :
    (addDirEntry inumber subInumber subName).Keeps State.stateClosing := by
  refine Code.keeps_pure.ite (Code.keeps_read.bind fun node => Code.keeps_pure.ite ?_)
  rcases subName with _ | name
  · exact Code.keeps_undefined
  refine Code.keeps_pure.ite ?_
  rcases dataBlockGet node.iDataBlock with _ | dir
  · exact Code.keeps_pure
  · exact keeps_onDisk _

theorem keeps_findInDir (inumber : ℤ) (subName : CString) :
    (findInDir inumber subName).Keeps State.stateClosing := by
  refine Code.keeps_pure.ite (Code.keeps_read.bind fun node => Code.keeps_pure.ite ?_)
  rcases dataBlockGet node.iDataBlock with _ | dir
  · exact Code.keeps_pure
  refine (keeps_onDisk _).bind fun k => ?_
  rcases k with _ | i
  · exact Code.keeps_pure
  · exact keeps_onDisk _

theorem keeps_addToOpenFileTable (inumber : ℤ) (offset : ℕ) :
    (addToOpenFileTable inumber offset).Keeps State.stateClosing := by
  refine Code.keeps_search (fun _ => Code.keeps_read) (fun i => ?_) Code.keeps_pure _ _
  exact (Code.keeps_write (by intro s; rfl)).bind fun _ => (Code.keeps_write (by intro s; rfl)).bind fun _ =>
    (keeps_setOffset _).bind fun _ => (Code.keeps_write (by intro s; rfl)).bind fun _ => Code.keeps_pure

theorem keeps_removeFromOpenFileTable (fhandle : ℤ) :
    (removeFromOpenFileTable fhandle).Keeps State.stateClosing := by
  refine Code.keeps_pure.ite (Code.keeps_read.bind fun _ => Code.keeps_pure.ite ?_)
  exact (Code.keeps_write (by intro s; rfl)).bind fun _ => (Code.keeps_write (by intro s; rfl)).bind fun _ =>
    Code.keeps_pure

theorem keeps_tfsLookupUnsynchronized (name : Path) :
    (tfsLookupUnsynchronized name).Keeps State.stateClosing := by
  rcases name with _ | p
  · exact Code.keeps_pure
  · exact (keeps_findInDir _ _).ite Code.keeps_pure

theorem keeps_truncate (flags : ℤ) : (truncate i flags).Keeps State.stateClosing := by
  refine (Code.keeps_read.bind fun node => ?_).ite Code.keeps_pure
  refine ((keeps_dataBlockFree _).bind fun _ => ?_).ite Code.keeps_pure
  exact Code.keeps_pure.ite ((keeps_setSize _).bind fun _ => Code.keeps_pure)

theorem keeps_openExisting (inum flags : ℤ) : (openExisting inum flags).Keeps State.stateClosing := by
  unfold openExisting
  rcases inodeGet inum with _ | i
  · exact Code.keeps_pure
  refine (keeps_truncate flags).bind fun _ => Code.keeps_pure.ite ?_
  exact (Code.keeps_read.bind fun _ => keeps_addToOpenFileTable _ _).ite (keeps_addToOpenFileTable _ _)

theorem keeps_openCreate (name : Path) : (openCreate name).Keeps State.stateClosing := by
  refine (keeps_inodeCreate .file).bind fun _ => Code.keeps_pure.ite ?_
  refine (keeps_addDirEntry _ _ _).bind fun _ => ?_
  exact ((keeps_inodeDelete _).bind fun _ => Code.keeps_pure).ite (keeps_addToOpenFileTable _ _)

theorem keeps_tfsOpenUnsynchronized (name : Path) (flags : ℤ) :
    (tfsOpenUnsynchronized name flags).Keeps State.stateClosing :=
  (keeps_tfsLookupUnsynchronized name).bind fun _ =>
    (keeps_openExisting _ flags).ite ((keeps_openCreate name).ite Code.keeps_pure)

theorem keeps_tfsClose (fhandle : ℤ) : (tfsClose fhandle).Keeps State.stateClosing :=
  (keeps_removeFromOpenFileTable fhandle).bind fun _ => Code.keeps_read.bind fun _ => Code.keeps_pure

theorem keeps_allocIfEmpty : (allocIfEmpty i).Keeps State.stateClosing :=
  Code.keeps_read.bind fun _ =>
    (keeps_dataBlockAlloc.bind fun _ => keeps_setDataBlock _).ite Code.keeps_pure

theorem keeps_storeBytes (block : ℕ) : (storeBytes h i block src n).Keeps State.stateClosing :=
  Code.keeps_read.bind fun _ => (keeps_onDisk _).bind fun _ => (keeps_setOffset _).bind fun _ =>
    Code.keeps_read.bind fun _ => (keeps_setSize _).ite Code.keeps_pure

theorem keeps_tfsWriteUnsynchronized (fhandle : ℤ) (buffer : ℕ → Byte) (toWrite : ℕ) :
    (tfsWriteUnsynchronized fhandle buffer toWrite).Keeps State.stateClosing := by
  unfold tfsWriteUnsynchronized
  rcases getOpenFileEntry fhandle with _ | h
  · exact Code.keeps_pure
  refine Code.keeps_read.bind fun inumber => ?_
  rcases inodeGet inumber with _ | i
  · exact Code.keeps_pure
  refine Code.keeps_read.bind fun offset => (keeps_allocIfEmpty.bind fun _ => ?_).ite Code.keeps_pure
  refine Code.keeps_read.bind fun b => ?_
  rcases dataBlockGet b with _ | block
  · exact Code.keeps_pure
  · exact Code.keeps_undefined.ite ((keeps_storeBytes block).bind fun _ => Code.keeps_pure)

theorem keeps_tfsReadUnsynchronized (fhandle : ℤ) (len : ℕ) :
    (tfsReadUnsynchronized fhandle len).Keeps State.stateClosing := by
  unfold tfsReadUnsynchronized
  rcases getOpenFileEntry fhandle with _ | h
  · exact Code.keeps_pure
  refine Code.keeps_read.bind fun inumber => ?_
  rcases inodeGet inumber with _ | i
  · exact Code.keeps_pure
  refine Code.keeps_read.bind fun size => Code.keeps_read.bind fun offset => ?_
  refine (Code.keeps_read.bind fun b => ?_).ite Code.keeps_pure
  rcases dataBlockGet b with _ | block
  · exact Code.keeps_pure
  · exact Code.keeps_undefined.ite ((keeps_onDisk _).bind fun _ => (keeps_setOffset _).bind fun _ =>
      Code.keeps_pure)

theorem keeps_body (a : Call) : (lockedLibrary.body a).Keeps State.stateClosing := by
  cases a with
  | «open» name flags => exact (keeps_tfsOpenUnsynchronized name flags).bind fun _ => Code.keeps_pure
  | close fhandle => exact (keeps_tfsClose fhandle).bind fun _ => Code.keeps_pure
  | write fhandle buffer len =>
      exact (keeps_tfsWriteUnsynchronized fhandle buffer len).bind fun _ => Code.keeps_pure
  | read fhandle len => exact (keeps_tfsReadUnsynchronized fhandle len).bind fun _ => Code.keeps_pure

end Keeps

theorem early_congr (a : Call) (s t : State) (h : s.stateClosing = t.stateClosing) :
    lockedLibrary.early a s = lockedLibrary.early a t := by
  cases a with
  | «open» name flags =>
      change (if s.stateClosing then _ else _) = _
      rw [h]
      rfl
  | close _ => rfl
  | write _ _ _ => rfl
  | read _ _ => rfl

/-- One call after the other, the locked library is the library. -/
theorem exec_sequential (a : Call) (s : State) : lockedLibrary.sequential.exec a s = exec a s := by
  cases a with
  | «open» name flags =>
      change (early (.open name flags) s).elim ((body (.open name flags)).run s) _ = _
      unfold early exec tfsOpen
      by_cases hclosing : stateClosingStatus s = true
      · simp [hclosing]
      · simp only [if_neg hclosing, Option.elim, body, Code.run_bind, run_tfsOpenUnsynchronized]
        rcases Server.tfsOpenUnsynchronized name flags s with _ | x
        · rfl
        · rfl
  | close fhandle =>
      change (body (.close fhandle)).run s = _
      simp [body, tfsClose, run_removeFromOpenFileTable, exec, Server.tfsClose]
  | write fhandle buffer len =>
      change (body (.write fhandle buffer len)).run s = _
      simp only [body, Code.run_bind, run_tfsWriteUnsynchronized, exec]
      rcases Server.tfsWriteUnsynchronized fhandle buffer len s with _ | x
      · rfl
      · rfl
  | read fhandle len =>
      change (body (.read fhandle len)).run s = _
      simp only [body, Code.run_bind, run_tfsReadUnsynchronized, exec]
      rcases Server.tfsReadUnsynchronized fhandle len s with _ | x
      · rfl
      · rfl

theorem sequential_lockedLibrary : lockedLibrary.sequential = library :=
  congrArg Machine.mk (funext fun a => funext fun s => exec_sequential a s)

end Statements

open Statements Spec

section Runs

variable {ι : Type} [DecidableEq ι] {h : List (Locked.World State Call Reply ι × Locked.Label Call ι)}
variable {w : Locked.World State Call Reply ι}

/-- **The library is linearizable.** However the memory accesses of overlapping calls interleave, the library
that performs one call after the other explains the replies, in an order that keeps real time; while nobody
holds the lock the memory is the one it leaves.  Where the specification covers each call, it explains
the replies as well. -/
theorem concurrentCalls_linearizable (he : (lockedLibrary.callers ι tfsInit.2).Execution h w) :
    Linearizes library tfsInit.2 ((lockedLibrary.observer ι).history h)
        ((lockedLibrary.observer ι).order h) ∧
      ∃ s, library.run (((lockedLibrary.observer ι).order h).map Lib.Event.call) tfsInit.2 =
          some (((lockedLibrary.observer ι).order h).map Lib.Event.reply, s) ∧
        lockedLibrary.Explains State.stateClosing w s ∧
        (machine.RunOk Allowed (((lockedLibrary.observer ι).order h).map Lib.Event.call) FileSystem.empty →
          Linearizes machine FileSystem.empty ((lockedLibrary.observer ι).history h)
              ((lockedLibrary.observer ι).order h) ∧
            ∃ fs, machine.run (((lockedLibrary.observer ι).order h).map Lib.Event.call) FileSystem.empty =
              some (((lockedLibrary.observer ι).order h).map Lib.Event.reply, fs) ∧ Abstracts s fs) := by
  have hlin := Locked.run_explained keeps_body early_congr he
  rw [sequential_lockedLibrary] at hlin
  rcases hlin with ⟨hexplained, s, hrun, hs⟩
  refine ⟨hexplained, s, hrun, hs, fun hok => ?_⟩
  rcases Machine.run_total (M := machine) (fun a fs => ⟨_, rfl⟩) (((lockedLibrary.observer ι).order h).map Lib.Event.call)
    FileSystem.empty with ⟨⟨rs, fs⟩, hspec⟩
  have hrefines := Machine.run_refines (C := library) (A := machine) (R := Abstracts)
    ?_ _ _ _ _ _ abstracts_tfsInit hok hspec
  · rcases hrefines with ⟨t, hrun', habs⟩
    rw [hrun] at hrun'
    cases hrun'
    exact ⟨{ hexplained with explained := ⟨fs, hspec⟩ }, fs, hspec, habs⟩
  · intro s fs a r fs' habs hallowed hexec
    have hpair : FileSystem.exec a fs = (r, fs') := Option.some.inj hexec
    have hlib := habs.exec hallowed
    rw [hpair] at hlib
    exact hlib

/-- The creation of `/a`. -/
def createA : Call :=
  .open (some slashA) tfsOCreat

/-- A write of two bytes to handle 0. -/
def writeTwo : Call :=
  .write 0 (fun _ => 0x62) 2

/-- The write is made while the creation is half-way, and waits for the lock. -/
def overlapping : List (Locked.Label Call Bool) :=
  [.call false createA, .test false, .lock false] ++ List.replicate 40 (.statement false) ++
    [.call true writeTwo, .test true] ++ List.replicate 38 (.statement false) ++
    [.unlock false, .lock true, .reply false] ++ List.replicate 14 (.statement true) ++
    [.unlock true, .reply true]

/-- Nothing has been called. -/
def beforeCalls : Locked.World State Call Reply Bool where
  memory := tfsInit.2
  holder := none
  stage _ := .fresh

/-- `/a` was created, then two bytes were written to it. -/
def createdThenWritten : List (Lib.Event Bool Call Reply) → Bool
  | [⟨_, .open path flags, r⟩, ⟨_, .write fhandle _ n, r'⟩] =>
      decide (path = some slashA ∧ flags = tfsOCreat ∧ fhandle = 0 ∧ n = 2 ∧ r.ret = 0 ∧ r'.ret = 2)
  | _ => false

theorem runOk_of_createdThenWritten {es : List (Lib.Event Bool Call Reply)}
    (h : createdThenWritten es = true) : machine.RunOk Allowed (es.map Lib.Event.call) FileSystem.empty := by
  unfold createdThenWritten at h
  split at h
  · next _ path flags r _ fhandle buffer n r' =>
      rcases of_decide_eq_true h with ⟨rfl, rfl, rfl, rfl, _, _⟩
      change machine.RunOk Allowed [createA, .write 0 buffer 2] FileSystem.empty
      refine (Machine.runOk_cons_of_exec rfl).2 ⟨⟨⟨⟨[0x61], by simp⟩, by decide, by decide⟩, by decide, ?_⟩, ?_⟩
      · intro hflag
        exact absurd hflag (by decide)
      · refine (Machine.runOk_cons_of_exec rfl).2 ⟨?_, trivial⟩
        exact ⟨0, ⟨⟨⟨[0x61], by simp⟩, by decide, by decide⟩, 0⟩, by decide, by decide⟩
  · cases h

theorem performAll_overlapping :
    (System.performAll (System.record lockedLibrary.perform) overlapping ([], beforeCalls)).any
      (fun x => createdThenWritten ((lockedLibrary.observer Bool).order x.1) = true) = true := by
  rw [beforeCalls, tfsInit_eq]
  decide +kernel

theorem concurrentCalls_linearizable_overlapping :
    ∃ (h : List (Locked.World State Call Reply Bool × Locked.Label Call Bool))
      (w : Locked.World State Call Reply Bool),
      (lockedLibrary.callers Bool tfsInit.2).Execution h w ∧
        createdThenWritten ((lockedLibrary.observer Bool).order h) = true ∧
        Linearizes machine FileSystem.empty ((lockedLibrary.observer Bool).history h)
          ((lockedLibrary.observer Bool).order h) := by
  have hinit : (lockedLibrary.callers Bool tfsInit.2).init beforeCalls := by
    refine ⟨?_, ?_, ?_⟩
    · rw [beforeCalls]
    · rw [beforeCalls]
    · intro i
      rw [beforeCalls]
  rcases System.execution_of_any lockedLibrary.perform (fun _ _ _ => Locked.step_of_perform) hinit
    performAll_overlapping with ⟨h, w, he, _, horder⟩
  rcases concurrentCalls_linearizable he with ⟨_, s, _, _, hspec⟩
  exact ⟨h, w, he, horder, (hspec (runOk_of_createdThenWritten horder)).1⟩

end Runs

end Server
end TecnicoFs
