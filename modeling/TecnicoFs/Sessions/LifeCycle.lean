import TecnicoFs.Server.OpenFiles
import TecnicoFs.Sessions.Intake

/-!
# Life cycle — the threads of the server from `server_init` to the end of `main`

The main thread waits on `server_cond` until a worker has set `server_open` to false; then `server_destroy`
signals every worker, joins them, cancels and joins the receiver, and destroys the locks.  A worker tests
`server_open` in both loops of `requestHandler`; it holds the mutex of its slot from the inner test on,
except while it waits there.  It keeps that mutex while `tfs_destroy_after_all_closed` waits on
`destroy_cond`, for a `tfs_close` of another worker.

Nothing waits inside of a section of `server_lock` or `single_global_lock`, so each of them is one step.  A
worker's call of the library and its reply are a step each, which may take any time; of the request only
the opcode is kept, so that the call is any with that opcode.  What calls `exit` ends all threads, and is
no step here.  After `tfs_destroy` the calls take place as if the lock were there still.
-/

namespace TecnicoFs
namespace Sessions
namespace LifeCycle

open Lib Wire Intake Server

/-! ## Threads -/

/-- Who may hold the mutex of a slot. -/
inductive Party
  | main
  | receiver
  | worker
  deriving DecidableEq

/-- Where `requestHandler` stands: `outer` is the condition of its outer loop, `testing` that of the inner
one; where that says to wait, it is `parking` until it does. In a request, `opening` is between the two
lines of `tfs_open`, `draining` and `resumed` are in the wait of `tfs_destroy_after_all_closed`, and
`answering` is behind the section of the library. -/
inductive Worker
  | outer
  | locking
  | testing
  | parking
  | waiting
  | woken
  | handling
  | opening
  | draining
  | resumed
  | answering
  | clearing
  | ended
  deriving DecidableEq

/-- It holds the mutex of its slot. -/
def Worker.Locked : Worker → Prop
  | testing => True
  | parking => True
  | handling => True
  | opening => True
  | draining => True
  | resumed => True
  | answering => True
  | clearing => True
  | _ => False

/-- Where `serverPipeReader` stands: reading up to the session id, before the mutex of the slot, with it and
reading the fields, or cancelled, perhaps with a mutex. -/
inductive Receiver
  | reading
  | locking (opcode : Byte) (session : ℕ)
  | storing (opcode : Byte) (session : ℕ)
  | ended (held : Option ℕ)
  deriving DecidableEq

/-- The slot whose mutex the receiver holds. -/
def Receiver.slot : Receiver → Option ℕ
  | reading => none
  | locking _ _ => none
  | storing _ s => some s
  | ended held => held

/-- Where `main` stands: its wait, the loops of `server_destroy` with their index, and the rest of that
function.  It holds the mutex of slot `k` while it is `holding k` or `signalled k`. -/
inductive Main
  | testing
  | waiting
  | woken
  | signalling (k : ℕ)
  | holding (k : ℕ)
  | signalled (k : ℕ)
  | joining (k : ℕ)
  | cancelling
  | joiningReceiver
  | destroying
  | finished
  deriving DecidableEq

def Main.slot : Main → Option ℕ
  | holding k => some k
  | signalled k => some k
  | _ => none

structure World where
  lib : Server.State
  serverOpen : Bool
  main : Main
  receiver : Receiver
  cancelled : Bool
  opcode : ℕ → Byte
  /-- `buffer_lock_table` -/
  owner : ℕ → Option Party
  worker : ℕ → Worker

/-- After `server_init`. -/
def World.start : World where
  lib := tfsInit.2
  serverOpen := true
  main := .testing
  receiver := .reading
  cancelled := false
  opcode _ := tfsOpCodeNull
  owner _ := none
  worker _ := .outer

namespace World

variable (w : World) (s : ℕ) (q : Worker) (p : Option Party)

@[simps -fullyApplied] def setWorker : World :=
  { w with worker := Function.update w.worker s q }

@[simps -fullyApplied] def setOwner : World :=
  { w with owner := Function.update w.owner s p }

/-- `signal_cond(&buffer_cond_table[session_id])`: only the worker of the slot waits there. -/
def signal : World :=
  if w.worker s = .waiting then w.setWorker s .woken else w

/-- `signal_cond(&server_cond)` -/
def signalServer : World :=
  if w.main = .waiting then { w with main := .woken } else w

/-- `pthread_cond_signal(&destroy_cond)`, which wakes worker `u`; any of those that wait may be the one, and
it has no effect if none does. -/
def signalDestroy (u : ℕ) : Option World :=
  if u < maxSessionsAmount ∧ w.worker u = .draining then some (w.setWorker u .resumed)
  else if ∀ t < maxSessionsAmount, w.worker t ≠ .draining then some w
  else none

/-- The condition of the loop of `tfs_destroy_after_all_closed`. -/
def drainOrWait : World :=
  w.setWorker s (if getOpenFilesNumber w.lib = 0 then .answering else .draining)

end World

/-! ## Steps -/

/-- The next step of `main`. -/
def mainStep (w : World) : Option World :=
  match w.main with
  | .testing => some { w with main := if w.serverOpen then .waiting else .signalling 0 }
  | .waiting => none
  | .woken => some { w with main := .testing }
  -- from here on `server_destroy`
  | .signalling k =>
      if k < maxSessionsAmount then
        if w.owner k = none then some { w.setOwner k (some .main) with main := .holding k } else none
      else
        some { w with main := .joining 0 }
  | .holding k => some { w.signal k with main := .signalled k }
  | .signalled k => some { w.setOwner k none with main := .signalling (k + 1) }
  | .joining k =>
      if k < maxSessionsAmount then
        if w.worker k = .ended then some { w with main := .joining (k + 1) } else none
      else
        some { w with main := .cancelling }
  | .cancelling => some { w with cancelled := true, main := .joiningReceiver }
  | .joiningReceiver =>
      match w.receiver with
      | .ended _ => some { w with main := .destroying }
      | _ => none
  | .destroying => some { w with main := .finished }
  | .finished => none

/-- `pthread_cond_wait` of `main` returns without a signal. -/
def wakeMain (w : World) : Option World :=
  if w.main = .waiting then some { w with main := .woken } else none

/-- The receiver reads the opcode and the session of a request, or of a mount that it accepts. -/
def hear (opcode : Byte) (s : ℕ) (w : World) : Option World :=
  if w.receiver = .reading ∧ s < maxSessionsAmount ∧
      (opcode = tfsOpCodeMount ∨ CarriesSession opcode) then
    some { w with receiver := .locking opcode s }
  else
    none

/-- Lock the mutex and store the opcode; or, with all fields read, signal the worker and unlock. -/
def receiverStep (w : World) : Option World :=
  match w.receiver with
  | .locking opcode s =>
      if w.owner s = none then
        some { w.setOwner s (some .receiver) with
          receiver := .storing opcode s
          opcode := Function.update w.opcode s opcode }
      else
        none
  -- the signal is inside of the section, so the worker is in its wait or before its test
  | .storing _ s => some { (w.signal s).setOwner s none with receiver := .reading }
  | _ => none

/-- The requests with fields behind the session id. -/
def ReadsFields (opcode : Byte) : Prop :=
  opcode = tfsOpCodeOpen ∨ opcode = tfsOpCodeClose ∨ opcode = tfsOpCodeWrite ∨ opcode = tfsOpCodeRead

instance : DecidablePred ReadsFields := fun _ => inferInstanceAs (Decidable (_ ∨ _))

/-- The receiver is cancelled in a `read`; a thread that waits for a mutex is not. -/
def cancel (w : World) : Option World :=
  if w.cancelled then
    match w.receiver with
    | .reading => some { w with receiver := .ended none }
    | .storing opcode s => if ReadsFields opcode then some { w with receiver := .ended (some s) } else none
    | _ => none
  else
    none

/-- The worker takes the mutex, from its outer loop or in `pthread_cond_wait`. -/
def takeBuffer (s : ℕ) (w : World) : Option World :=
  if w.owner s = none then some ((w.setOwner s (some .worker)).setWorker s .testing) else none

/-- The requests that are answered with a section of the library. -/
def CallsLibrary (opcode : Byte) : Prop :=
  opcode = tfsOpCodeClose ∨ opcode = tfsOpCodeWrite ∨ opcode = tfsOpCodeRead

instance : DecidablePred CallsLibrary := fun _ => inferInstanceAs (Decidable (_ ∨ _))

/-- What a worker does with a request before a section of the library: `tfs_open` has its first test of the
flag, and `tfs_destroy_after_all_closed` waits for nothing but the lock. -/
def handle (s : ℕ) (w : World) : Option World :=
  if w.opcode s = tfsOpCodeShutdownAfterAllClosed then
    -- the flag and the first test are in one section of the library
    some ({ w with lib := setStateClosing w.lib }.drainOrWait s)
  else if w.opcode s = tfsOpCodeOpen then
    some (w.setWorker s (if stateClosingStatus w.lib then .answering else .opening))
  else if CallsLibrary (w.opcode s) then
    none
  else
    some (w.setWorker s .answering)

/-- The next step of worker `s`. -/
def workerStep (s : ℕ) (w : World) : Option World :=
  match w.worker s with
  | .outer => some (w.setWorker s (if w.serverOpen then .locking else .ended))
  | .locking => takeBuffer s w
  | .testing =>
      if w.opcode s > tfsOpCodeNull then
        some (w.setWorker s .handling)
      else if w.serverOpen then
        some (w.setWorker s .parking)
      else
        -- the `default` branch of the `switch`
        some (w.setWorker s .clearing)
  | .parking => some ((w.setOwner s none).setWorker s .waiting)
  | .waiting => none
  | .woken => takeBuffer s w
  | .handling => handle s w
  | .opening => none
  | .draining => none
  | .resumed => some (w.drainOrWait s)
  | .answering => some (w.setWorker s .clearing)
  | .clearing =>
      some { (w.setOwner s none).setWorker s .outer with
        opcode := Function.update w.opcode s tfsOpCodeNull }
  | .ended => none

/-- `pthread_cond_wait` of a worker returns without a signal. -/
def wake (s : ℕ) (w : World) : Option World :=
  if w.worker s = .waiting then some (w.setWorker s .woken) else none

/-- `pthread_cond_wait` of `tfs_destroy_after_all_closed` returns without a signal. -/
def resume (s : ℕ) (w : World) : Option World :=
  if w.worker s = .draining then some (w.setWorker s .resumed) else none

/-- The section of the library in which worker `s` makes the call; a `tfs_close` that leaves no file open
signals `destroy_cond`, which wakes worker `u`. -/
def library (s : ℕ) (c : Server.Call) (u : ℕ) (w : World) : Option World :=
  match w.worker s, c with
  | .opening, .open name flags =>
      (tfsOpenUnsynchronized name flags w.lib).map fun x => { w.setWorker s .answering with lib := x.2 }
  | .handling, .close fhandle =>
      if w.opcode s = tfsOpCodeClose then
        let w' := { w.setWorker s .answering with lib := (tfsClose fhandle w.lib).2 }
        if getOpenFilesNumber w'.lib = 0 then w'.signalDestroy u else some w'
      else
        none
  | .handling, .write fhandle buffer len =>
      if w.opcode s = tfsOpCodeWrite then
        (tfsWriteUnsynchronized fhandle buffer len w.lib).map fun x =>
          { w.setWorker s .answering with lib := x.2 }
      else
        none
  | .handling, .read fhandle len =>
      if w.opcode s = tfsOpCodeRead then
        (tfsReadUnsynchronized fhandle len w.lib).map fun x =>
          { w.setWorker s .answering with lib := x.2.2 }
      else
        none
  | _, _ => none

/-- `write_shutdown` behind its reply, where `tfs_destroy_after_all_closed` returned 0. -/
def writeShutdown (s : ℕ) (w : World) : Option World :=
  if w.worker s = .answering ∧ w.opcode s = tfsOpCodeShutdownAfterAllClosed then
    some { w.signalServer.setWorker s .clearing with serverOpen := false }
  else
    none

inductive Label
  | main
  | wakeMain
  | hear (opcode : Byte) (s : ℕ)
  | receiver
  | cancel
  | worker (s : ℕ)
  | wake (s : ℕ)
  | resume (s : ℕ)
  | library (s : ℕ) (c : Server.Call) (u : ℕ)
  | writeShutdown (s : ℕ)

/-- What a step does; `none` where it cannot be taken. -/
def perform : Label → World → Option World
  | .main, w => mainStep w
  | .wakeMain, w => wakeMain w
  | .hear opcode s, w => hear opcode s w
  | .receiver, w => receiverStep w
  | .cancel, w => cancel w
  | .worker s, w => if s < maxSessionsAmount then workerStep s w else none
  | .wake s, w => if s < maxSessionsAmount then wake s w else none
  | .resume s, w => if s < maxSessionsAmount then resume s w else none
  | .library s c u, w => if s < maxSessionsAmount then library s c u w else none
  | .writeShutdown s, w => if s < maxSessionsAmount then writeShutdown s w else none

/-- The threads of the server, in any interleaving. -/
def server : System World Label where
  init w := w = World.start
  step w a w' := perform a w = some w'

/-! ## What each thread is owed -/

/-- The worker does not test `server_open` before it is signalled. -/
def Worker.Asleep : Worker → Prop
  | parking => True
  | waiting => True
  | _ => False

/-- `server_destroy` has signalled the worker of slot `s`. -/
def Main.Signalled (s : ℕ) : Main → Prop
  | testing => False
  | waiting => False
  | woken => False
  | signalling k => s < k
  | holding k => s < k
  | signalled k => s ≤ k
  | _ => True

/-- `server_destroy` has joined the worker of slot `s`. -/
def Main.Joined (s : ℕ) : Main → Prop
  | joining k => s < k
  | cancelling => True
  | joiningReceiver => True
  | destroying => True
  | finished => True
  | _ => False

/-- `main` has left its wait. -/
def Main.Left : Main → Prop
  | testing => False
  | waiting => False
  | woken => False
  | _ => True

/-- The receiver has been cancelled. -/
def Main.Cancelled : Main → Prop
  | joiningReceiver => True
  | destroying => True
  | finished => True
  | _ => False

/-- The receiver has been joined. -/
def Main.JoinedReceiver : Main → Prop
  | destroying => True
  | finished => True
  | _ => False

/-- The thread is in a section of the mutex of slot `s`. -/
def World.Inside (w : World) (s : ℕ) : Party → Prop
  | .main => w.main.slot = some s
  | .receiver => w.receiver.slot = some s
  | .worker => (w.worker s).Locked

/-- A mutex is held by the thread that is in a section of it, and so by one at most; no wake-up is lost; and
`main` goes on only behind the threads that it has joined. -/
structure Sound (w : World) : Prop where
  owned : ∀ s p, w.owner s = some p ↔ w.Inside s p
  index : ∀ k, w.main.slot = some k → k < maxSessionsAmount
  session : ∀ opcode s, w.receiver = .locking opcode s → s < maxSessionsAmount
  left : w.main.Left → w.serverOpen = false
  serverWoken : w.serverOpen = false → w.main ≠ .waiting
  workerWoken : ∀ s < maxSessionsAmount, w.main.Signalled s → ¬ (w.worker s).Asleep
  joined : ∀ s < maxSessionsAmount, w.main.Joined s → w.worker s = .ended
  joinedReceiver : w.main.JoinedReceiver → ∃ held, w.receiver = .ended held
  cancelled : ∀ held, w.receiver = .ended held → w.cancelled = true
  cancelling : w.cancelled = true ↔ w.main.Cancelled

/-! ## The steps keep it -/

section Steps

variable {w w' : World} {s t : ℕ} {q : Worker} {p p₀ : Party}

/-- A free mutex is taken by the thread that comes into a section of it. -/
theorem owned_take {owner : ℕ → Option Party} {inside inside' : ℕ → Party → Prop}
    (h : ∀ t p, owner t = some p ↔ inside t p) (hfree : owner s = none)
    (hinside : ∀ t p, inside' t p ↔ inside t p ∨ (t = s ∧ p = p₀)) (t : ℕ) (p : Party) :
    Function.update owner s (some p₀) t = some p ↔ inside' t p := by
  rw [hinside, ← h, Function.update_apply]
  split
  · next ht =>
      rw [ht, hfree]
      simp [eq_comm]
  · next ht => simp [ht]

/-- It is free again when that thread leaves. -/
theorem owned_drop {owner : ℕ → Option Party} {inside inside' : ℕ → Party → Prop}
    (h : ∀ t p, owner t = some p ↔ inside t p) (hheld : inside s p₀)
    (hinside : ∀ t p, inside' t p ↔ inside t p ∧ ¬ (t = s ∧ p = p₀)) (t : ℕ) (p : Party) :
    Function.update owner s none t = some p ↔ inside' t p := by
  rw [hinside, ← h, Function.update_apply]
  split
  · next ht =>
      rw [ht, (h s p₀).2 hheld]
      simp [eq_comm]
  · next ht => simp [ht]

/-- Worker `s` goes on at `q`; `owner` are the mutexes after that. -/
theorem Sound.moveWorker (hw : Sound w) {owner : ℕ → Option Party} {opcode : ℕ → Byte}
    (howned : ∀ t p, owner t = some p ↔ (w.setWorker s q).Inside t p)
    (hwait : w.main.Signalled s → ¬ q.Asleep) (hrun : w.worker s ≠ .ended) :
    Sound { w.setWorker s q with owner := owner, opcode := opcode } where
  owned := howned
  index := hw.index
  session := hw.session
  left := hw.left
  serverWoken := hw.serverWoken
  workerWoken t ht hsignalled := by
    change ¬ (Function.update w.worker s q t).Asleep
    rw [Function.update_apply]
    split
    · next hts => exact hwait (hts ▸ hsignalled)
    · exact hw.workerWoken t ht hsignalled
  joined t ht hjoined := by
    change Function.update w.worker s q t = _
    rw [Function.update_apply]
    split
    · next hts => exact absurd (hts ▸ hw.joined t ht hjoined) hrun
    · exact hw.joined t ht hjoined
  joinedReceiver := hw.joinedReceiver
  cancelled := hw.cancelled
  cancelling := hw.cancelling

/-- What a worker's move changes of the sections. -/
theorem inside_setWorker : (w.setWorker s q).Inside t p ↔
    if t = s ∧ p = .worker then q.Locked else w.Inside t p := by
  cases p with
  | worker =>
      change (Function.update w.worker s q t).Locked ↔ _
      rw [Function.update_apply]
      by_cases ht : t = s
      · simp [ht]
      · simp [ht, World.Inside]
  | main => simp [World.Inside]
  | receiver => simp [World.Inside]

/-- The worker keeps what it has of the mutex. -/
theorem Sound.keep (hw : Sound w) (hlocked : q.Locked ↔ (w.worker s).Locked)
    (hwait : w.main.Signalled s → ¬ q.Asleep) (hrun : w.worker s ≠ .ended) :
    Sound (w.setWorker s q) := by
  refine hw.moveWorker ?_ hwait hrun
  intro t p
  rw [inside_setWorker, hw.owned]
  split
  · next h =>
      rcases h with ⟨rfl, rfl⟩
      exact hlocked.symm
  · rfl

theorem Sound.takeBuffer (hw : Sound w) (hrun : w.worker s ≠ .ended)
    (hstep : LifeCycle.takeBuffer s w = some w') : Sound w' := by
  unfold LifeCycle.takeBuffer at hstep
  split at hstep
  · next hfree =>
      cases hstep
      refine hw.moveWorker (owned_take hw.owned hfree ?_) (fun _ => id) hrun
      intro t p
      rw [inside_setWorker]
      split
      · next h => exact iff_of_true trivial (Or.inr h)
      · next h => exact (or_iff_left h).symm
  · cases hstep

theorem Sound.dropBuffer (hw : Sound w) {opcode : ℕ → Byte} (hin : (w.worker s).Locked)
    (hout : ¬ q.Locked) (hwait : w.main.Signalled s → ¬ q.Asleep) :
    Sound { (w.setOwner s none).setWorker s q with opcode := opcode } := by
  have hinside : w.Inside s .worker := hin
  refine hw.moveWorker (owned_drop hw.owned hinside ?_) hwait ?_
  · intro t p
    rw [inside_setWorker]
    split
    · next h => exact iff_of_false hout fun hand => hand.2 h
    · next h => exact (and_iff_left h).symm
  · intro hended
    rw [hended] at hin
    exact hin

theorem Main.Signalled.left {m : Main} (h : m.Signalled s) : m.Left := by
  cases m with
  | testing => exact h
  | waiting => exact h
  | woken => exact h
  | _ => trivial

theorem Sound.setLib (hw : Sound w) (lib : Server.State) : Sound { w with lib := lib } where
  owned := hw.owned
  index := hw.index
  session := hw.session
  left := hw.left
  serverWoken := hw.serverWoken
  workerWoken := hw.workerWoken
  joined := hw.joined
  joinedReceiver := hw.joinedReceiver
  cancelled := hw.cancelled
  cancelling := hw.cancelling

/-- In a request the worker keeps the mutex of its slot. -/
theorem Sound.moveInRequest (hw : Sound w) (hlocked : (w.worker s).Locked) (hq : q.Locked)
    (hwait : ¬ q.Asleep) : Sound (w.setWorker s q) := by
  refine hw.keep (iff_of_true hq hlocked) (fun _ => hwait) ?_
  intro hended
  rw [hended] at hlocked
  exact hlocked

theorem Sound.drainOrWait (hw : Sound w) (hlocked : (w.worker s).Locked) : Sound (w.drainOrWait s) := by
  unfold World.drainOrWait
  split
  · exact hw.moveInRequest hlocked trivial id
  · exact hw.moveInRequest hlocked trivial id

theorem Sound.handle (hw : Sound w) (hlocked : (w.worker s).Locked)
    (hstep : LifeCycle.handle s w = some w') : Sound w' := by
  unfold LifeCycle.handle at hstep
  split at hstep
  · cases hstep
    exact (hw.setLib _).drainOrWait hlocked
  · split at hstep
    · cases hstep
      split
      · exact hw.moveInRequest hlocked trivial id
      · exact hw.moveInRequest hlocked trivial id
    · split at hstep
      · cases hstep
      · cases hstep
        exact hw.moveInRequest hlocked trivial id

theorem Sound.workerStep (hw : Sound w) (hs : s < maxSessionsAmount)
    (hstep : LifeCycle.workerStep s w = some w') : Sound w' := by
  unfold LifeCycle.workerStep at hstep
  cases hq : w.worker s with
  | outer =>
      simp only [hq] at hstep
      cases hstep
      refine hw.keep ?_ ?_ (by simp [hq])
      · rw [hq]
        split
        · rfl
        · rfl
      · intro _
        split
        · exact id
        · exact id
  | locking =>
      simp only [hq] at hstep
      exact hw.takeBuffer (by simp [hq]) hstep
  | testing =>
      simp only [hq] at hstep
      split at hstep
      · cases hstep
        exact hw.keep (by simp [hq, Worker.Locked]) (fun _ => id) (by simp [hq])
      · split at hstep
        · next hopen =>
            cases hstep
            refine hw.keep (by simp [hq, Worker.Locked]) ?_ (by simp [hq])
            -- `server_destroy` signals only while the server is closed
            intro hsignalled
            rw [hw.left hsignalled.left] at hopen
            cases hopen
        · cases hstep
          exact hw.keep (by simp [hq, Worker.Locked]) (fun _ => id) (by simp [hq])
  | parking =>
      simp only [hq] at hstep
      cases hstep
      refine hw.dropBuffer (by simp [hq, Worker.Locked]) id ?_
      intro hsignalled
      exact absurd (by rw [hq]; trivial) (hw.workerWoken s hs hsignalled)
  | waiting =>
      simp only [hq] at hstep
      cases hstep
  | woken =>
      simp only [hq] at hstep
      exact hw.takeBuffer (by simp [hq]) hstep
  | handling =>
      simp only [hq] at hstep
      exact hw.handle (by rw [hq]; trivial) hstep
  | opening =>
      simp only [hq] at hstep
      cases hstep
  | draining =>
      simp only [hq] at hstep
      cases hstep
  | resumed =>
      simp only [hq] at hstep
      cases hstep
      exact hw.drainOrWait (by rw [hq]; trivial)
  | answering =>
      simp only [hq] at hstep
      cases hstep
      exact hw.moveInRequest (by rw [hq]; trivial) trivial id
  | clearing =>
      simp only [hq] at hstep
      cases hstep
      exact hw.dropBuffer (by simp [hq, Worker.Locked]) id fun _ => id
  | ended =>
      simp only [hq] at hstep
      cases hstep

theorem Sound.wakeWorker (hw : Sound w) (hwaiting : w.worker s = .waiting) :
    Sound (w.setWorker s .woken) :=
  hw.keep (by simp [hwaiting, Worker.Locked]) (fun _ => id) (by simp [hwaiting])

theorem Sound.wake (hw : Sound w) (hstep : LifeCycle.wake s w = some w') : Sound w' := by
  unfold LifeCycle.wake at hstep
  split at hstep
  · next hwaiting =>
      cases hstep
      exact hw.wakeWorker hwaiting
  · cases hstep

theorem Sound.resume (hw : Sound w) (hstep : LifeCycle.resume s w = some w') : Sound w' := by
  unfold LifeCycle.resume at hstep
  split at hstep
  · next hdraining =>
      cases hstep
      exact hw.moveInRequest (by rw [hdraining]; trivial) trivial id
  · cases hstep

/-- What the signal on `destroy_cond` does. -/
theorem signalDestroy_cases (h : w.signalDestroy t = some w') :
    (t < maxSessionsAmount ∧ w.worker t = .draining ∧ w' = w.setWorker t .resumed) ∨
      ((∀ u < maxSessionsAmount, w.worker u ≠ .draining) ∧ w' = w) := by
  unfold World.signalDestroy at h
  split at h
  · next hdraining =>
      cases h
      exact Or.inl ⟨hdraining.1, hdraining.2, rfl⟩
  · split at h
    · next hnone =>
        cases h
        exact Or.inr ⟨hnone, rfl⟩
    · cases h

/-- The worker is before its section of the library. -/
def Worker.Calls : Worker → Prop
  | handling => True
  | opening => True
  | _ => False

theorem Worker.Calls.locked (h : q.Calls) : q.Locked := by
  cases q with
  | handling => trivial
  | opening => trivial
  | _ => exact False.elim h

/-- What a section of the library does: the worker has its answer, and the table of open files grows, or keeps
an entry, or `destroy_cond` is signalled. -/
theorem library_cases {c : Server.Call} (h : library s c t w = some w') :
    (w.worker s).Calls ∧ ∃ lib, TableChange w.lib lib ∧
      (((TableGrowth w.lib lib ∨ getOpenFilesNumber lib ≠ 0) ∧
          w' = { w.setWorker s .answering with lib := lib }) ∨
        (getOpenFilesNumber lib = 0 ∧
          World.signalDestroy { w.setWorker s .answering with lib := lib } t = some w')) := by
  unfold library at h
  split at h
  · next name flags hq =>
      rcases Option.map_eq_some_iff.1 h with ⟨⟨r, lib⟩, hopen, rfl⟩
      have hgrowth := tfsOpenUnsynchronized_growth hopen
      exact ⟨by rw [hq]; trivial, lib, .grown hgrowth, Or.inl ⟨Or.inl hgrowth, rfl⟩⟩
  · next fhandle hq =>
      split at h
      · refine ⟨by rw [hq]; trivial, _, removeFromOpenFileTable_change fhandle w.lib, ?_⟩
        dsimp only at h
        split at h
        · next hzero => exact Or.inr ⟨hzero, h⟩
        · next hnot =>
            cases h
            exact Or.inl ⟨Or.inr hnot, rfl⟩
      · cases h
  · next fhandle buffer len hq =>
      split at h
      · rcases Option.map_eq_some_iff.1 h with ⟨⟨r, lib⟩, hwrite, rfl⟩
        have hexec : exec (.write fhandle buffer len) w.lib = some (⟨r, []⟩, lib) := by
          simp only [exec, hwrite, Option.map_some]
        have hgrowth := exec_growth (fun _ => Call.noConfusion) hexec
        exact ⟨by rw [hq]; trivial, lib, .grown hgrowth, Or.inl ⟨Or.inl hgrowth, rfl⟩⟩
      · cases h
  · next fhandle len hq =>
      split at h
      · rcases Option.map_eq_some_iff.1 h with ⟨⟨r, out, lib⟩, hread, rfl⟩
        have hexec : exec (.read fhandle len) w.lib = some (⟨r, out⟩, lib) := by
          simp only [exec, hread, Option.map_some]
        have hgrowth := exec_growth (fun _ => Call.noConfusion) hexec
        exact ⟨by rw [hq]; trivial, lib, .grown hgrowth, Or.inl ⟨Or.inl hgrowth, rfl⟩⟩
      · cases h
  · cases h

theorem Sound.library (hw : Sound w) {c : Server.Call} (hstep : LifeCycle.library s c t w = some w') :
    Sound w' := by
  rcases library_cases hstep with ⟨hcalls, lib, _, hcases⟩
  have hmoved : Sound (w.setWorker s .answering) := hw.moveInRequest hcalls.locked trivial id
  have hanswered := hmoved.setLib lib
  rcases hcases with ⟨_, rfl⟩ | ⟨_, hsignal⟩
  · exact hanswered
  · rcases signalDestroy_cases hsignal with ⟨_, hdraining, rfl⟩ | ⟨_, rfl⟩
    · exact hanswered.moveInRequest (by rw [hdraining]; trivial) trivial id
    · exact hanswered

theorem Sound.signal (hw : Sound w) : Sound (w.signal s) := by
  unfold World.signal
  split
  · next hwaiting => exact hw.wakeWorker hwaiting
  · exact hw

/-- A worker is not asleep after a signal that is given with its mutex in hand: it cannot be between its
test and its wait then. -/
theorem awake_signal (hout : ¬ (w.worker s).Locked) : ¬ ((w.signal s).worker s).Asleep := by
  unfold World.signal
  split
  · simp [World.setWorker, Worker.Asleep]
  · next hwaiting =>
      cases hq : w.worker s with
      | parking =>
          rw [hq] at hout
          exact absurd trivial hout
      | waiting => exact absurd hq hwaiting
      | _ => exact id

@[simp] theorem signal_main (w : World) (s : ℕ) : (w.signal s).main = w.main := by
  unfold World.signal
  split
  · rfl
  · rfl

@[simp] theorem signal_receiver (w : World) (s : ℕ) : (w.signal s).receiver = w.receiver := by
  unfold World.signal
  split
  · rfl
  · rfl

@[simp] theorem signal_serverOpen (w : World) (s : ℕ) : (w.signal s).serverOpen = w.serverOpen := by
  unfold World.signal
  split
  · rfl
  · rfl

/-! ### The receiver -/

/-- The receiver goes on at `q`; `owner` are the mutexes after that. -/
theorem Sound.moveReceiver (hw : Sound w) {q : Receiver} {owner : ℕ → Option Party} {opcode : ℕ → Byte}
    (howned : ∀ t p, owner t = some p ↔ ({ w with receiver := q } : World).Inside t p)
    (hsession : ∀ opcode s, q = .locking opcode s → s < maxSessionsAmount)
    (hrun : ∀ held, w.receiver ≠ .ended held) (hended : ∀ held, q = .ended held → w.cancelled = true) :
    Sound { w with receiver := q, owner := owner, opcode := opcode } where
  owned := howned
  index := hw.index
  session := hsession
  left := hw.left
  serverWoken := hw.serverWoken
  workerWoken := hw.workerWoken
  joined := hw.joined
  joinedReceiver hjoined := by
    rcases hw.joinedReceiver hjoined with ⟨held, hreceiver⟩
    exact absurd hreceiver (hrun held)
  cancelled := hended
  cancelling := hw.cancelling

theorem inside_receiver {q : Receiver} : ({ w with receiver := q } : World).Inside t p ↔
    if p = .receiver then q.slot = some t else w.Inside t p := by
  cases p <;> simp [World.Inside]

theorem Sound.hear (hw : Sound w) {opcode : Byte} (hstep : LifeCycle.hear opcode s w = some w') :
    Sound w' := by
  unfold LifeCycle.hear at hstep
  split at hstep
  · next h =>
      cases hstep
      refine hw.moveReceiver ?_ ?_ (by simp [h.1]) (fun _ h => nomatch h)
      · intro t p
        rw [inside_receiver, hw.owned]
        split
        · next hp => rw [hp, World.Inside, h.1]; rfl
        · rfl
      · intro _ _ heq
        cases heq
        exact h.2.1
  · cases hstep

theorem Sound.receiverStep (hw : Sound w) (hstep : LifeCycle.receiverStep w = some w') : Sound w' := by
  unfold LifeCycle.receiverStep at hstep
  cases hq : w.receiver with
  | reading =>
      simp only [hq] at hstep
      cases hstep
  | locking opcode s =>
      simp only [hq] at hstep
      split at hstep
      · next hfree =>
          cases hstep
          refine hw.moveReceiver (owned_take hw.owned hfree ?_) (fun _ _ h => nomatch h) (by simp [hq]) (fun _ h => nomatch h)
          intro t p
          rw [inside_receiver]
          cases p <;> simp [World.Inside, hq, Receiver.slot, eq_comm]
      · cases hstep
  | storing opcode s =>
      simp only [hq] at hstep
      cases hstep
      have hs : Sound (w.signal s) := hw.signal
      have hin : (w.signal s).Inside s .receiver := by
        simp [World.Inside, hq, Receiver.slot]
      refine hs.moveReceiver (owned_drop hs.owned hin ?_) (fun _ _ h => nomatch h) (by simp [hq]) (fun _ h => nomatch h)
      intro t p
      rw [inside_receiver]
      cases p <;> simp [World.Inside, hq, Receiver.slot, eq_comm]
  | ended held =>
      simp only [hq] at hstep
      cases hstep

theorem Sound.cancel (hw : Sound w) (hstep : LifeCycle.cancel w = some w') : Sound w' := by
  unfold LifeCycle.cancel at hstep
  split at hstep
  · next hcancelled =>
      cases hq : w.receiver with
      | reading =>
          simp only [hq] at hstep
          cases hstep
          refine hw.moveReceiver ?_ (fun _ _ h => nomatch h) (by simp [hq]) (fun _ _ => hcancelled)
          intro t p
          rw [inside_receiver, hw.owned]
          split
          · next hp => rw [hp, World.Inside, hq]; rfl
          · rfl
      | locking opcode s =>
          simp only [hq] at hstep
          cases hstep
      | storing opcode s =>
          simp only [hq] at hstep
          split at hstep
          · cases hstep
            refine hw.moveReceiver ?_ (fun _ _ h => nomatch h) (by simp [hq]) (fun _ _ => hcancelled)
            intro t p
            rw [inside_receiver, hw.owned]
            split
            · next hp => rw [hp, World.Inside, hq]; rfl
            · rfl
          · cases hstep
      | ended held =>
          simp only [hq] at hstep
          cases hstep
  · cases hstep

/-! ### The main thread -/

theorem inside_main {m : Main} : ({ w with main := m } : World).Inside t p ↔
    if p = .main then m.slot = some t else w.Inside t p := by
  cases p <;> simp [World.Inside]

/-- `main` goes on at `m`; `owner` are the mutexes after that. -/
theorem sound_of_main {m : Main} {owner : ℕ → Option Party} {cancelled : Bool}
    (howned : ∀ t p, owner t = some p ↔ ({ w with main := m } : World).Inside t p)
    (hindex : ∀ k, m.slot = some k → k < maxSessionsAmount)
    (hsession : ∀ opcode s, w.receiver = .locking opcode s → s < maxSessionsAmount)
    (hleft : m.Left → w.serverOpen = false) (hwoken : w.serverOpen = false → m ≠ .waiting)
    (hsignalled : ∀ s < maxSessionsAmount, m.Signalled s → ¬ (w.worker s).Asleep)
    (hjoined : ∀ s < maxSessionsAmount, m.Joined s → w.worker s = .ended)
    (hreceiver : m.JoinedReceiver → ∃ held, w.receiver = .ended held)
    (hcancelled : cancelled = true ↔ m.Cancelled)
    (hended : ∀ held, w.receiver = .ended held → cancelled = true) :
    Sound { w with main := m, owner := owner, cancelled := cancelled } where
  owned := howned
  index := hindex
  session := hsession
  left := hleft
  serverWoken := hwoken
  workerWoken := hsignalled
  joined := hjoined
  joinedReceiver := hreceiver
  cancelled := hended
  cancelling := hcancelled

theorem owned_main (hw : Sound w) {m : Main} (hslot : m.slot = w.main.slot) (t : ℕ) (p : Party) :
    w.owner t = some p ↔ ({ w with main := m } : World).Inside t p := by
  rw [inside_main, hw.owned]
  split
  · next hp => rw [hp, hslot, World.Inside]
  · rfl

/-- `main` keeps what it has of the mutexes. -/
theorem Sound.keepMain (hw : Sound w) {m : Main} (hslot : m.slot = w.main.slot)
    (hleft : m.Left → w.serverOpen = false) (hwoken : w.serverOpen = false → m ≠ .waiting)
    (hsignalled : ∀ s < maxSessionsAmount, m.Signalled s → ¬ (w.worker s).Asleep)
    (hjoined : ∀ s < maxSessionsAmount, m.Joined s → w.worker s = .ended)
    (hreceiver : m.JoinedReceiver → ∃ held, w.receiver = .ended held)
    (hcancelled : m.Cancelled ↔ w.main.Cancelled) : Sound { w with main := m } :=
  sound_of_main (owned_main hw hslot) (fun k hk => hw.index k (hslot ▸ hk)) hw.session hleft hwoken hsignalled hjoined
    hreceiver (hw.cancelling.trans hcancelled.symm) hw.cancelled

/-! `server_destroy` locks, signals and unlocks for one worker after the other, and then joins them. -/

section Destroy

variable {k : ℕ}

theorem Sound.mainLocks (hw : Sound w) (hm : w.main = .signalling k) (hk : k < maxSessionsAmount)
    (hfree : w.owner k = none) : Sound { w.setOwner k (some .main) with main := .holding k } := by
  have hclosed : w.serverOpen = false := hw.left (by rw [hm]; trivial)
  refine sound_of_main (owned_take hw.owned hfree ?_) ?_ hw.session (fun _ => hclosed) (fun _ h => nomatch h) ?_
    (fun _ _ h => False.elim h) (fun h => False.elim h) (hw.cancelling.trans (by rw [hm]; exact Iff.rfl))
    hw.cancelled
  · intro t p
    rw [inside_main]
    cases p <;> simp [World.Inside, hm, Main.slot, eq_comm]
  · intro j hj
    cases hj
    exact hk
  · exact fun s hs h => hw.workerWoken s hs (by rw [hm]; exact h)

theorem Sound.mainSignals (hw : Sound w) (hm : w.main = .holding k) :
    Sound { w.signal k with main := .signalled k } := by
  have hs : Sound (w.signal k) := hw.signal
  have hclosed : (w.signal k).serverOpen = false := hs.left (by rw [signal_main, hm]; trivial)
  refine hs.keepMain (by rw [signal_main, hm]; rfl) (fun _ => hclosed) (fun _ h => nomatch h) ?_
    (fun _ _ h => False.elim h) (fun h => False.elim h) (by rw [signal_main, hm]; exact Iff.rfl)
  intro s hlt hle
  rcases Nat.lt_or_eq_of_le hle with h | rfl
  · exact hs.workerWoken s hlt (by rw [signal_main, hm]; exact h)
  · -- `main` has the mutex, so that the worker is not between its test and its wait
    refine awake_signal ?_
    intro hlocked
    have hmain : w.owner s = some .main := (hw.owned s .main).2 (by rw [World.Inside, hm]; rfl)
    have hworker : w.owner s = some .worker := (hw.owned s .worker).2 hlocked
    rw [hmain] at hworker
    cases hworker

theorem Sound.mainUnlocks (hw : Sound w) (hm : w.main = .signalled k) :
    Sound { w.setOwner k none with main := .signalling (k + 1) } := by
  have hclosed : w.serverOpen = false := hw.left (by rw [hm]; trivial)
  have hin : w.Inside k .main := by
    rw [World.Inside, hm]
    rfl
  refine sound_of_main (owned_drop hw.owned hin ?_) (fun _ h => nomatch h) hw.session (fun _ => hclosed)
    (fun _ h => nomatch h) ?_
    (fun _ _ h => False.elim h) (fun h => False.elim h) (hw.cancelling.trans (by rw [hm]; exact Iff.rfl))
    hw.cancelled
  · intro t p
    rw [inside_main]
    cases p <;> simp [World.Inside, hm, Main.slot, eq_comm]
  · exact fun s hs hlt => hw.workerWoken s hs (by rw [hm]; exact Nat.le_of_lt_succ hlt)

theorem Sound.mainJoins (hw : Sound w) (hm : w.main = .joining k) (hended : w.worker k = .ended) :
    Sound { w with main := .joining (k + 1) } := by
  have hclosed : w.serverOpen = false := hw.left (by rw [hm]; trivial)
  refine hw.keepMain (by rw [hm]; rfl) (fun _ => hclosed) (fun _ h => nomatch h) ?_ ?_
    (fun h => False.elim h) (by rw [hm]; exact Iff.rfl)
  · exact fun s hs _ => hw.workerWoken s hs (by rw [hm]; trivial)
  · intro s hs hlt
    -- the workers before `k` were joined before, and `k` is now
    rcases Nat.lt_succ_iff_lt_or_eq.1 hlt with h | rfl
    · exact hw.joined s hs (by rw [hm]; exact h)
    · exact hended

end Destroy

theorem Sound.mainStep (hw : Sound w) (hstep : LifeCycle.mainStep w = some w') : Sound w' := by
  unfold LifeCycle.mainStep at hstep
  cases hm : w.main with
  | testing =>
      simp only [hm] at hstep
      cases hstep
      by_cases hopen : w.serverOpen = true
      · rw [if_pos hopen]
        refine hw.keepMain (by rw [hm]; rfl) (fun h => False.elim h) ?_ (fun _ _ h => False.elim h)
          (fun _ _ h => False.elim h) (fun h => False.elim h) (by rw [hm]; exact Iff.rfl)
        intro hclosed
        rw [hopen] at hclosed
        cases hclosed
      · -- from here on `main` has seen the server closed
        rw [if_neg hopen]
        have hclosed : w.serverOpen = false := by simpa using hopen
        exact hw.keepMain (by rw [hm]; rfl) (fun _ => hclosed) (fun _ h => nomatch h)
          (fun s _ h => absurd h (Nat.not_lt_zero s)) (fun _ _ h => False.elim h) (fun h => False.elim h)
          (by rw [hm]; exact Iff.rfl)
  | waiting =>
      simp only [hm] at hstep
      cases hstep
  | woken =>
      simp only [hm] at hstep
      cases hstep
      exact hw.keepMain (by rw [hm]; rfl) (fun h => False.elim h) (fun _ h => nomatch h) (fun _ _ h => False.elim h)
        (fun _ _ h => False.elim h) (fun h => False.elim h) (by rw [hm]; exact Iff.rfl)
  | signalling k =>
      simp only [hm] at hstep
      split at hstep
      · next hk =>
        split at hstep
        · next hfree =>
            cases hstep
            exact hw.mainLocks hm hk hfree
        · cases hstep
      · next hk =>
          cases hstep
          have hclosed : w.serverOpen = false := hw.left (by rw [hm]; trivial)
          refine hw.keepMain (by rw [hm]; rfl) (fun _ => hclosed) (fun _ h => nomatch h) ?_
            (fun s _ h => absurd h (Nat.not_lt_zero s)) (fun h => False.elim h) (by rw [hm]; exact Iff.rfl)
          intro s hs _
          exact hw.workerWoken s hs (by rw [hm]; exact hs.trans_le (Nat.le_of_not_lt hk))
  | holding k =>
      simp only [hm] at hstep
      cases hstep
      exact hw.mainSignals hm
  | signalled k =>
      simp only [hm] at hstep
      cases hstep
      exact hw.mainUnlocks hm
  | joining k =>
      simp only [hm] at hstep
      split at hstep
      · split at hstep
        · next hended =>
            cases hstep
            exact hw.mainJoins hm hended
        · cases hstep
      · next hk =>
          cases hstep
          have hclosed : w.serverOpen = false := hw.left (by rw [hm]; trivial)
          refine hw.keepMain (by rw [hm]; rfl) (fun _ => hclosed) (fun _ h => nomatch h) ?_ ?_
            (fun h => False.elim h) (by rw [hm]; exact Iff.rfl)
          · exact fun s hs _ => hw.workerWoken s hs (by rw [hm]; trivial)
          · exact fun s hs _ => hw.joined s hs (by rw [hm]; exact hs.trans_le (Nat.le_of_not_lt hk))
  | cancelling =>
      have hclosed : w.serverOpen = false := hw.left (by rw [hm]; trivial)
      have hslot : Main.joiningReceiver.slot = w.main.slot := by
        rw [hm]
        rfl
      simp only [hm] at hstep
      cases hstep
      exact sound_of_main (owned_main hw hslot) (fun _ h => nomatch h) hw.session (fun _ => hclosed) (fun _ h => nomatch h)
        (fun s hs _ => hw.workerWoken s hs (by rw [hm]; trivial))
        (fun s hs _ => hw.joined s hs (by rw [hm]; trivial)) (fun h => False.elim h)
        (iff_of_true rfl trivial) (fun _ _ => rfl)
  | joiningReceiver =>
      have hclosed : w.serverOpen = false := hw.left (by rw [hm]; trivial)
      simp only [hm] at hstep
      split at hstep
      · next held hended =>
          cases hstep
          exact hw.keepMain (by rw [hm]; rfl) (fun _ => hclosed) (fun _ h => nomatch h)
            (fun s hs _ => hw.workerWoken s hs (by rw [hm]; trivial))
            (fun s hs _ => hw.joined s hs (by rw [hm]; trivial)) (fun _ => ⟨held, hended⟩)
            (by rw [hm]; exact Iff.rfl)
      · cases hstep
  | destroying =>
      have hclosed : w.serverOpen = false := hw.left (by rw [hm]; trivial)
      simp only [hm] at hstep
      cases hstep
      exact hw.keepMain (by rw [hm]; rfl) (fun _ => hclosed) (fun _ h => nomatch h)
        (fun s hs _ => hw.workerWoken s hs (by rw [hm]; trivial))
        (fun s hs _ => hw.joined s hs (by rw [hm]; trivial))
        (fun _ => hw.joinedReceiver (by rw [hm]; trivial)) (by rw [hm]; exact Iff.rfl)
  | finished =>
      simp only [hm] at hstep
      cases hstep

theorem Sound.wakeMain (hw : Sound w) (hm : w.main = .waiting) : Sound { w with main := .woken } :=
  hw.keepMain (by rw [hm]; rfl) (fun h => False.elim h) (fun _ h => nomatch h) (fun _ _ h => False.elim h)
    (fun _ _ h => False.elim h) (fun h => False.elim h) (by rw [hm]; exact Iff.rfl)

theorem Sound.signalServer (hw : Sound w) : Sound w.signalServer := by
  unfold World.signalServer
  split
  · next hm => exact hw.wakeMain hm
  · exact hw

/-- The server is closed by a worker that has answered a shutdown request. -/
theorem Sound.close (hw : Sound w) (hm : w.main ≠ .waiting) : Sound { w with serverOpen := false } where
  owned := hw.owned
  index := hw.index
  session := hw.session
  left _ := rfl
  serverWoken _ := hm
  workerWoken := hw.workerWoken
  joined := hw.joined
  joinedReceiver := hw.joinedReceiver
  cancelled := hw.cancelled
  cancelling := hw.cancelling

theorem main_signalServer_ne (w : World) : w.signalServer.main ≠ .waiting := by
  unfold World.signalServer
  split
  · exact fun h => nomatch h
  · next h => exact h

theorem signalServer_worker (w : World) : w.signalServer.worker = w.worker := by
  unfold World.signalServer
  split
  · rfl
  · rfl

theorem Sound.writeShutdown (hw : Sound w) (hstep : LifeCycle.writeShutdown s w = some w') :
    Sound w' := by
  unfold LifeCycle.writeShutdown at hstep
  split at hstep
  · next h =>
      cases hstep
      have hclosed : Sound { w.signalServer with serverOpen := false } :=
        hw.signalServer.close (main_signalServer_ne w)
      have hq : w.signalServer.worker s = .answering := by
        rw [signalServer_worker]
        exact h.1
      exact hclosed.keep (by simp [hq, Worker.Locked]) (fun _ => id) (by simp [hq])
  · cases hstep

theorem Sound.perform {a : Label} (hw : Sound w) (hstep : LifeCycle.perform a w = some w') :
    Sound w' := by
  cases a with
  | main => exact hw.mainStep hstep
  | wakeMain =>
      simp only [LifeCycle.perform, LifeCycle.wakeMain] at hstep
      split at hstep
      · next hm =>
          cases hstep
          exact hw.wakeMain hm
      · cases hstep
  | hear opcode s => exact hw.hear hstep
  | receiver => exact hw.receiverStep hstep
  | cancel => exact hw.cancel hstep
  | worker s =>
      simp only [LifeCycle.perform] at hstep
      split at hstep
      · next hs => exact hw.workerStep hs hstep
      · cases hstep
  | wake s =>
      simp only [LifeCycle.perform] at hstep
      split at hstep
      · exact hw.wake hstep
      · cases hstep
  | resume s =>
      simp only [LifeCycle.perform] at hstep
      split at hstep
      · exact hw.resume hstep
      · cases hstep
  | library s c u =>
      simp only [LifeCycle.perform] at hstep
      split at hstep
      · exact hw.library hstep
      · cases hstep
  | writeShutdown s =>
      simp only [LifeCycle.perform] at hstep
      split at hstep
      · exact hw.writeShutdown hstep
      · cases hstep

theorem sound_start : Sound World.start where
  owned t p := by
    cases p <;> simp [World.start, World.Inside, Main.slot, Receiver.slot, Worker.Locked]
  index _ h := nomatch h
  session _ _ h := nomatch h
  left h := False.elim h
  serverWoken h := nomatch h
  workerWoken _ _ h := False.elim h
  joined _ _ h := False.elim h
  joinedReceiver h := False.elim h
  cancelled _ h := nomatch h
  cancelling := iff_of_false Bool.false_ne_true id

theorem sound_of_reachable (h : server.Reachable w) : Sound w := by
  refine h.invariant (I := Sound) ?_ ?_
  · rintro s rfl
    exact sound_start
  · intro s a t hs hst
    exact hs.perform hst

end Steps

end LifeCycle
end Sessions
end TecnicoFs
