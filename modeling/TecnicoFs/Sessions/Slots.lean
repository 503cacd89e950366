import TecnicoFs.Lib.Ring
import TecnicoFs.Sessions.Protocol

/-!
# Slots — the slots of one session, for any `SESSION_BUFFER_AMOUNT`

The receiver stores the requests of a session in its slots in turn, and the worker of the session takes them
from there. Each of them counts on its own, and neither looks where the other is. The mutex of the session
is held by the receiver for the one step in which it stores, and by the worker from the moment it finds a
request until it has cleared the slot; the worker counts on after it has released the mutex.

The server is open: a run ends where it closes. What the file system does with a request, and what the
answer says, is left out.
-/

namespace TecnicoFs
namespace Sessions
namespace Slots

open Lib Wire

/-! ## Requests in slots -/

/-- What a request asks of the worker of its session. -/
inductive Task
  | mount
  | unmount
  | call (op : Operation)
  | shutdownAfterAllClosed
  deriving DecidableEq

def requestTask : Request CString → Task
  | .mount _ => .mount
  | .unmount _ => .unmount
  | .open _ name flags => .call (.open name flags)
  | .close _ fhandle => .call (.close fhandle)
  | .write _ fhandle len buffer => .call (.write fhandle buffer len)
  | .read _ fhandle len => .call (.read fhandle len)
  | .shutdownAfterAllClosed _ => .shutdownAfterAllClosed

/-- The `switch` of `requestHandler`; `none` is its `default`. -/
def entryTask (buffer : BufferEntry) : Option Task :=
  if buffer.opcode = tfsOpCodeMount then
    some .mount
  else if buffer.opcode = tfsOpCodeUnmount then
    some .unmount
  else if buffer.opcode = tfsOpCodeOpen then
    some (.call (.open buffer.name buffer.flags))
  else if buffer.opcode = tfsOpCodeClose then
    some (.call (.close buffer.fhandle))
  else if buffer.opcode = tfsOpCodeWrite then
    some (.call (.write buffer.fhandle buffer.buffer buffer.len))
  else if buffer.opcode = tfsOpCodeRead then
    some (.call (.read buffer.fhandle buffer.len))
  else if buffer.opcode = tfsOpCodeShutdownAfterAllClosed then
    some .shutdownAfterAllClosed
  else
    none

/-- A stored request is read back with its own arguments, whatever was in the slot. -/
theorem entryTask_store (b : BufferEntry) (r : Request CString) :
    entryTask (b.store r) = some (requestTask r) := by
  cases r <;> rfl

theorem opcode_store_ne (b : BufferEntry) (r : Request CString) :
    (b.store r).opcode ≠ tfsOpCodeNull := by
  cases r <;> simp only [BufferEntry.store] <;> decide

/-! ## The state -/

/-- Where the worker stands in its loop. It holds the mutex from `handling` to `clearing`; in `advancing` it
has released the mutex and not yet counted on. -/
inductive Worker
  | ready
  | waiting
  | handling
  | replying
  | clearing
  | advancing
  deriving DecidableEq

def Worker.locked : Worker → Bool
  | handling => true
  | replying => true
  | clearing => true
  | _ => false

/-- `pthread_cond_signal` -/
def Worker.signal : Worker → Worker
  | waiting => ready
  | q => q

/-- One session: its requests in the server pipe, the one that the receiver has read, the slots with both
counters, and the worker. From `sent` on, the fields are histories; `number` is how many requests were stored
before the one that was last stored in a slot. -/
structure World where
  inbox : List (Request CString)
  receiver : Option (Request CString)
  bufferEntryTable : ℕ → BufferEntry
  buffersCounter : ℕ
  worker : Worker
  bufferCounter : ℕ
  sent : ℕ
  answered : ℕ
  stored : List (Request CString)
  executed : List Task
  number : ℕ → ℕ

/-- After `server_init`. -/
def World.start : World where
  inbox := []
  receiver := none
  bufferEntryTable := fun _ => ⟨tfsOpCodeNull, ⟨[], List.forall_mem_nil _⟩, 0, 0, 0, []⟩
  buffersCounter := 0
  worker := .ready
  bufferCounter := 0
  sent := 0
  answered := 0
  stored := []
  executed := []
  number := fun _ => 0

/-! ## Steps -/

/-- A client of the session sends a request; nobody keeps it from sending the next one. -/
def send (r : Request CString) (w : World) : Option World :=
  some { w with inbox := w.inbox ++ [r], sent := w.sent + 1 }

/-- The receiver takes the next request of the session from the server pipe, up to the lock. -/
def take (w : World) : Option World :=
  match w.receiver, w.inbox with
  | none, r :: rest => some { w with inbox := rest, receiver := some r }
  | _, _ => none

/-- Both counters count so; the worker has the two lines in its loop. -/
def incrementBufferCounter (sessionBufferAmount counter : ℕ) : ℕ :=
  if counter + 1 ≥ sessionBufferAmount then 0 else counter + 1

/-- The critical section of a `read_*` function. It does not look whether the slot is empty. -/
def store (n : ℕ) (w : World) : Option World :=
  match w.receiver with
  | some r =>
      if w.worker.locked then
        none
      else
        some { w with
          receiver := none
          bufferEntryTable := Function.update w.bufferEntryTable w.buffersCounter
            ((w.bufferEntryTable w.buffersCounter).store r)
          buffersCounter := incrementBufferCounter n w.buffersCounter
          worker := w.worker.signal
          stored := w.stored ++ [r]
          number := Function.update w.number w.buffersCounter w.stored.length }
  | none => none

/-- `pthread_cond_wait` returns without a signal. -/
def wake (w : World) : Option World :=
  match w.worker with
  | .waiting => some { w with worker := .ready }
  | _ => none

/-- The worker gets the mutex: it keeps it if there is a request in its slot, and waits otherwise. -/
def lock (w : World) : Option World :=
  match w.worker with
  | .ready =>
      if (w.bufferEntryTable w.bufferCounter).opcode > tfsOpCodeNull then
        some { w with worker := .handling }
      else
        some { w with worker := .waiting }
  | _ => none

/-- The `switch`, up to the write of the reply. -/
def execute (w : World) : Option World :=
  match w.worker, entryTask (w.bufferEntryTable w.bufferCounter) with
  | .handling, some t => some { w with worker := .replying, executed := w.executed ++ [t] }
  -- the `default` answers nothing
  | .handling, none => some { w with worker := .clearing }
  | _, _ => none

/-- `write_on_pipe`: the client can see the reply, and send its next request. -/
def write (w : World) : Option World :=
  match w.worker with
  | .replying => some { w with worker := .clearing, answered := w.answered + 1 }
  | _ => none

/-- Clear the slot and release the mutex. -/
def clear (w : World) : Option World :=
  match w.worker with
  | .clearing => some { w with
      worker := .advancing
      bufferEntryTable := Function.update w.bufferEntryTable w.bufferCounter
        { w.bufferEntryTable w.bufferCounter with opcode := tfsOpCodeNull } }
  | _ => none

/-- The worker counts on; the mutex is free. -/
def advance (n : ℕ) (w : World) : Option World :=
  match w.worker with
  | .advancing => some { w with
      worker := .ready
      bufferCounter := incrementBufferCounter n w.bufferCounter }
  | _ => none

inductive Label
  | send (r : Request CString)
  | take
  | store
  | wake
  | lock
  | execute
  | write
  | clear
  | advance

/-- A step of the worker that makes progress. -/
def Label.isWorker : Label → Bool
  | lock => true
  | execute => true
  | write => true
  | clear => true
  | advance => true
  | _ => false

/-- What a step does, with `SESSION_BUFFER_AMOUNT` slots; `none` where it cannot be taken. -/
def perform (sessionBufferAmount : ℕ) : Label → World → Option World
  | .send r => send r
  | .take => take
  | .store => store sessionBufferAmount
  | .wake => wake
  | .lock => lock
  | .execute => execute
  | .write => write
  | .clear => clear
  | .advance => advance sessionBufferAmount

/-- Client, receiver and worker of a session, in any interleaving. -/
def slots (sessionBufferAmount : ℕ) : System World Label where
  init w := w = World.start
  step w a w' := perform sessionBufferAmount a w = some w'

end Slots
end Sessions
end TecnicoFs
