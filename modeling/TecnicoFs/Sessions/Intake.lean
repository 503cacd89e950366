import TecnicoFs.Sessions.Protocol
import TecnicoFs.Wire.Receiver

/-!
# Intake — the receiver on any byte stream

Here the bytes of the server pipe are arbitrary, whoever wrote them. A `read_*` function reads the
session id, locks the slot of that session and reads the other fields with the mutex held: the tables
are indexed before the request has arrived whole.

Of a slot only the opcode is kept. What a worker asks of the file system and what it answers has no
effect on the sessions, so that part of a worker's step is left out; a worker that is blocked there,
or has left its loop, takes no more steps.
-/

namespace TecnicoFs
namespace Sessions
namespace Intake

open Lib Wire

variable (d : Delivery)

/-! ## The bytes of a request -/

/-- What the receiver knows of a request when it decides on the session. -/
inductive Header
  | mount (clientPipePath : CString)
  | request (opcode : Byte) (sessionId : ℤ)

/-- A buffer of bytes as the string functions see it. -/
def toCString (buffer : List Byte) : CString where
  bytes := cString buffer
  noNul := by
    intro b hb
    simpa using List.all_eq_true.1 List.all_takeWhile b hb

/-- The opcodes that carry a session id. -/
def CarriesSession (opcode : Byte) : Prop :=
  opcode = tfsOpCodeUnmount ∨ opcode = tfsOpCodeOpen ∨ opcode = tfsOpCodeClose ∨
    opcode = tfsOpCodeWrite ∨ opcode = tfsOpCodeRead ∨ opcode = tfsOpCodeShutdownAfterAllClosed

instance : DecidablePred CarriesSession := fun _ => inferInstanceAs (Decidable (_ ∨ _))

theorem CarriesSession.ne_mount {opcode : Byte} (h : CarriesSession opcode) :
    opcode ≠ tfsOpCodeMount := by
  rcases h with rfl | rfl | rfl | rfl | rfl | rfl <;> decide

/-- The opcode, and what the `read_*` function reads before it locks a slot. Where the read after a
reopening gives no byte, the opcode is `stale`, and the function is called all the same. -/
def readHeader (stale : Byte) (p : Pipe) : Except Stop (Header × Pipe) := do
  let (opcode, p) ← readOpcode d stale p
  if opcode = tfsOpCodeMount then
    let (path, p) ← readFromPipe d tfsPipenameSize p
    .ok (.mount (toCString path), p)
  else if CarriesSession opcode then
    let (session, p) ← readInt d p
    .ok (.request opcode session, p)
  else
    -- an unknown opcode ends the server
    .error .exits

/-- The fields that the `read_*` function reads while it holds the mutex. -/
def readFields (opcode : Byte) (session : ℤ) (p : Pipe) :
    Except Stop (Request (List Byte) × Pipe) :=
  if opcode = tfsOpCodeUnmount then
    .ok (.unmount session, p)
  else if opcode = tfsOpCodeOpen then do
    let (name, p) ← readFromPipe d tfsNameSize p
    let (flags, p) ← readInt d p
    .ok (.open session name flags, p)
  else if opcode = tfsOpCodeClose then do
    let (fhandle, p) ← readInt d p
    .ok (.close session fhandle, p)
  else if opcode = tfsOpCodeWrite then do
    let (fhandle, p) ← readInt d p
    let (len, p) ← readSize d p
    let (buffer, p) ← readFromPipe d len p
    .ok (.write session fhandle len buffer, p)
  else if opcode = tfsOpCodeRead then do
    let (fhandle, p) ← readInt d p
    let (len, p) ← readSize d p
    .ok (.read session fhandle len, p)
  else
    .ok (.shutdownAfterAllClosed session, p)

/-- The two parts together are the `read_*` function of the opcode. -/
theorem dispatch_eq_readFields {opcode : Byte} (h : CarriesSession opcode) (p : Pipe) :
    dispatch d opcode p = (do
      let (session, p) ← readInt d p
      readFields d opcode session p) := by
  rcases h with rfl | rfl | rfl | rfl | rfl | rfl <;> rfl

/-! ## Receiver, workers and tables -/

/-- Where the receiver stands: between two requests, at the pipe of a client it refuses, before the
mutex of a slot, or with that mutex, reading and storing the fields. -/
inductive Reader
  | idle
  | refusing (path : CString)
  | locking (opcode : Byte) (sessionId : ℤ)
  | storing (opcode : Byte) (session : ℕ)
  deriving DecidableEq

/-- Where a worker stands. It holds the mutex of its slot while it is `handling` or `clearing`. -/
inductive Phase
  | ready
  | waiting
  | handling
  | clearing
  deriving DecidableEq

def Phase.locked : Phase → Bool
  | ready => false
  | waiting => false
  | handling => true
  | clearing => true

structure Tables where
  pipe : Pipe
  reader : Reader
  clientPipesTable : ℕ → Option CString
  opcode : ℕ → Byte
  worker : ℕ → Phase
  fclient : ℕ → Option CString

/-- After `server_init`, with these bytes still to come. -/
def Tables.start (bytes : List Byte) : Tables where
  pipe := ⟨bytes, 0⟩
  reader := .idle
  clientPipesTable := fun _ => none
  opcode := fun _ => tfsOpCodeNull
  worker := fun _ => .ready
  fclient := fun _ => none

/-! ## The receiver's steps -/

/-- Read up to the decision on the session; for a mount this is `addClientPipe`. -/
def hear (stale : Byte) (w : Tables) : Option Tables :=
  match w.reader, readHeader d stale w.pipe with
  | .idle, .ok (.mount path, p) =>
      match addClientPipe path w.clientPipesTable with
      -- no free entry, or the path is in the table already
      | none => some { w with pipe := p, reader := .refusing path }
      | some s => some { w with
          pipe := p
          reader := .locking tfsOpCodeMount s
          clientPipesTable := Function.update w.clientPipesTable s (some path) }
  | .idle, .ok (.request opcode session, p) =>
      some { w with pipe := p, reader := .locking opcode session }
  | _, _ => none

/-- The reply of `read_mount` when no session is free. -/
def refuse (w : Tables) : Option Tables :=
  match w.reader with
  | .refusing _ => some { w with reader := .idle }
  | _ => none

/-- `lock_mutex(&buffer_lock_table[session_id])`, where the worker does not hold the mutex. Beyond the
table the behaviour is undefined. -/
def lockBuffer (w : Tables) : Option Tables :=
  match w.reader with
  | .locking opcode session =>
      if 0 ≤ session ∧ session < maxSessionsAmount ∧ (w.worker session.toNat).locked = false then
        some { w with reader := .storing opcode session.toNat }
      else
        none
  | _ => none

/-- Read the fields, store the request, signal the worker and release the mutex. Nothing is asked
about the session, or about what the slot holds. -/
def store (w : Tables) : Option Tables :=
  match w.reader with
  | .storing opcode s =>
      let stored (p : Pipe) : Tables := { w with
        pipe := p
        reader := .idle
        opcode := Function.update w.opcode s opcode
        worker := Function.update w.worker s .ready }
      -- a mount has no fields left to read
      if opcode = tfsOpCodeMount then
        some (stored w.pipe)
      else
        match readFields d opcode s w.pipe with
        | .ok (_, p) => some (stored p)
        | .error _ => none
  | _ => none

/-! ## A worker's steps -/

/-- `pthread_cond_wait` returns without a signal. -/
def wake (s : ℕ) (w : Tables) : Option Tables :=
  if w.worker s = .waiting then
    some { w with worker := Function.update w.worker s .ready }
  else
    none

/-- The receiver is storing a request in slot `s`. -/
def Reader.holds (s : ℕ) : Reader → Bool
  | storing _ t => t = s
  | _ => false

/-- The worker gets the mutex: it keeps it if there is a request, and waits otherwise. -/
def lock (s : ℕ) (w : Tables) : Option Tables :=
  if w.worker s = .ready ∧ w.reader.holds s = false then
    if w.opcode s > tfsOpCodeNull then
      some { w with worker := Function.update w.worker s .handling }
    else
      some { w with worker := Function.update w.worker s .waiting }
  else
    none

/-- The `switch` of `requestHandler`. A mount opens the client's pipe; the other requests write to it,
and without it the write ends the process; an unmount then gives up entry and pipe. -/
def execute (s : ℕ) (w : Tables) : Option Tables :=
  if w.worker s = .handling then
    if w.opcode s = tfsOpCodeMount then
      -- `open` of the path in the table; without an entry there is nothing to open
      match w.clientPipesTable s with
      | none => none
      | some path => some { w with
          worker := Function.update w.worker s .clearing
          fclient := Function.update w.fclient s (some path) }
    -- `fclient` is -1, and the write of the reply fails
    else if w.fclient s = none then
      none
    else if w.opcode s = tfsOpCodeUnmount then
      some { w with
        worker := Function.update w.worker s .clearing
        clientPipesTable := Function.update w.clientPipesTable s none
        fclient := Function.update w.fclient s none }
    else
      some { w with worker := Function.update w.worker s .clearing }
  else
    none

/-- Clear the slot and release the mutex. -/
def clear (s : ℕ) (w : Tables) : Option Tables :=
  if w.worker s = .clearing then
    some { w with
      worker := Function.update w.worker s .ready
      opcode := Function.update w.opcode s tfsOpCodeNull }
  else
    none

/-! ## Interleavings -/

/-- The steps; `stale` is what the uninitialised `opcode` of `serverPipeReader` holds. -/
inductive Label
  | hear (stale : Byte)
  | refuse
  | lockBuffer
  | store
  | wake (s : ℕ)
  | lock (s : ℕ)
  | execute (s : ℕ)
  | clear (s : ℕ)

/-- What a step does; `none` where it cannot be taken. -/
def perform : Label → Tables → Option Tables
  | .hear stale => hear d stale
  | .refuse => refuse
  | .lockBuffer => lockBuffer
  | .store => store d
  | .wake s => wake s
  | .lock s => lock s
  | .execute s => execute s
  | .clear s => clear s

/-- The receiver on a byte stream and the workers, in any interleaving. A stretch of ends of file that never
ends is left out: the receiver then stays in `open` or in the loop of `read_from_pipe`. -/
def intake (bytes : List Byte) : System Tables Label where
  init w := w = Tables.start bytes
  step w a w' := perform d a w = some w'

end Intake
end Sessions
end TecnicoFs
