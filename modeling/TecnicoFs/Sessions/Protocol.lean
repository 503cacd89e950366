import TecnicoFs.Lib.Memory
import TecnicoFs.Lib.Transition
import TecnicoFs.Wire.Request

/-!
# Protocol — sessions, slots and workers of `tfs_server.c`

The receiver thread takes the requests from the server pipe and stores each one in the slot of its
session (`SESSION_BUFFER_AMOUNT` is 1); the worker of the session takes it from there, performs it
and writes the reply to the pipe that it has open. The mutex of a slot is held by the worker from
the moment it finds a request until it has cleared the slot, and by the receiver for the one step in
which it stores; at all other times it is free.

Requests reach the receiver whole. The file system is any function `exec`, there is no shutdown, and
every reply has an answer; `Sessions.Crash` ends the process where one has none. Each request is tagged
with its client and its number there, so that the histories kept in the state can tell requests apart;
no step looks at a tag.
-/

namespace TecnicoFs
namespace Sessions

open Lib Wire

universe u v

/-! ## Slots -/

/-- `buffer_entry` -/
structure BufferEntry where
  opcode : Byte
  name : CString
  fhandle : ℤ
  flags : ℤ
  len : ℕ
  buffer : List Byte

abbrev tfsOpCodeNull : Byte := 0

namespace BufferEntry

/-- What the `read_*` function of a request stores; the other fields keep what they had. -/
def store (b : BufferEntry) : Request CString → BufferEntry
  | .mount _ => { b with opcode := tfsOpCodeMount }
  | .unmount _ => { b with opcode := tfsOpCodeUnmount }
  | .open _ name flags => { b with opcode := tfsOpCodeOpen, name := name, flags := flags }
  | .close _ fhandle => { b with opcode := tfsOpCodeClose, fhandle := fhandle }
  | .write _ fhandle len buffer =>
      { b with opcode := tfsOpCodeWrite, fhandle := fhandle, len := len, buffer := buffer }
  | .read _ fhandle len => { b with opcode := tfsOpCodeRead, fhandle := fhandle, len := len }
  | .shutdownAfterAllClosed _ => { b with opcode := tfsOpCodeShutdownAfterAllClosed }

/-- The request that worker `session` reads from its slot, with the entry of `client_pipes_table`
as the path of a mount. -/
def request (b : BufferEntry) (session : ℕ) (path : Option CString) : Option (Request CString) :=
  if b.opcode = tfsOpCodeMount then
    path.map .mount
  else if b.opcode = tfsOpCodeUnmount then
    some (.unmount session)
  else if b.opcode = tfsOpCodeOpen then
    some (.open session b.name b.flags)
  else if b.opcode = tfsOpCodeClose then
    some (.close session b.fhandle)
  else if b.opcode = tfsOpCodeWrite then
    some (.write session b.fhandle b.len b.buffer)
  else if b.opcode = tfsOpCodeRead then
    some (.read session b.fhandle b.len)
  else
    none

end BufferEntry

/-! ## The file system -/

/-- A call of the file system, made by a worker. -/
inductive Operation
  | open (name : CString) (flags : ℤ)
  | close (fhandle : ℤ)
  | write (fhandle : ℤ) (buffer : List Byte) (len : ℕ)
  | read (fhandle : ℤ) (len : ℕ)
  deriving DecidableEq

/-- The call that a request asks for. -/
def operation : Request CString → Option Operation
  | .open _ name flags => some (.open name flags)
  | .close _ fhandle => some (.close fhandle)
  | .write _ fhandle len buffer => some (.write fhandle buffer len)
  | .read _ fhandle len => some (.read fhandle len)
  | .mount _ => none
  | .unmount _ => none
  | .shutdownAfterAllClosed _ => none

inductive Reply (ρ : Type v)
  | mount (sessionId : ℤ)
  | unmount (returnValue : ℤ)
  | library (r : ρ)

/-! ## The parties -/

/-- A request on its way, with its tag. -/
structure Message where
  client : ℕ
  number : ℕ
  request : Request CString
  deriving DecidableEq

def Message.tag (m : Message) : ℕ × ℕ :=
  (m.client, m.number)

/-- A client: the session its mount returned, the request it waits for, whether it has unmounted,
and how many requests it has sent. -/
structure Client where
  session : Option ℕ
  pending : Option (Request CString)
  stopped : Bool
  count : ℕ

/-- The request a client at `path` may send now. -/
def Client.MayIssue (cl : Client) (path : CString) (r : Request CString) : Prop :=
  cl.stopped = false ∧ cl.pending = none ∧
    -- without a session a client mounts, with one it unmounts or calls the library
    match cl.session with
    | none => r = .mount path
    | some s => r = .unmount s ∨ (r.sessionId = some (s : ℤ) ∧ (operation r).isSome)

instance (cl : Client) (path : CString) (r : Request CString) : Decidable (cl.MayIssue path r) :=
  match h : cl.session with
  | none => decidable_of_iff (cl.stopped = false ∧ cl.pending = none ∧ r = .mount path)
      (by simp [Client.MayIssue, h])
  | some s => decidable_of_iff (cl.stopped = false ∧ cl.pending = none ∧
      (r = .unmount s ∨ (r.sessionId = some (s : ℤ) ∧ (operation r).isSome)))
      (by simp [Client.MayIssue, h])

/-- What a client does with a reply. -/
def Client.answer {ρ : Type v} (cl : Client) : Request CString → Reply ρ → Option Client
  | .mount _, .mount z =>
      some { cl with pending := none, session := if z = -1 then none else some z.toNat }
  | .unmount _, .unmount _ => some { cl with pending := none, session := none, stopped := true }
  | r, .library _ => if (operation r).isSome then some { cl with pending := none } else none
  | _, _ => none

/-- Where the receiver stands between two requests. -/
inductive Receiver
  | idle
  | refusing (path : CString) (m : Message)
  | storing (session : ℕ) (m : Message)

/-- The request the receiver is busy with. -/
def Receiver.message : Receiver → Option Message
  | idle => none
  | refusing _ m => some m
  | storing _ m => some m

/-- Where a worker stands in the loop of `requestHandler`. It holds the mutex of its slot from
`handling` to `clearing`. -/
inductive Worker (ρ : Type v)
  | ready
  | waiting
  | handling
  | replying (reply : Reply ρ)
  | clearing

def Worker.locked {ρ : Type v} : Worker ρ → Bool
  | ready => false
  | waiting => false
  | handling => true
  | replying _ => true
  | clearing => true

/-! ## The state -/

/-- A request that a worker performed, with what it answered. -/
structure Served (ρ : Type v) where
  worker : ℕ
  message : Message
  reply : Reply ρ

/-- A reply that was written to the pipe at `path`. -/
structure Written (ρ : Type v) where
  path : CString
  tag : ℕ × ℕ
  reply : Reply ρ

/-- The server with its clients. From `sent` on, the fields are histories, latest first. -/
structure World (σ : Type u) (ρ : Type v) where
  lib : σ
  inbox : List Message
  receiver : Receiver
  clientPipesTable : ℕ → Option CString
  bufferEntryTable : ℕ → BufferEntry
  slotTag : ℕ → ℕ × ℕ
  worker : ℕ → Worker ρ
  fclient : ℕ → Option CString
  pipe : CString → List (Reply ρ)
  client : ℕ → Client
  sent : List Message
  served : List (Served ρ)
  refused : List Message
  written : List (Written ρ)
  received : List (Message × Reply ρ)

variable {σ : Type u} {ρ : Type v}

/-- After `server_init`, before any client has come. -/
def World.start (lib : σ) : World σ ρ where
  lib := lib
  inbox := []
  receiver := .idle
  clientPipesTable := fun _ => none
  bufferEntryTable := fun _ => ⟨tfsOpCodeNull, ⟨[], by simp⟩, 0, 0, 0, []⟩
  slotTag := fun _ => (0, 0)
  worker := fun _ => .ready
  fclient := fun _ => none
  pipe := fun _ => []
  client := fun _ => ⟨none, none, false, 0⟩
  sent := []
  served := []
  refused := []
  written := []
  received := []

/-! ## Clients' steps -/

/-- Client `c` at `path` sends a request. -/
def send (c : ℕ) (path : CString) (r : Request CString) (w : World σ ρ) : Option (World σ ρ) :=
  if (w.client c).MayIssue path r then
    let m : Message := ⟨c, (w.client c).count + 1, r⟩
    some { w with
      inbox := w.inbox ++ [m]
      client := Function.update w.client c
        { w.client c with pending := some r, count := (w.client c).count + 1 }
      sent := m :: w.sent }
  else
    none

/-- Client `c` takes the reply from its pipe. -/
def receive (c : ℕ) (path : CString) (w : World σ ρ) : Option (World σ ρ) :=
  match (w.client c).pending, w.pipe path with
  | some r, reply :: rest =>
      ((w.client c).answer r reply).map fun cl =>
        { w with
          pipe := Function.update w.pipe path rest
          client := Function.update w.client c cl
          received := (⟨c, (w.client c).count, r⟩, reply) :: w.received }
  | _, _ => none

/-! ## The receiver's steps -/

/-- `addClientPipe`: `none` for its -1. -/
def addClientPipe (path : CString) (table : ℕ → Option CString) : Option ℕ :=
  if (List.range maxSessionsAmount).any fun i => table i = some path then
    none
  else
    (List.range maxSessionsAmount).find? fun i => table i = none

/-- Take the next request from the server pipe, up to the lock of its slot. -/
def take (w : World σ ρ) : Option (World σ ρ) :=
  match w.receiver, w.inbox with
  | .idle, m :: rest =>
      match m.request with
      | .mount path =>
          match addClientPipe path w.clientPipesTable with
          | none => some { w with inbox := rest, receiver := .refusing path m }
          | some s => some { w with
              inbox := rest
              receiver := .storing s m
              clientPipesTable := Function.update w.clientPipesTable s (some path) }
      | r =>
          match r.sessionId with
          | none => none
          | some z =>
              -- beyond the tables the behaviour is undefined
              if 0 ≤ z ∧ z < maxSessionsAmount then
                some { w with inbox := rest, receiver := .storing z.toNat m }
              else
                none
  | _, _ => none

/-- The reply of `read_mount` when no session is free. -/
def refuse (w : World σ ρ) : Option (World σ ρ) :=
  match w.receiver with
  | .refusing path m => some { w with
      receiver := .idle
      pipe := Function.update w.pipe path (w.pipe path ++ [.mount (-1)])
      refused := m :: w.refused
      written := ⟨path, m.tag, .mount (-1)⟩ :: w.written }
  | _ => none

/-- The critical section of a `read_*` function: store the request and signal the worker. It does
not look whether the slot is empty. -/
def store (w : World σ ρ) : Option (World σ ρ) :=
  match w.receiver with
  | .storing s m =>
      if (w.worker s).locked then
        none
      else
        some { w with
          receiver := .idle
          bufferEntryTable := Function.update w.bufferEntryTable s
            ((w.bufferEntryTable s).store m.request)
          slotTag := Function.update w.slotTag s m.tag
          worker := Function.update w.worker s .ready }
  | _ => none

/-! ## A worker's steps -/

/-- `pthread_cond_wait` returns without a signal. -/
def wake (s : ℕ) (w : World σ ρ) : Option (World σ ρ) :=
  match w.worker s with
  | .waiting => some { w with worker := Function.update w.worker s .ready }
  | _ => none

/-- The worker gets the mutex: it keeps it if there is a request, and waits otherwise. -/
def lock (s : ℕ) (w : World σ ρ) : Option (World σ ρ) :=
  match w.worker s with
  | .ready =>
      if (w.bufferEntryTable s).opcode > tfsOpCodeNull then
        some { w with worker := Function.update w.worker s .handling }
      else
        some { w with worker := Function.update w.worker s .waiting }
  | _ => none

/-- The world after worker `s` performed the request in its slot, with its reply still to write. -/
def World.serve (w : World σ ρ) (s : ℕ) (r : Request CString) (reply : Reply ρ) : World σ ρ :=
  { w with
    worker := Function.update w.worker s (.replying reply)
    served := ⟨s, ⟨(w.slotTag s).1, (w.slotTag s).2, r⟩, reply⟩ :: w.served }

/-- The `switch` of `requestHandler`, up to the write of the reply. A process that has no answer to the
reply ends at this step, in `Sessions.Crash`. -/
def execute (exec : Operation → σ → ρ × σ) (s : ℕ) (w : World σ ρ) : Option (World σ ρ) :=
  match w.worker s with
  | .handling =>
      match (w.bufferEntryTable s).request s (w.clientPipesTable s) with
      | none => none
      | some (.mount path) =>
          let w := { w with fclient := Function.update w.fclient s (some path) }
          some (w.serve s (.mount path) (.mount s))
      | some (.unmount z) =>
          let w := { w with clientPipesTable := Function.update w.clientPipesTable s none }
          some (w.serve s (.unmount z) (.unmount 0))
      | some r =>
          (operation r).map fun op =>
            let x := exec op w.lib
            { w with lib := x.2 }.serve s r (.library x.1)
  | _ => none

/-- `write_on_pipe` to the client pipe that the worker has open. -/
def write (s : ℕ) (w : World σ ρ) : Option (World σ ρ) :=
  match w.worker s, w.fclient s with
  | .replying reply, some path => some { w with
      worker := Function.update w.worker s .clearing
      pipe := Function.update w.pipe path (w.pipe path ++ [reply])
      written := ⟨path, w.slotTag s, reply⟩ :: w.written }
  | _, _ => none

/-- The end of the loop: an unmount has closed the client pipe, the slot is cleared, the mutex is
released. -/
def clear (s : ℕ) (w : World σ ρ) : Option (World σ ρ) :=
  match w.worker s with
  | .clearing => some { w with
      worker := Function.update w.worker s .ready
      fclient := if (w.bufferEntryTable s).opcode = tfsOpCodeUnmount then
          Function.update w.fclient s none
        else
          w.fclient
      bufferEntryTable := Function.update w.bufferEntryTable s
        { w.bufferEntryTable s with opcode := tfsOpCodeNull } }
  | _ => none

/-! ## Interleavings -/

inductive Label
  | send (c : ℕ) (r : Request CString)
  | receive (c : ℕ)
  | wake (s : ℕ)
  | take
  | refuse
  | store
  | lock (s : ℕ)
  | execute (s : ℕ)
  | write (s : ℕ)
  | clear (s : ℕ)

/-- A step of the server's own threads that makes progress. -/
def Label.isServer : Label → Bool
  | send _ _ => false
  | receive _ => false
  | wake _ => false
  | _ => true

/-- Worker `s` exists. -/
def ofWorker (s : ℕ) (step : World σ ρ → Option (World σ ρ)) (w : World σ ρ) :
    Option (World σ ρ) :=
  if s < maxSessionsAmount then step w else none

/-- What a step does; `none` where it cannot be taken. -/
def perform (exec : Operation → σ → ρ × σ) (paths : ℕ → CString) :
    Label → World σ ρ → Option (World σ ρ)
  | .send c r => send c (paths c) r
  | .receive c => receive c (paths c)
  | .wake s => ofWorker s (wake s)
  | .take => take
  | .refuse => refuse
  | .store => store
  | .lock s => ofWorker s (lock s)
  | .execute s => ofWorker s (execute exec s)
  | .write s => ofWorker s (write s)
  | .clear s => ofWorker s (clear s)

/-- Any number of clients, where client `c` has its pipe at `paths c`, and the server, in any
interleaving. -/
def sessions (exec : Operation → σ → ρ × σ) (paths : ℕ → CString) (lib : σ) :
    System (World σ ρ) Label where
  init w := w = World.start lib
  step w a w' := perform exec paths a w = some w'

end Sessions
end TecnicoFs
