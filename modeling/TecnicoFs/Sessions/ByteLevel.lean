import Mathlib.Data.List.TakeWhile
import TecnicoFs.Sessions.Protocol
import TecnicoFs.Server.Operations
import TecnicoFs.Wire.Mixing
import TecnicoFs.Wire.Receiver
import TecnicoFs.Wire.Reply

/-!
# Byte level — the server and its clients on pipes of bytes

The parties are those of `Sessions.Protocol`, but nothing that passes between them is a request or a
reply any more: a client function writes the bytes of its message to the server pipe, the receiver reads
the fields of the next message from there, a worker writes the bytes of its answer to the pipe of its
client, and the client function reads its result from these bytes.  The server pipe stays open on both
sides: its opening and closing, and a write to it without a reader, are not steps here.

A write of at most `pipeBuf` bytes is atomic, so a message of that size is in the server pipe as a
whole, and so is every answer; a client function gets from each `read` all that it asks for, as far as the
pipe holds it. A client function that would send a longer message is not covered here.
Tags stand beside the bytes for the histories; no step looks at one.
-/

namespace TecnicoFs
namespace Sessions

open Lib Wire

universe u

/-! ## Names -/

theorem ne_zero_of_mem_cString {buffer : List Byte} : ∀ b ∈ cString buffer, b ≠ 0 := by
  intro b hb
  simpa using List.mem_takeWhile_imp hb

theorem noNul_nil : ∀ b ∈ ([] : List Byte), b ≠ 0 := by
  intro b hb
  cases hb

/-- The string at the start of a buffer. -/
def bufferName (buffer : List Byte) : CString where
  bytes := cString buffer
  noNul := ne_zero_of_mem_cString

/-- The string that a client passes. -/
def fieldName (f : NameField) : CString where
  bytes := f.name
  noNul := fun _ hb h0 => f.noNul (h0 ▸ hb)

@[simp] theorem bufferName_bytes (f : NameField) : bufferName f.bytes = fieldName f :=
  CString.ext_bytes f.cString_bytes

/-! ## Memory that nobody has written -/

/-- What a buffer or a variable of `n` bytes holds before it is written. -/
structure Unset where
  bytes : ℕ → List Byte
  length : ∀ n, (bytes n).length = n

/-- What was in memory does not matter. -/
def zeros : Unset where
  bytes n := List.replicate n 0
  length := by simp

/-! ## What a worker writes -/

/-- The bytes of the answer to a request; `none` where the call or `write_read` has no defined
behaviour. -/
def replyBytes (u : Unset) : Request CString → Reply (Option Server.Reply) → Option (List Byte)
  | .mount _, .mount z => some (intBytes z)
  | .unmount _, .unmount z => some (intBytes z)
  | .open _ _ _, .library (some r) => some (intBytes r.ret)
  | .close _ _, .library (some r) => some (intBytes r.ret)
  | .write _ _ _ _, .library (some r) => some (longBytes r.ret)
  | .read _ _ len, .library (some r) => writeRead r.ret (storeOver r.data (u.bytes len))
  | _, _ => none

/-! ## What a client function reads -/

/-- The client function of a request, from the moment when its answer is in the pipe. -/
def clientReturn (u : Unset) (r : Request NameField) (session : ℤ) (pipe : List Byte) : Returned :=
  match r with
  | .mount _ => tfsMountReturn (.ample pipe) session pipe
  | .unmount _ => tfsUnmountReturn (.ample pipe) session (u.bytes tfsUnmountReturnSize) pipe true
  | .open _ _ _ => tfsOpenReturn (.ample pipe) session (u.bytes tfsOpenReturnSize) pipe
  | .close _ _ => tfsCloseReturn (.ample pipe) session (u.bytes tfsCloseReturnSize) pipe
  | .write _ _ _ _ => tfsWriteReturn (.ample pipe) session (u.bytes tfsWriteReturnSize) pipe
  | .read _ _ _ => tfsReadReturn (.ample pipe) session (u.bytes tfsReadReturnSize) pipe
  | .shutdownAfterAllClosed _ =>
      tfsShutdownAfterAllClosedReturn (.ample pipe) session (u.bytes tfsShutdownReturnSize) pipe

/-- What the caller of a client function gets: the return value and the bytes in its buffer. -/
abbrev Result := ℤ × List Byte

/-- The result that a reply stands for. -/
def resultOf : Reply (Option Server.Reply) → Result
  | .mount z => (if z = -1 then -1 else 0, [])
  | .unmount z => (z, [])
  | .library (some r) => (r.ret, r.data)
  | .library none => (-1, [])

/-! ## The parties -/

/-- A client process: the static `session_id`, whether it is mounted, the function that it is in,
whether it has unmounted, and how many functions it has called. -/
structure Process where
  sessionId : ℤ
  mounted : Bool
  pending : Option (Request NameField)
  stopped : Bool
  count : ℕ

/-- The message of a request that a process at `path` may send now. -/
def Process.MayCall (p : Process) (path : CString) (r : Request NameField) : Prop :=
  p.stopped = false ∧ p.pending = none ∧ r.Typed ∧ r.message.length ≤ pipeBuf ∧
    if p.mounted then
      r = .unmount p.sessionId ∨
        (r.sessionId = some p.sessionId ∧ (operation (r.map fieldName)).isSome)
    else
      r.map fieldName = .mount path

instance (p : Process) (path : CString) (r : Request NameField) : Decidable (p.MayCall path r) :=
  inferInstanceAs (Decidable (_ ∧ _ ∧ _ ∧ _ ∧ _))

/-- What is left of a function when it returns. -/
def Process.returned (p : Process) (r : Request NameField) (x : Returned) : Process :=
  match r with
  | .mount _ => { p with pending := none, sessionId := x.sessionId, mounted := x.value = 0 }
  | .unmount _ =>
      { p with pending := none, sessionId := x.sessionId, mounted := false, stopped := true }
  | _ => { p with pending := none, sessionId := x.sessionId }

inductive Reader
  | idle
  | refusing (path : CString) (tag : ℕ × ℕ)
  | storing (session : ℕ) (r : Request CString) (tag : ℕ × ℕ)

inductive Handler
  | ready
  | waiting
  | handling
  | replying (message : List Byte)
  | clearing
  deriving DecidableEq

def Handler.locked : Handler → Bool
  | ready => false
  | waiting => false
  | handling => true
  | replying _ => true
  | clearing => true

/-- The server with its clients. -/
structure ByteWorld (σ : Type u) where
  lib : σ
  serverPipe : Pipe
  reader : Reader
  clientPipesTable : ℕ → Option CString
  bufferEntryTable : ℕ → BufferEntry
  handler : ℕ → Handler
  fclient : ℕ → Option CString
  clientPipe : CString → List Byte
  process : ℕ → Process
  tags : List (ℕ × ℕ)
  slotTag : ℕ → ℕ × ℕ

variable {σ : Type u}

/-- After `server_init`, before any client has come. -/
def ByteWorld.start (lib : σ) : ByteWorld σ where
  lib := lib
  serverPipe := ⟨[], 0⟩
  reader := .idle
  clientPipesTable := fun _ => none
  bufferEntryTable := fun _ => ⟨tfsOpCodeNull, ⟨[], noNul_nil⟩, 0, 0, 0, []⟩
  handler := fun _ => .ready
  fclient := fun _ => none
  clientPipe := fun _ => []
  process := fun _ => ⟨0, false, none, false, 0⟩
  tags := []
  slotTag := fun _ => (0, 0)

namespace ByteWorld

/-! ## Clients' steps -/

/-- The start of a client function, up to the write of its message. -/
def send (c : ℕ) (path : CString) (r : Request NameField) (b : ByteWorld σ) :
    Option (ByteWorld σ) :=
  if (b.process c).MayCall path r then
    some { b with
      serverPipe := { b.serverPipe with bytes := b.serverPipe.bytes ++ r.message }
      tags := b.tags ++ [(c, (b.process c).count + 1)]
      process := Function.update b.process c
        { b.process c with pending := some r, count := (b.process c).count + 1 } }
  else
    none

/-- The end of a client function, from the read of its answer; it waits while the pipe is empty. -/
def receive (u : Unset) (c : ℕ) (path : CString) (b : ByteWorld σ) : Option (ByteWorld σ) :=
  match (b.process c).pending with
  | none => none
  | some r =>
      if b.clientPipe path = [] then
        none
      else
        let x := clientReturn u r (b.process c).sessionId (b.clientPipe path)
        some { b with
          clientPipe := Function.update b.clientPipe path x.pipe
          process := Function.update b.process c ((b.process c).returned r x) }

/-! ## The receiver's steps -/

/-- Read the next message from the server pipe, up to the lock of its slot. -/
def take (d : PromptDelivery) (stale : Byte) (b : ByteWorld σ) : Option (ByteWorld σ) :=
  match b.reader, readRequest d stale b.serverPipe with
  | .idle, .ok (r, pipe) =>
      match r.map bufferName with
      | .mount path =>
          match addClientPipe path b.clientPipesTable with
          | none => some { b with
              serverPipe := pipe
              tags := b.tags.tail
              reader := .refusing path (b.tags.headD (0, 0)) }
          | some s => some { b with
              serverPipe := pipe
              tags := b.tags.tail
              reader := .storing s (.mount path) (b.tags.headD (0, 0))
              clientPipesTable := Function.update b.clientPipesTable s (some path) }
      | r =>
          match r.sessionId with
          | none => none
          | some z =>
              -- beyond the tables the behaviour is undefined
              if 0 ≤ z ∧ z < maxSessionsAmount then
                some { b with
                  serverPipe := pipe
                  tags := b.tags.tail
                  reader := .storing z.toNat r (b.tags.headD (0, 0)) }
              else
                none
  | _, _ => none

/-- The reply of `read_mount` when no session is free. -/
def refuse (b : ByteWorld σ) : Option (ByteWorld σ) :=
  match b.reader with
  | .refusing path _ => some { b with
      reader := .idle
      clientPipe := Function.update b.clientPipe path (b.clientPipe path ++ intBytes (-1)) }
  | _ => none

/-- The critical section of a `read_*` function. -/
def store (b : ByteWorld σ) : Option (ByteWorld σ) :=
  match b.reader with
  | .storing s r tag =>
      if (b.handler s).locked then
        none
      else
        some { b with
          reader := .idle
          bufferEntryTable := Function.update b.bufferEntryTable s ((b.bufferEntryTable s).store r)
          slotTag := Function.update b.slotTag s tag
          handler := Function.update b.handler s .ready }
  | _ => none

/-! ## A worker's steps -/

def wake (s : ℕ) (b : ByteWorld σ) : Option (ByteWorld σ) :=
  match b.handler s with
  | .waiting => some { b with handler := Function.update b.handler s .ready }
  | _ => none

def lock (s : ℕ) (b : ByteWorld σ) : Option (ByteWorld σ) :=
  match b.handler s with
  | .ready =>
      if (b.bufferEntryTable s).opcode > tfsOpCodeNull then
        some { b with handler := Function.update b.handler s .handling }
      else
        some { b with handler := Function.update b.handler s .waiting }
  | _ => none

/-- The reply to the request in slot `s`, with the library and the tables after it. -/
def answer (exec : Operation → σ → Option Server.Reply × σ) (s : ℕ) (r : Request CString)
    (b : ByteWorld σ) : Option (Reply (Option Server.Reply) × ByteWorld σ) :=
  match r with
  | .mount path => some (.mount s, { b with fclient := Function.update b.fclient s (some path) })
  | .unmount _ => some (.unmount 0,
      { b with clientPipesTable := Function.update b.clientPipesTable s none })
  | r => (operation r).map fun op => (.library (exec op b.lib).1, { b with lib := (exec op b.lib).2 })

/-- The `switch` of `requestHandler`, up to the write of the reply; `none` if there is no defined
reply, which ends the process. -/
def execute (u : Unset) (exec : Operation → σ → Option Server.Reply × σ) (s : ℕ)
    (b : ByteWorld σ) : Option (ByteWorld σ) :=
  match b.handler s with
  | .handling =>
      match (b.bufferEntryTable s).request s (b.clientPipesTable s) with
      | none => none
      | some r =>
          (b.answer exec s r).bind fun x =>
            (replyBytes u r x.1).map fun message =>
              { x.2 with handler := Function.update x.2.handler s (.replying message) }
  | _ => none

/-- `write_on_pipe` to the client pipe that the worker has open. -/
def write (s : ℕ) (b : ByteWorld σ) : Option (ByteWorld σ) :=
  match b.handler s, b.fclient s with
  | .replying message, some path => some { b with
      handler := Function.update b.handler s .clearing
      clientPipe := Function.update b.clientPipe path (b.clientPipe path ++ message) }
  | _, _ => none

def clear (s : ℕ) (b : ByteWorld σ) : Option (ByteWorld σ) :=
  match b.handler s with
  | .clearing => some { b with
      handler := Function.update b.handler s .ready
      fclient := if (b.bufferEntryTable s).opcode = tfsOpCodeUnmount then
          Function.update b.fclient s none
        else
          b.fclient
      bufferEntryTable := Function.update b.bufferEntryTable s
        { b.bufferEntryTable s with opcode := tfsOpCodeNull } }
  | _ => none

/-- Worker `s` exists. -/
def ofWorker (s : ℕ) (step : ByteWorld σ → Option (ByteWorld σ)) (b : ByteWorld σ) :
    Option (ByteWorld σ) :=
  if s < maxSessionsAmount then step b else none

end ByteWorld

/-! ## Interleavings -/

inductive ByteLabel
  | send (c : ℕ) (r : Request NameField)
  | receive (c : ℕ)
  | wake (s : ℕ)
  | take
  | refuse
  | store
  | lock (s : ℕ)
  | execute (s : ℕ)
  | write (s : ℕ)
  | clear (s : ℕ)

/-- The step of `Sessions.Protocol` that a step is. -/
def ByteLabel.label : ByteLabel → Label
  | send c r => .send c (r.map fieldName)
  | receive c => .receive c
  | wake s => .wake s
  | take => .take
  | refuse => .refuse
  | store => .store
  | lock s => .lock s
  | execute s => .execute s
  | write s => .write s
  | clear s => .clear s

/-- What the pipes and the memory bring into a run: how `read(2)` cuts what the receiver asks for on the
server pipe, what its `opcode` holds before it is read, and what else was in memory before. -/
structure Surroundings where
  delivery : PromptDelivery
  stale : Byte
  unset : Unset

/-- What a step does; `none` where it cannot be taken. -/
def ByteWorld.perform (E : Surroundings) (exec : Operation → σ → Option Server.Reply × σ)
    (paths : ℕ → CString) : ByteLabel → ByteWorld σ → Option (ByteWorld σ)
  | .send c r => send c (paths c) r
  | .receive c => receive E.unset c (paths c)
  | .wake s => ofWorker s (wake s)
  | .take => take E.delivery E.stale
  | .refuse => refuse
  | .store => store
  | .lock s => ofWorker s (lock s)
  | .execute s => ofWorker s (execute E.unset exec s)
  | .write s => ofWorker s (write s)
  | .clear s => ofWorker s (clear s)

/-- Any number of client processes and the server, in any interleaving. -/
def byteSessions (E : Surroundings) (exec : Operation → σ → Option Server.Reply × σ)
    (paths : ℕ → CString) (lib : σ) : System (ByteWorld σ) ByteLabel where
  init b := b = ByteWorld.start lib
  step b a b' := b.perform E exec paths a = some b'

end Sessions
end TecnicoFs
