import TecnicoFs.Wire.Request

/-!
# Receiver — the reading side of `tfs_server.c`

`serverPipeReader` reads an opcode and dispatches to the `read_*` function of that opcode, which
reads its fields from the same pipe. Where a slot stores the fields, the request is what it stores.
-/

namespace TecnicoFs
namespace Wire

open Lib

variable (d : Delivery)

/-- Why the receiver does not go on: it waits for bytes, or has ended the process. -/
inductive Stop
  | waits
  | exits
  deriving DecidableEq

/-! ## `read_from_pipe` -/

def readPipe (len : ℕ) (p : Pipe) : Except Stop (List Byte × Pipe) :=
  match d.read len p with
  | none => .error .waits
  | some r => .ok r

/-- The loop of `read_from_pipe`, with a bound on its turns. -/
def readFromPipeLoop (len : ℕ) : ℕ → List Byte → Pipe → Except Stop (List Byte × Pipe)
  | 0, _, _ => .error .waits
  | turns + 1, buffer, p =>
      if buffer.length < len then do
        let r ← readPipe d (len - buffer.length) p
        readFromPipeLoop len turns (buffer ++ r.1) r.2
      else
        .ok (buffer, p)

/-- Each turn that meets a writer reads a byte at least, and the last one finds the buffer full. -/
def readFromPipe (len : ℕ) (p : Pipe) : Except Stop (List Byte × Pipe) :=
  readFromPipeLoop d len (d.calls len p.clock + 1) [] p

def readInt (p : Pipe) : Except Stop (ℤ × Pipe) := do
  let r ← readFromPipe d 4 p
  .ok (bytesInt r.1, r.2)

def readSize (p : Pipe) : Except Stop (ℕ × Pipe) := do
  let r ← readFromPipe d tfsLenSize p
  .ok (leNat r.1, r.2)

/-! ## The fields of each request -/

def readMount (p : Pipe) : Except Stop (Request (List Byte) × Pipe) := do
  let (path, p) ← readFromPipe d tfsPipenameSize p
  .ok (.mount path, p)

def readUnmount (p : Pipe) : Except Stop (Request (List Byte) × Pipe) := do
  let (session, p) ← readInt d p
  .ok (.unmount session, p)

def readOpen (p : Pipe) : Except Stop (Request (List Byte) × Pipe) := do
  let (session, p) ← readInt d p
  let (name, p) ← readFromPipe d tfsNameSize p
  let (flags, p) ← readInt d p
  .ok (.open session name flags, p)

def readClose (p : Pipe) : Except Stop (Request (List Byte) × Pipe) := do
  let (session, p) ← readInt d p
  let (fhandle, p) ← readInt d p
  .ok (.close session fhandle, p)

def readWrite (p : Pipe) : Except Stop (Request (List Byte) × Pipe) := do
  let (session, p) ← readInt d p
  let (fhandle, p) ← readInt d p
  let (len, p) ← readSize d p
  let (buffer, p) ← readFromPipe d len p
  .ok (.write session fhandle len buffer, p)

def readRead (p : Pipe) : Except Stop (Request (List Byte) × Pipe) := do
  let (session, p) ← readInt d p
  let (fhandle, p) ← readInt d p
  let (len, p) ← readSize d p
  .ok (.read session fhandle len, p)

def readShutdown (p : Pipe) : Except Stop (Request (List Byte) × Pipe) := do
  let (session, p) ← readInt d p
  .ok (.shutdownAfterAllClosed session, p)

/-! ## `serverPipeReader` -/

/-- The byte of the opcode. At the end of file the pipe is opened again and read once more; the result of
that read is not looked at, and where it gives no byte the `switch` uses what the variable holds, here
`stale`. -/
def readOpcode (stale : Byte) (p : Pipe) : Except Stop (Byte × Pipe) := do
  let r ← readPipe d tfsOpcodeSize p
  match r.1 with
  | opcode :: _ => .ok (opcode, r.2)
  | [] =>
      let again ← readPipe d tfsOpcodeSize r.2
      match again.1 with
      | opcode :: _ => .ok (opcode, again.2)
      | [] => .ok (stale, again.2)

/-- The dispatch on the opcode; a bad opcode ends the process. -/
def dispatch (opcode : Byte) (p : Pipe) : Except Stop (Request (List Byte) × Pipe) :=
  if opcode = tfsOpCodeMount then
    readMount d p
  else if opcode = tfsOpCodeUnmount then
    readUnmount d p
  else if opcode = tfsOpCodeOpen then
    readOpen d p
  else if opcode = tfsOpCodeClose then
    readClose d p
  else if opcode = tfsOpCodeWrite then
    readWrite d p
  else if opcode = tfsOpCodeRead then
    readRead d p
  else if opcode = tfsOpCodeShutdownAfterAllClosed then
    readShutdown d p
  else
    .error .exits

def readRequest (stale : Byte) (p : Pipe) : Except Stop (Request (List Byte) × Pipe) := do
  let (opcode, p) ← readOpcode d stale p
  dispatch d opcode p

/-- What the receiver has done: the requests it read, the pipe after the last of them, and why it
does not go on, if it does not. -/
structure Reading where
  requests : List (Request (List Byte))
  pipe : Pipe
  stopped : Option Stop

/-- The loop of `serverPipeReader`, for so many turns; `stale` is what the uninitialised `opcode` holds in
each of them. -/
def serverPipeReader (stale : ℕ → Byte) : ℕ → Pipe → Reading
  | 0, p => ⟨[], p, none⟩
  | turns + 1, p =>
      match readRequest d (stale turns) p with
      | .error stop => ⟨[], p, some stop⟩
      | .ok (r, q) =>
          let later := serverPipeReader stale turns q
          ⟨r :: later.requests, later.pipe, later.stopped⟩

end Wire
end TecnicoFs
