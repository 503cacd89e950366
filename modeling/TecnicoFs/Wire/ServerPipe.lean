import TecnicoFs.Lib.Fifo
import TecnicoFs.Lib.Reads
import TecnicoFs.Lib.Transition
import TecnicoFs.Wire.Framing

/-!
# Server pipe — the receiver at each system call, while clients come and go

`serverPipeReader` makes one system call after the other, and between any two of them clients open the
server pipe, write requests to it and close it. A `read_*` function is a program that asks for its
fields; a client writes a request whole.

The variable `opcode` of the loop has no value before a byte is read into it. What it holds where no
byte was read is an argument of the step, so that it is arbitrary.
-/

namespace TecnicoFs
namespace Wire
namespace ServerPipe

open Lib

/-! ## The functions `read_*` -/

def readInt : Reads ℤ :=
  (Reads.bytes 4).andThen fun buffer => .done (bytesInt buffer)

def readSize : Reads ℕ :=
  (Reads.bytes tfsLenSize).andThen fun buffer => .done (leNat buffer)

def readMount : Reads (Request (List Byte)) :=
  (Reads.bytes tfsPipenameSize).andThen fun path => .done (.mount path)

def readUnmount : Reads (Request (List Byte)) :=
  readInt.andThen fun session => .done (.unmount session)

def readOpen : Reads (Request (List Byte)) :=
  readInt.andThen fun session =>
    (Reads.bytes tfsNameSize).andThen fun name =>
      readInt.andThen fun flags => .done (.open session name flags)

def readClose : Reads (Request (List Byte)) :=
  readInt.andThen fun session => readInt.andThen fun fhandle => .done (.close session fhandle)

def readWrite : Reads (Request (List Byte)) :=
  readInt.andThen fun session =>
    readInt.andThen fun fhandle =>
      readSize.andThen fun len =>
        (Reads.bytes len).andThen fun buffer => .done (.write session fhandle len buffer)

def readRead : Reads (Request (List Byte)) :=
  readInt.andThen fun session =>
    readInt.andThen fun fhandle =>
      readSize.andThen fun len => .done (.read session fhandle len)

def readShutdown : Reads (Request (List Byte)) :=
  readInt.andThen fun session => .done (.shutdownAfterAllClosed session)

/-- The `switch` on the opcode; `none` is its `default`. -/
def dispatch (opcode : Byte) : Option (Reads (Request (List Byte))) :=
  if opcode = tfsOpCodeMount then
    some readMount
  else if opcode = tfsOpCodeUnmount then
    some readUnmount
  else if opcode = tfsOpCodeOpen then
    some readOpen
  else if opcode = tfsOpCodeClose then
    some readClose
  else if opcode = tfsOpCodeWrite then
    some readWrite
  else if opcode = tfsOpCodeRead then
    some readRead
  else if opcode = tfsOpCodeShutdownAfterAllClosed then
    some readShutdown
  else
    none

/-- A program with `read_from_pipe` for each of its fields. -/
def run {α : Type} (d : Delivery) : Reads α → Pipe → Except Stop (α × Pipe)
  | .done x, p => .ok (x, p)
  | .want n next, p => do
      let r ← readFromPipe d n p
      run d (next r.1) r.2

theorem run_andThen {α β : Type} (d : Delivery) (q : Reads α) (f : α → Reads β) (p : Pipe) :
    run d (q.andThen f) p = (do
      let x ← run d q p
      run d (f x.1) x.2) := by
  induction q generalizing p with
  | done x => rfl
  | want n next ih =>
      simp only [Reads.andThen, run]
      rcases readFromPipe d n p with stop | ⟨buffer, q⟩
      · rfl
      · exact ih buffer q

theorem run_bytes (d : Delivery) (n : ℕ) (p : Pipe) : run d (Reads.bytes n) p = readFromPipe d n p := by
  simp only [Reads.bytes, run]
  rcases readFromPipe d n p with stop | ⟨buffer, q⟩
  · rfl
  · rfl

theorem run_readInt (d : Delivery) (p : Pipe) : run d readInt p = Wire.readInt d p := by
  rw [readInt, run_andThen, run_bytes]
  rfl

theorem run_readSize (d : Delivery) (p : Pipe) : run d readSize p = Wire.readSize d p := by
  rw [readSize, run_andThen, run_bytes]
  rfl

/-- Run without a break, the programs are the functions of the receiver on a byte stream. -/
theorem dispatch_eq_run (d : Delivery) (opcode : Byte) (p : Pipe) :
    Wire.dispatch d opcode p = (dispatch opcode).elim (.error .exits) fun program => run d program p := by
  unfold Wire.dispatch dispatch
  split_ifs
  · simp only [Option.elim, readMount, run_andThen, run_bytes]
    rfl
  · simp only [Option.elim, readUnmount, run_andThen, run_readInt]
    rfl
  · simp only [Option.elim, readOpen, run_andThen, run_readInt, run_bytes]
    rfl
  · simp only [Option.elim, readClose, run_andThen, run_readInt]
    rfl
  · simp only [Option.elim, readWrite, run_andThen, run_readInt, run_readSize, run_bytes]
    rfl
  · simp only [Option.elim, readRead, run_andThen, run_readInt, run_readSize]
    rfl
  · simp only [Option.elim, readShutdown, run_andThen, run_readInt]
    rfl
  · rfl

/-! ## The receiver -/

/-- Where the process calls `exit`. -/
inductive Exit
  | opcodeRead
  | fieldRead
  | badOpcode
  deriving DecidableEq

/-- Where the receiver stands, always before a system call: in `open(2)`, for the first time or again;
at the read of the opcode; at the `close(2)` after an end of file; at the read after the reopening; in
`read_from_pipe`, with what the buffer of the field holds. -/
inductive Position
  | opening (again : Bool)
  | head
  | closing
  | again
  | handling (program : Reads (Request (List Byte))) (buffer : List Byte)
  | exited (why : Exit)

/-- The receiver is between two requests. -/
def Position.Between : Position → Prop
  | opening _ => True
  | head => True
  | closing => True
  | again => True
  | _ => False

/-- A request that a `read_*` function stored, made of the bytes of the pipe from `first` up to
`last`; bytes are counted from the first that was ever written. -/
structure Stored where
  first : ℕ
  last : ℕ
  request : Request (List Byte)

/-- The server pipe and the receiver. From `written` on, the fields are histories: the requests that
clients wrote, the opcodes of the `read_*` functions called and the requests these stored, oldest
first; how often the `switch` was made on an opcode that was not read; the number of bytes written; and
the first byte of the call in progress. -/
structure World where
  fifo : Fifo Byte
  position : Position
  written : List (Request NameField)
  dispatched : List Byte
  stored : List Stored
  unread : ℕ
  put : ℕ
  first : ℕ

/-- The receiver starts. -/
def World.start : World where
  fifo := .made
  position := .opening false
  written := []
  dispatched := []
  stored := []
  unread := 0
  put := 0
  first := 0

namespace World

variable (w : World)

/-- How many bytes have left the pipe. -/
def taken : ℕ :=
  w.put - w.fifo.content.length

/-- A `read_*` function that has its request stores it and returns; otherwise it goes on reading. -/
def goOn (x : Reads (Request (List Byte)) × List Byte) : World :=
  match x with
  | (.done r, _) => { w with
      position := .head
      stored := w.stored ++ [⟨w.first, w.taken, r⟩] }
  | (program, buffer) => { w with position := .handling program buffer }

/-- The `switch`, with the first byte of the request at `first`. -/
def switch (opcode : Byte) (first : ℕ) : World :=
  match dispatch opcode with
  | none => { w with position := .exited .badOpcode }
  | some program =>
      { w with dispatched := w.dispatched ++ [opcode], first := first }.goOn (program.settle, [])

end World

/-- The `switch` after a read that gave no byte, on what the variable `opcode` holds. -/
def World.switchUnread (w : World) (opcode : Byte) : World :=
  { w with unread := w.unread + 1 }.switch opcode w.taken

/-- The next system call of the receiver. A `read(2)` gives at most `k + 1` bytes; `opcode` is what the
variable holds if no byte is read into it. -/
def receive (k : ℕ) (opcode : Byte) (w : World) : Option World :=
  match w.position with
  | .opening again =>
      match w.fifo.reader with
      | .closed => some { w with fifo := w.fifo.openRead }
      | .opening => none
      | .opened => some { w with position := if again then .again else .head }
  | .head =>
      (w.fifo.read tfsOpcodeSize k).map fun x =>
        match x.1 with
        -- "Reopen pipe if closed"
        | [] => { w with position := .closing }
        | b :: _ => { w with fifo := x.2 }.switch b w.taken
  | .closing => some { w with fifo := w.fifo.closeRead, position := .opening true }
  | .again =>
      (w.fifo.read tfsOpcodeSize k).map fun x =>
        match x.1 with
        -- the result of this read is not looked at
        | [] => w.switchUnread opcode
        | b :: _ => { w with fifo := x.2 }.switch b w.taken
  | .handling program buffer =>
      (w.fifo.read (program.missing buffer) k).map fun x =>
        { w with fifo := x.2 }.goOn (program.deliver buffer x.1)
  | .exited _ => none

/-- A `read(2)` of the receiver that gives -1. -/
def fail (opcode : Byte) (w : World) : Option World :=
  match w.position with
  | .head => some { w with position := .exited .opcodeRead }
  | .again => some (w.switchUnread opcode)
  | .handling _ _ => some { w with position := .exited .fieldRead }
  | _ => none

/-! ## Interleavings -/

inductive Label
  | attach (c : ℕ)
  | write (c : ℕ) (r : Request NameField)
  | detach (c : ℕ)
  | receive (k : ℕ) (opcode : Byte)
  | fail (opcode : Byte)

/-- What a step does; `none` where it cannot be taken. -/
def perform : Label → World → Option World
  | .attach c, w => (w.fifo.openWrite c).map fun f => { w with fifo := f }
  | .write c r, w =>
      (w.fifo.write c r.message).map fun f => { w with
        fifo := f
        written := w.written ++ [r]
        put := w.put + r.message.length }
  | .detach c, w => (w.fifo.closeWrite c).map fun f => { w with fifo := f }
  | .receive k opcode, w => receive k opcode w
  | .fail opcode, w => fail opcode w

/-- The arguments of the requests have the types of the client functions. -/
def Label.Typed : Label → Prop
  | .write _ r => r.Typed
  | _ => True

/-- The receiver, and any number of clients that open the pipe, write whole requests and close it, in
any order. -/
def clients : System World Label where
  init w := w = World.start
  step w a w' := a.Typed ∧ perform a w = some w'

end ServerPipe
end Wire
end TecnicoFs
