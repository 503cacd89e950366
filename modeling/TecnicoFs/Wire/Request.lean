import TecnicoFs.Lib.Pipe

/-!
# Request — the messages of the client functions

The seven functions of `client/tecnicofs_client_api.c` build their messages field by field, with no
delimiter. A name is passed as a pointer: `memcpy` takes the 40 bytes that start there, the string,
its NUL and whatever follows it in memory.
-/

namespace TecnicoFs
namespace Wire

open Lib

/-! ## Sizes and operation codes of `common/common.h` -/

abbrev maxSessionsAmount : ℕ := 20

abbrev tfsOpcodeSize : ℕ := 1
abbrev tfsPipenameSize : ℕ := 40
abbrev tfsSessionidSize : ℕ := 4
abbrev tfsNameSize : ℕ := 40
abbrev tfsFhandleSize : ℕ := 4
abbrev tfsLenSize : ℕ := 8

abbrev tfsWriteSize : ℕ := tfsOpcodeSize + tfsSessionidSize + tfsFhandleSize + tfsLenSize

abbrev tfsOpCodeMount : Byte := 1
abbrev tfsOpCodeUnmount : Byte := 2
abbrev tfsOpCodeOpen : Byte := 3
abbrev tfsOpCodeClose : Byte := 4
abbrev tfsOpCodeWrite : Byte := 5
abbrev tfsOpCodeRead : Byte := 6
abbrev tfsOpCodeShutdownAfterAllClosed : Byte := 7

/-- `PIPE_BUF`: the bytes that one `write(2)` puts into a pipe as a whole. -/
abbrev pipeBuf : ℕ := 4096

/-! ## Names -/

/-- The 40 bytes at a name shorter than 40: the name, its NUL, and what follows. -/
structure NameField where
  name : List Byte
  after : List Byte
  noNul : 0 ∉ name
  size : name.length + 1 + after.length = tfsNameSize
  deriving DecidableEq

def NameField.bytes (f : NameField) : List Byte :=
  f.name ++ 0 :: f.after

/-- The string at the start of a buffer. -/
def cString (buffer : List Byte) : List Byte :=
  buffer.takeWhile (· ≠ 0)

@[simp] theorem NameField.length_bytes (f : NameField) : f.bytes.length = tfsNameSize := by
  rw [NameField.bytes, List.length_append, List.length_cons, ← f.size]
  omega

@[simp] theorem NameField.cString_bytes (f : NameField) : cString f.bytes = f.name := by
  have hall : ∀ b ∈ f.name, (decide (b ≠ 0)) = true := by
    intro b hb
    have hne : b ≠ 0 := fun h0 => f.noNul (h0 ▸ hb)
    simp [hne]
  rw [cString, NameField.bytes, List.takeWhile_append_of_pos hall]
  simp

/-- The name `/f1` with zeros behind it. -/
def f1Field : NameField where
  name := [0x2f, 0x66, 0x31]
  after := List.replicate 36 0
  noNul := by decide
  size := rfl

/-! ## Requests -/

/-- A request with its arguments; `ν` is what stands for a name. -/
inductive Request (ν : Type)
  | mount (clientPipePath : ν)
  | unmount (sessionId : ℤ)
  | open (sessionId : ℤ) (name : ν) (flags : ℤ)
  | close (sessionId fhandle : ℤ)
  | write (sessionId fhandle : ℤ) (len : ℕ) (buffer : List Byte)
  | read (sessionId fhandle : ℤ) (len : ℕ)
  | shutdownAfterAllClosed (sessionId : ℤ)
  deriving DecidableEq

namespace Request

variable {ν μ : Type}

def map (g : ν → μ) : Request ν → Request μ
  | mount path => mount (g path)
  | unmount session => unmount session
  | .open session name flags => .open session (g name) flags
  | close session fhandle => close session fhandle
  | write session fhandle len buffer => write session fhandle len buffer
  | read session fhandle len => read session fhandle len
  | shutdownAfterAllClosed session => shutdownAfterAllClosed session

theorem map_map {κ : Type} (g : ν → μ) (k : μ → κ) (r : Request ν) :
    (r.map g).map k = r.map (k ∘ g) := by
  cases r <;> rfl

/-- The session id a request carries; a mount carries none. -/
def sessionId : Request ν → Option ℤ
  | mount _ => none
  | unmount session => some session
  | .open session _ _ => some session
  | close session _ => some session
  | write session _ _ _ => some session
  | read session _ _ => some session
  | shutdownAfterAllClosed session => some session

@[simp] theorem sessionId_map (g : ν → μ) (r : Request ν) : (r.map g).sessionId = r.sessionId := by
  cases r <;> rfl

end Request

/-- The values of an `int`. -/
def IsInt (z : ℤ) : Prop :=
  -2 ^ 31 ≤ z ∧ z < 2 ^ 31

/-- The values the client's `session_id` can have: what a mount returned, 0 before the first mount,
-1 after a refused mount or an unmount. -/
def IsClientSession (z : ℤ) : Prop :=
  -1 ≤ z ∧ z < maxSessionsAmount

instance (z : ℤ) : Decidable (IsInt z) :=
  inferInstanceAs (Decidable (_ ∧ _))

instance (z : ℤ) : Decidable (IsClientSession z) :=
  inferInstanceAs (Decidable (_ ∧ _))

theorem IsClientSession.isInt {z : ℤ} (h : IsClientSession z) : IsInt z := by
  have hsessions : ((maxSessionsAmount : ℕ) : ℤ) = 20 := rfl
  rcases h with ⟨hlo, hhi⟩
  rw [hsessions] at hhi
  constructor <;> omega

/-- The arguments have the types of the client functions. A written message is one object, so that
its size is a `size_t`; the client passes as many bytes as it says. -/
def Request.Typed {ν : Type} : Request ν → Prop
  | .mount _ => True
  | .unmount session => IsInt session
  | .open session _ flags => IsInt session ∧ IsInt flags
  | .close session fhandle => IsInt session ∧ IsInt fhandle
  | .write session fhandle len buffer =>
      IsInt session ∧ IsInt fhandle ∧ tfsWriteSize + len < 2 ^ 64 ∧ buffer.length = len
  | .read session fhandle len => IsInt session ∧ IsInt fhandle ∧ len < 2 ^ 64
  | .shutdownAfterAllClosed session => IsInt session

instance {ν : Type} : DecidablePred (Request.Typed (ν := ν))
  | .mount _ => inferInstanceAs (Decidable True)
  | .unmount session => inferInstanceAs (Decidable (IsInt session))
  | .open session _ flags => inferInstanceAs (Decidable (IsInt session ∧ IsInt flags))
  | .close session fhandle => inferInstanceAs (Decidable (IsInt session ∧ IsInt fhandle))
  | .write session fhandle len buffer =>
      inferInstanceAs (Decidable (IsInt session ∧ IsInt fhandle ∧ tfsWriteSize + len < 2 ^ 64 ∧
        buffer.length = len))
  | .read session fhandle len =>
      inferInstanceAs (Decidable (IsInt session ∧ IsInt fhandle ∧ len < 2 ^ 64))
  | .shutdownAfterAllClosed session => inferInstanceAs (Decidable (IsInt session))

/-! ## Messages -/

def tfsMount (clientPipePath : NameField) : List Byte :=
  tfsOpCodeMount :: clientPipePath.bytes

def tfsUnmount (sessionId : ℤ) : List Byte :=
  tfsOpCodeUnmount :: intBytes sessionId

def tfsOpen (sessionId : ℤ) (name : NameField) (flags : ℤ) : List Byte :=
  tfsOpCodeOpen :: (intBytes sessionId ++ (name.bytes ++ intBytes flags))

def tfsClose (sessionId fhandle : ℤ) : List Byte :=
  tfsOpCodeClose :: (intBytes sessionId ++ intBytes fhandle)

def tfsWrite (sessionId fhandle : ℤ) (len : ℕ) (buffer : List Byte) : List Byte :=
  tfsOpCodeWrite ::
    (intBytes sessionId ++ (intBytes fhandle ++ (leBytes tfsLenSize len ++ buffer.take len)))

def tfsRead (sessionId fhandle : ℤ) (len : ℕ) : List Byte :=
  tfsOpCodeRead :: (intBytes sessionId ++ (intBytes fhandle ++ leBytes tfsLenSize len))

def tfsShutdownAfterAllClosed (sessionId : ℤ) : List Byte :=
  tfsOpCodeShutdownAfterAllClosed :: intBytes sessionId

/-- The message of a request. -/
def Request.message : Request NameField → List Byte
  | .mount path => tfsMount path
  | .unmount session => tfsUnmount session
  | .open session name flags => tfsOpen session name flags
  | .close session fhandle => tfsClose session fhandle
  | .write session fhandle len buffer => tfsWrite session fhandle len buffer
  | .read session fhandle len => tfsRead session fhandle len
  | .shutdownAfterAllClosed session => tfsShutdownAfterAllClosed session

theorem Request.message_ne_nil (r : Request NameField) : r.message ≠ [] := by
  cases r <;> exact List.cons_ne_nil _ _

/-- Only a write can make a long message. -/
theorem Request.length_message_le {r : Request NameField}
    (h : ∀ session fhandle len buffer, r ≠ .write session fhandle len buffer) :
    r.message.length ≤ 49 := by
  cases r with
  | write session fhandle len buffer => exact absurd rfl (h session fhandle len buffer)
  | mount path => simp [message, tfsMount, tfsNameSize]
  | unmount session => simp [message, tfsUnmount]
  | «open» session name flags => simp [message, tfsOpen, tfsNameSize]
  | close session fhandle => simp [message, tfsClose]
  | read session fhandle len => simp [message, tfsRead, tfsLenSize]
  | shutdownAfterAllClosed session => simp [message, tfsShutdownAfterAllClosed]

theorem length_tfsWrite {session fhandle : ℤ} {len : ℕ} {buffer : List Byte}
    (h : buffer.length = len) :
    (tfsWrite session fhandle len buffer).length = tfsWriteSize + len := by
  have hsize : tfsWriteSize = 17 := rfl
  simp [tfsWrite, hsize, tfsLenSize, h]
  omega

end Wire
end TecnicoFs
