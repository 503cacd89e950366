import TecnicoFs.Wire.Request

/-!
# Reply — what the server answers, and how the client functions read it

A client function reads each field of its reply with a single `read(2)`, and looks only at whether
that call failed. The variable it reads into is not initialised; that of `tfs_mount` is the static
`session_id`. So the content of a variable is an argument here, and a `read(2)` that delivers less
than it was asked for changes the start of it only.
-/

namespace TecnicoFs
namespace Wire

open Lib

/-! ## Sizes of `common/common.h` -/

abbrev tfsMountReturnSize : ℕ := tfsSessionidSize
abbrev tfsUnmountReturnSize : ℕ := 4
abbrev tfsOpenReturnSize : ℕ := 4
abbrev tfsCloseReturnSize : ℕ := 4
abbrev tfsWriteReturnSize : ℕ := 8
abbrev tfsReadReturnSize : ℕ := 8
abbrev tfsShutdownReturnSize : ℕ := 4

/-- `sizeof(char[n])` of a signed `n`. -/
def sizeofChars (n : ℤ) : ℕ :=
  (n % 2 ^ 64).toNat

theorem sizeofChars_natCast {n : ℕ} (h : n < 2 ^ 64) : sizeofChars n = n := by
  unfold sizeofChars
  omega

/-! ## The reply to a read -/

/-- The message of `write_read`; `readBuffer` is the whole buffer that was allocated for the read.
The result is `none` where a `memcpy` leaves one of the two buffers. -/
def writeRead (returnLen : ℤ) (readBuffer : List Byte) : Option (List Byte) :=
  let payload := sizeofChars returnLen
  -- `return_buffer` has the size that the `size_t` addition gives
  if tfsLenSize + payload ≤ sizeAdd tfsLenSize payload ∧ payload ≤ readBuffer.length then
    some (longBytes returnLen ++ readBuffer.take payload)
  else
    none

/-- The sizes agree for every result that is a number of bytes. -/
theorem writeRead_natCast {n : ℕ} {readBuffer : List Byte} (hn : n ≤ readBuffer.length)
    (hsmall : tfsLenSize + n < 2 ^ 64) :
    writeRead n readBuffer = some (longBytes n ++ readBuffer.take n) := by
  have hpayload : sizeofChars (n : ℤ) = n := sizeofChars_natCast (by omega)
  unfold writeRead
  simp only [hpayload, sizeAdd_of_lt hsmall]
  rw [if_pos ⟨le_rfl, hn⟩]

/-- A read buffer that was not allocated gives nothing to copy from. -/
theorem writeRead_null {n : ℕ} (hn : n ≠ 0) (hsmall : n < 2 ^ 64) : writeRead n [] = none := by
  unfold writeRead
  simp only [sizeofChars_natCast hsmall, List.length_nil]
  rw [if_neg]
  rintro ⟨_, hfits⟩
  omega

/-- For the error value the size of the allocation wraps to 7. -/
theorem writeRead_error (readBuffer : List Byte) : writeRead (-1) readBuffer = none := by
  have hpayload : sizeofChars (-1) = 2 ^ 64 - 1 := by decide
  have hwrap : sizeAdd tfsLenSize (2 ^ 64 - 1) = 7 := by decide
  unfold writeRead
  simp only [hpayload, hwrap]
  rw [if_neg]
  rintro ⟨hsize, _⟩
  simp only [tfsLenSize] at hsize
  omega

/-! ## The client's end of its pipe -/

/-- One `read(2)` of `count` bytes where at most `limit` are delivered; `none` where the call fails,
as it does for a count beyond `SSIZE_MAX`. The bytes are those that come before the end of file. -/
def readClient (limit count : ℕ) (pipe : List Byte) : Option (List Byte × List Byte) :=
  if 2 ^ 63 ≤ count then
    none
  else
    some (pipe.take (min count limit), pipe.drop (min count limit))

/-- `read(fclient, &v, sizeof(v))` where `v` holds `old`. -/
def readVariable (limit : ℕ) (old pipe : List Byte) : Option (List Byte × List Byte) :=
  (readClient limit old.length pipe).map fun r => (storeOver r.1 old, r.2)

/-- How many bytes the two `read(2)` calls of a client function deliver at most. -/
structure Limits where
  first : ℕ
  second : ℕ
  first_pos : 0 < first
  second_pos : 0 < second

/-- Calls that deliver all that is there. -/
def Limits.ample (pipe : List Byte) : Limits where
  first := pipe.length + 1
  second := pipe.length + 1
  first_pos := Nat.succ_pos _
  second_pos := Nat.succ_pos _

theorem readVariable_eq {limit : ℕ} {old pipe : List Byte} (h : old.length ≤ 8) :
    readVariable limit old pipe =
      some (storeOver (pipe.take (min old.length limit)) old,
        pipe.drop (min old.length limit)) := by
  have hsmall : ¬ 2 ^ 63 ≤ old.length := by omega
  rw [readVariable, readClient, if_neg hsmall]
  rfl

/-- A field that is delivered whole replaces what the variable held. -/
theorem readVariable_whole {limit : ℕ} {old field rest : List Byte} (h : old.length ≤ 8)
    (hlen : field.length = old.length) (hlimit : old.length ≤ limit) :
    readVariable limit old (field ++ rest) = some (field, rest) := by
  rw [readVariable_eq h, Nat.min_eq_left hlimit, ← hlen, List.take_left, List.drop_left,
    storeOver_of_length hlen.ge]

/-! ## The client functions, from the reply on -/

/-- What a client function leaves: its return value, the bytes it stored in the caller's buffer, the
static `session_id` and the pipe. -/
structure Returned where
  value : ℤ
  data : List Byte
  sessionId : ℤ
  pipe : List Byte

section Functions

variable (limits : Limits) (session : ℤ) (old pipe : List Byte)

def tfsMountReturn : Returned :=
  match readVariable limits.first (intBytes session) pipe with
  | none => ⟨-1, [], session, pipe⟩
  -- the id is read over the old one
  | some (v, rest) => ⟨if bytesInt v = -1 then -1 else 0, [], bytesInt v, rest⟩

/-- `unlinked` is whether the client could remove its pipe. -/
def tfsUnmountReturn (unlinked : Bool) : Returned :=
  match readVariable limits.first old pipe with
  | none => ⟨-1, [], session, pipe⟩
  -- the session is given up whatever the server answered
  | some (v, rest) => ⟨if unlinked then bytesInt v else -1, [], -1, rest⟩

/-- A function whose reply is one value. -/
def valueReturn (decode : List Byte → ℤ) : Returned :=
  match readVariable limits.first old pipe with
  | none => ⟨-1, [], session, pipe⟩
  | some (v, rest) => ⟨decode v, [], session, rest⟩

def tfsOpenReturn : Returned :=
  valueReturn limits session old pipe bytesInt

def tfsCloseReturn : Returned :=
  valueReturn limits session old pipe bytesInt

def tfsWriteReturn : Returned :=
  valueReturn limits session old pipe bytesLong

def tfsReadReturn : Returned :=
  match readVariable limits.first old pipe with
  | none => ⟨-1, [], session, pipe⟩
  | some (v, rest) =>
      match readClient limits.second (sizeofChars (bytesLong v)) rest with
      | none => ⟨-1, [], session, rest⟩
      | some (data, rest) => ⟨bytesLong v, data, session, rest⟩

def tfsShutdownAfterAllClosedReturn : Returned :=
  valueReturn limits session old pipe bytesInt

end Functions

end Wire
end TecnicoFs
