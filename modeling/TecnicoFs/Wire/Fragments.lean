import TecnicoFs.Wire.Reply

/-!
# Fragments — replies that arrive in parts, or not at all

A client function takes one `read(2)` result for a whole field. Where it is shorter the variable
keeps a part of what it held, and the function returns that. What arrives is a prefix of the
message, cut where the server has exited, in portions of any size.
-/

namespace TecnicoFs
namespace Wire

open Lib

/-! ## Replies -/

/-- A reply that the server sends, by the client function that waits for it. -/
inductive ServerReply
  | mount (sessionId : ℤ)
  | unmount
  | open (fhandle : ℤ)
  | close (returnValue : ℤ)
  | write (returnLen : ℤ)
  | read (returnLen : ℤ) (data : List Byte)
  | shutdownAfterAllClosed (returnValue : ℤ)

namespace ServerReply

/-- The value at the start of the message. -/
def field : ServerReply → List Byte
  | mount sessionId => intBytes sessionId
  | unmount => intBytes 0
  | .open fhandle => intBytes fhandle
  | close returnValue => intBytes returnValue
  | write returnLen => longBytes returnLen
  | read returnLen _ => longBytes returnLen
  | shutdownAfterAllClosed returnValue => intBytes returnValue

/-- The size of the variable that the client function reads the value into. -/
def returnSize : ServerReply → ℕ
  | mount _ => tfsMountReturnSize
  | unmount => tfsUnmountReturnSize
  | .open _ => tfsOpenReturnSize
  | close _ => tfsCloseReturnSize
  | write _ => tfsWriteReturnSize
  | read _ _ => tfsReadReturnSize
  | shutdownAfterAllClosed _ => tfsShutdownReturnSize

/-- Server and client agree on the size of the value. -/
@[simp] theorem length_field (r : ServerReply) : r.field.length = r.returnSize := by
  cases r with
  | write returnLen => exact length_longBytes returnLen
  | read returnLen _ => exact length_longBytes returnLen
  | _ => exact length_intBytes _

/-- The bytes that follow the value. -/
def data : ServerReply → List Byte
  | read _ bytes => bytes
  | _ => []

def message (r : ServerReply) : List Byte :=
  r.field ++ r.data

/-- What the client function should return. -/
def value : ServerReply → ℤ
  | mount sessionId => if sessionId = -1 then -1 else 0
  | unmount => 0
  | .open fhandle => fhandle
  | close returnValue => returnValue
  | write returnLen => returnLen
  | read returnLen _ => returnLen
  | shutdownAfterAllClosed returnValue => returnValue

/-- The values have the types of the server's functions, and a session id is one of its own. -/
def Typed : ServerReply → Prop
  | mount sessionId => IsClientSession sessionId
  | unmount => True
  | .open fhandle => IsInt fhandle
  | close returnValue => IsInt returnValue
  | write returnLen => -2 ^ 63 ≤ returnLen ∧ returnLen < 2 ^ 63
  | read returnLen bytes =>
      (returnLen = -1 ∧ bytes = []) ∨ (returnLen = bytes.length ∧ bytes.length < 2 ^ 63)
  | shutdownAfterAllClosed returnValue => IsInt returnValue

end ServerReply

/-- What arrives of a reply before the end of file, and how `read(2)` delivers it. -/
structure Arrival (r : ServerReply) where
  typed : r.Typed
  bytes : List Byte
  sent : bytes <+: r.message
  limits : Limits

/-- The client before the reply: its static `session_id`, and whether it will be able to remove its
pipe. -/
structure Client where
  session : ℤ
  isSession : IsClientSession session
  unlinked : Bool

/-- The client function that waits for a reply; `old` is what its variable holds. -/
def ServerReply.returned (r : ServerReply) (limits : Limits) (c : Client) (old pipe : List Byte) :
    Returned :=
  match r with
  | .mount _ => tfsMountReturn limits c.session pipe
  | .unmount => tfsUnmountReturn limits c.session old pipe c.unlinked
  | .open _ => tfsOpenReturn limits c.session old pipe
  | .close _ => tfsCloseReturn limits c.session old pipe
  | .write _ => tfsWriteReturn limits c.session old pipe
  | .read _ _ => tfsReadReturn limits c.session old pipe
  | .shutdownAfterAllClosed _ => tfsShutdownAfterAllClosedReturn limits c.session old pipe

/-- The reply is whole, and each `read(2)` delivers its field at once. A mount reads over the old
session id, so that there the missing bytes can agree with it by chance; an unmount whose
`unlink` fails returns -1. -/
def ServerReply.Delivered (r : ServerReply) (bytes : List Byte) (limits : Limits) (c : Client) :
    Prop :=
  match r with
  | .mount z =>
      (bytes = r.message ∧ (r.returnSize ≤ limits.first ∨ (z = -1 ↔ c.session = -1))) ∨
        (bytes ≠ r.message ∧ c.session = -1 ∧ (bytes = [] ∨ z = -1))
  | .unmount =>
      if c.unlinked then
        bytes = r.message ∧ r.returnSize ≤ limits.first
      else
        bytes ≠ r.message
  | .read _ data =>
      bytes = r.message ∧ r.returnSize ≤ limits.first ∧ data.length ≤ limits.second
  | _ => bytes = r.message ∧ r.returnSize ≤ limits.first

/-- Whatever the variable holds: of a reply that has arrived whole the function returns the value,
with the bytes and, for a mount, the session; of any other it returns -1. -/
def InventsNothing {r : ServerReply} (a : Arrival r) (c : Client) : Prop :=
  ∀ old, old.length = r.returnSize →
    (a.bytes = r.message →
      (r.returned a.limits c old a.bytes).value = r.value ∧
        (r.returned a.limits c old a.bytes).data = r.data ∧
          ∀ z, r = .mount z → (r.returned a.limits c old a.bytes).sessionId = z) ∧
    (a.bytes ≠ r.message → (r.returned a.limits c old a.bytes).value = -1)

/-! ## A field that is not delivered whole -/

section Field

variable {got field bytes : List Byte} {decode : List Byte → ℤ} {size limit : ℕ}

/-- Two contents of the variable that a short read leaves different. -/
theorem storeOver_zeros_ne_ones (hshort : got.length < size) :
    storeOver got (List.replicate size 0) ≠ storeOver got (List.replicate size 1) := by
  intro h
  have hrest := List.append_cancel_left h
  rw [List.drop_replicate, List.drop_replicate, List.replicate_inj] at hrest
  rcases hrest with ⟨_, hzero | hone⟩
  · omega
  · exact absurd hone (by decide)

/-- If the value does not depend on what the variable held, the field was delivered whole. -/
theorem size_le_of_determined
    (hinj : ∀ as bs : List Byte, as.length = size → bs.length = size →
      decode as = decode bs → as = bs)
    (hlen : got.length ≤ size) {v : ℤ}
    (h : ∀ old : List Byte, old.length = size → decode (storeOver got old) = v) :
    size ≤ got.length := by
  by_contra hshort
  have hzeros := h (List.replicate size 0) List.length_replicate
  have hones := h (List.replicate size 1) List.length_replicate
  refine storeOver_zeros_ne_ones (Nat.not_le.1 hshort) (hinj _ _ ?_ ?_ (hzeros.trans hones.symm))
  · rw [length_storeOver (by rw [List.length_replicate]; exact hlen), List.length_replicate]
  · rw [length_storeOver (by rw [List.length_replicate]; exact hlen), List.length_replicate]

/-- A prefix of a message that fills the field of one `read(2)`. -/
theorem whole_of_size_le (hpre : bytes <+: field)
    (hsize : field.length ≤ (bytes.take (min field.length limit)).length) :
    bytes = field ∧ field.length ≤ limit := by
  rw [List.length_take] at hsize
  exact ⟨hpre.eq_of_length_le (by omega), by omega⟩

end Field

/-! ## Functions whose reply is one value -/

section Values

variable {limits : Limits} {old field bytes : List Byte} {decode : List Byte → ℤ}

theorem valueReturn_eq {session : ℤ} (hold : old.length ≤ 8) :
    valueReturn limits session old bytes decode =
      ⟨decode (storeOver (bytes.take (min old.length limits.first)) old), [], session,
        bytes.drop (min old.length limits.first)⟩ := by
  rw [valueReturn, readVariable_eq hold]

theorem tfsUnmountReturn_eq {session : ℤ} {unlinked : Bool} (hold : old.length ≤ 8) :
    tfsUnmountReturn limits session old bytes unlinked =
      ⟨if unlinked then bytesInt (storeOver (bytes.take (min old.length limits.first)) old) else -1,
        [], -1, bytes.drop (min old.length limits.first)⟩ := by
  rw [tfsUnmountReturn, readVariable_eq hold]

/-- A value is returned as it was sent exactly if it is delivered whole. -/
theorem valueReturn_iff (session : ℤ) (hfield : field.length ≤ 8)
    (hinj : ∀ as bs : List Byte, as.length = field.length → bs.length = field.length →
      decode as = decode bs → as = bs)
    (hpre : bytes <+: field) :
    (∀ old : List Byte, old.length = field.length →
      (bytes = field → (valueReturn limits session old bytes decode).value = decode field) ∧
      (bytes ≠ field → (valueReturn limits session old bytes decode).value = -1)) ↔
      bytes = field ∧ field.length ≤ limits.first := by
  constructor
  · intro h
    apply whole_of_size_le hpre
    -- In both cases the value is the same for every content of the variable.
    have hdetermined : ∀ old : List Byte, old.length = field.length →
        decode (storeOver (bytes.take (min field.length limits.first)) old) =
          if bytes = field then decode field else -1 := by
      intro old hold
      have hvalue := h old hold
      rw [valueReturn_eq (by omega), hold] at hvalue
      by_cases hwhole : bytes = field
      · rw [if_pos hwhole]
        exact hvalue.1 hwhole
      · rw [if_neg hwhole]
        exact hvalue.2 hwhole
    refine size_le_of_determined hinj ?_ hdetermined
    rw [List.length_take]
    omega
  · rintro ⟨rfl, hlimit⟩ old hold
    refine ⟨fun _ => ?_, fun hne => absurd rfl hne⟩
    rw [valueReturn_eq (by omega), hold, Nat.min_eq_left hlimit, List.take_length,
      storeOver_of_length (by omega)]

end Values

/-! ## The reply to a mount -/

section Mount

variable {z session : ℤ} {limits : Limits} {bytes : List Byte} {k : ℕ}

/-- The bytes of a session id: above the first they only show its sign. -/
theorem intBytes_clientSession (h : IsClientSession z) :
    intBytes z = (if z = -1 then 255 else UInt8.ofNat z.toNat) ::
      List.replicate 3 (if z = -1 then 255 else 0) := by
  have hsessions : ((maxSessionsAmount : ℕ) : ℤ) = 20 := rfl
  rcases h with ⟨hlo, hhi⟩
  rw [hsessions] at hhi
  by_cases hz : z = -1
  · subst hz
    decide
  · have hmod : (z % 2 ^ 32).toNat = z.toNat := by omega
    have hsmall : z.toNat / 256 = 0 := by omega
    rw [intBytes, hmod]
    simp [leBytes, hsmall, hz, List.replicate]

theorem drop_intBytes (h : IsClientSession z) (hk : 0 < k) :
    (intBytes z).drop k = List.replicate (4 - k) (if z = -1 then 255 else 0) := by
  obtain ⟨k, rfl⟩ : ∃ j, k = j + 1 := ⟨k - 1, by omega⟩
  rw [intBytes_clientSession h, List.drop_succ_cons, List.drop_replicate]
  congr 1
  omega

/-- The first byte tells a session id from -1. -/
theorem head_intBytes (h : IsClientSession z) : (intBytes z).head? = some 255 ↔ z = -1 := by
  have hsessions : ((maxSessionsAmount : ℕ) : ℤ) = 20 := rfl
  rcases h with ⟨hlo, hhi⟩
  rw [hsessions] at hhi
  rw [intBytes_clientSession ⟨hlo, by rw [hsessions]; exact hhi⟩, List.head?_cons]
  by_cases hz : z = -1
  · simp [hz]
  · rw [if_neg hz]
    constructor
    · intro hbyte
      have hnat := congrArg UInt8.toNat (Option.some.inj hbyte)
      simp only [UInt8.toNat_ofNat'] at hnat
      have h255 : (255 : UInt8).toNat = 255 := rfl
      omega
    · intro hz'
      exact absurd hz' hz

theorem intBytes_error : intBytes (-1) = List.replicate 4 255 := by
  decide

theorem tfsMountReturn_eq :
    tfsMountReturn limits session bytes =
      let v := storeOver (bytes.take (min 4 limits.first)) (intBytes session)
      ⟨if bytesInt v = -1 then -1 else 0, [], bytesInt v, bytes.drop (min 4 limits.first)⟩ := by
  rw [tfsMountReturn, readVariable_eq (by rw [length_intBytes]; omega), length_intBytes]

/-- A whole reply gives the session id that was sent, if it is delivered at once, or if the old id
has the same sign. -/
theorem mount_whole_iff (hz : IsClientSession z) (hsession : IsClientSession session) (hk : 0 < k)
    (hk4 : k ≤ 4) :
    bytesInt (storeOver ((intBytes z).take k) (intBytes session)) = z ↔
      k = 4 ∨ (z = -1 ↔ session = -1) := by
  have hgot : ((intBytes z).take k).length = k := by
    rw [List.length_take, length_intBytes]
    omega
  have hlen : (storeOver ((intBytes z).take k) (intBytes session)).length = 4 := by
    rw [length_storeOver (by rw [hgot, length_intBytes]; exact hk4), length_intBytes]
  have hvalue : bytesInt (intBytes z) = z :=
    bytesInt_intBytes_of_range hz.isInt.1 hz.isInt.2
  -- the bytes that were not read over must be those of the reply: all 255, or all 0
  calc
    bytesInt (storeOver ((intBytes z).take k) (intBytes session)) = z
        ↔ storeOver ((intBytes z).take k) (intBytes session) = intBytes z := by
          rw [← bytesInt_inj hlen (length_intBytes z), hvalue]
    _ ↔ (intBytes session).drop k = (intBytes z).drop k := by
          rw [storeOver, hgot]
          constructor
          · intro h
            exact List.append_cancel_left (h.trans (List.take_append_drop k (intBytes z)).symm)
          · intro h
            rw [h, List.take_append_drop]
    _ ↔ k = 4 ∨ (z = -1 ↔ session = -1) := by
          rw [drop_intBytes hsession hk, drop_intBytes hz hk, List.replicate_inj]
          have hbytes : ((if session = -1 then 255 else 0 : Byte) = if z = -1 then 255 else 0) ↔
              (z = -1 ↔ session = -1) := by
            by_cases h1 : session = -1 <;> by_cases h2 : z = -1 <;> simp [h1, h2]
          rw [hbytes]
          constructor
          · rintro ⟨_, hk0 | hsign⟩
            · exact Or.inl (by omega)
            · exact Or.inr hsign
          · rintro (rfl | hsign)
            · exact ⟨rfl, Or.inl rfl⟩
            · exact ⟨rfl, Or.inr hsign⟩

/-- A reply that is cut leaves -1 only over an old -1. -/
theorem mount_cut_iff (hz : IsClientSession z) (hsession : IsClientSession session)
    {got : List Byte} (hpre : got <+: intBytes z) (hcut : got.length < 4) :
    bytesInt (storeOver got (intBytes session)) = -1 ↔ session = -1 ∧ (got = [] ∨ z = -1) := by
  have hlen : (storeOver got (intBytes session)).length = 4 := by
    rw [length_storeOver (by rw [length_intBytes]; omega), length_intBytes]
  have herror : bytesInt (intBytes (-1)) = -1 := by decide
  -- -1 is four bytes 255
  have hall : bytesInt (storeOver got (intBytes session)) = -1 ↔
      storeOver got (intBytes session) = List.replicate 4 255 := by
    rw [← intBytes_error, ← bytesInt_inj hlen (length_intBytes _), herror]
  rw [hall]
  rcases got with _ | ⟨b, got⟩
  · -- no byte arrived: the old id is returned
    rw [storeOver_nil, ← intBytes_error, ← bytesInt_inj (length_intBytes _) (length_intBytes _),
      herror, bytesInt_intBytes_of_range hsession.isInt.1 hsession.isInt.2]
    simp
  · -- the first byte of a reply is 255 only if the reply is -1
    have hhead : (intBytes z).head? = some b := by
      rcases hpre with ⟨rest, hrest⟩
      rw [← hrest]
      rfl
    have hpos : 0 < (b :: got).length := Nat.succ_pos _
    have hrest : 4 - (b :: got).length ≠ 0 := by omega
    rw [storeOver, List.append_eq_replicate_iff, drop_intBytes hsession hpos]
    constructor
    · rintro ⟨_, hgot, hold⟩
      constructor
      · rw [List.length_replicate, List.replicate_inj] at hold
        rcases hold with ⟨_, hzero | hsign⟩
        · exact absurd hzero hrest
        · by_contra hne
          rw [if_neg hne] at hsign
          exact absurd hsign (by decide)
      · right
        rw [← head_intBytes hz, hhead]
        have hb : b = 255 := by
          rw [List.length_cons, List.replicate_succ, List.cons.injEq] at hgot
          exact hgot.1
        rw [hb]
    · rintro ⟨rfl, hnil | rfl⟩
      · exact absurd hnil (List.cons_ne_nil _ _)
      · refine ⟨by rw [List.length_replicate]; omega, ?_, ?_⟩
        · rcases hpre with ⟨rest, hrest⟩
          rw [intBytes_error, List.append_eq_replicate_iff] at hrest
          exact hrest.2.1
        · rw [if_pos rfl, List.length_replicate]

end Mount

/-! ## The reply to a read -/

section Read

variable {limits : Limits} {n : ℤ} {old got bytes data : List Byte}

/-- The variable after the first `read(2)`. -/
def readSizeAfter (limits : Limits) (old bytes : List Byte) : ℤ :=
  bytesLong (storeOver (bytes.take (min 8 limits.first)) old)

theorem tfsReadReturn_eq (session : ℤ) (hold : old.length = 8) (hn : 0 ≤ n)
    (hsize : readSizeAfter limits old bytes = n) :
    tfsReadReturn limits session old bytes =
      ⟨n, (bytes.drop (min 8 limits.first)).take (min n.toNat limits.second), session,
        (bytes.drop (min 8 limits.first)).drop (min n.toNat limits.second)⟩ := by
  have hlt : n < 2 ^ 63 := by
    rw [← hsize]
    exact castLong_lt _
  have hcount : sizeofChars n = n.toNat := by
    unfold sizeofChars
    omega
  unfold readSizeAfter at hsize
  rw [tfsReadReturn, readVariable_eq (by omega), hold]
  simp only [hsize, hcount]
  rw [readClient, if_neg (by omega)]

/-- With -1 as its count the second `read(2)` fails. -/
theorem tfsReadReturn_error (session : ℤ) (hold : old.length = 8)
    (hsize : readSizeAfter limits old bytes = -1) :
    (tfsReadReturn limits session old bytes).value = -1 ∧
      (tfsReadReturn limits session old bytes).data = [] := by
  have hcount : sizeofChars (-1) = 2 ^ 64 - 1 := by decide
  unfold readSizeAfter at hsize
  rw [tfsReadReturn, readVariable_eq (by omega), hold]
  simp only [hsize, hcount]
  rw [readClient, if_pos (by omega)]
  exact ⟨rfl, rfl⟩

/-- A short first `read(2)` can leave a size that was not sent. -/
theorem exists_wrongSize (hshort : got.length < 8) (v : ℤ) :
    ∃ old : List Byte, old.length = 8 ∧ 0 ≤ bytesLong (storeOver got old) ∧
      bytesLong (storeOver got old) ≠ v := by
  have hlen : ∀ b : Byte, (storeOver got (List.replicate 8 b)).length = 8 := by
    intro b
    rw [length_storeOver (by rw [List.length_replicate]; omega), List.length_replicate]
  have hpos : ∀ b : Byte, b.toNat ≤ 1 → 0 ≤ bytesLong (storeOver got (List.replicate 8 b)) := by
    intro b hb
    -- The top byte is `b`, so the sign bit is not set.
    have hsplit : storeOver got (List.replicate 8 b) =
        (got ++ List.replicate (7 - got.length) b) ++ [b] := by
      rw [storeOver, List.drop_replicate, List.append_assoc, ← List.replicate_succ']
      congr 2
      omega
    have hlow := leNat_lt (got ++ List.replicate (7 - got.length) b)
    have hseven : (got ++ List.replicate (7 - got.length) b).length = 7 := by
      rw [List.length_append, List.length_replicate]
      omega
    rw [hseven] at hlow
    rw [bytesLong, hsplit, leNat_append, hseven]
    simp only [leNat, Nat.mul_zero, Nat.add_zero]
    rw [castLong_of_range] <;> omega
  by_cases hzero : bytesLong (storeOver got (List.replicate 8 0)) = v
  · refine ⟨List.replicate 8 1, List.length_replicate, hpos 1 (by decide), ?_⟩
    intro hone
    exact storeOver_zeros_ne_ones hshort
      ((bytesLong_inj (hlen 0) (hlen 1)).1 (hzero.trans hone.symm))
  · exact ⟨List.replicate 8 0, List.length_replicate, hpos 0 (by decide), hzero⟩

/-- What the law says of one content of the variable of a read. -/
def ReadLaw (limits : Limits) (session n : ℤ) (data bytes old : List Byte) : Prop :=
  (bytes = longBytes n ++ data →
    (tfsReadReturn limits session old bytes).value = n ∧
      (tfsReadReturn limits session old bytes).data = data) ∧
  (bytes ≠ longBytes n ++ data → (tfsReadReturn limits session old bytes).value = -1)

/-- The bytes of the size are delivered at once. -/
theorem ReadLaw.first {session : ℤ}
    (h : ∀ old : List Byte, old.length = 8 → ReadLaw limits session n data bytes old) :
    8 ≤ (bytes.take (min 8 limits.first)).length := by
  by_contra hshort
  rcases exists_wrongSize (Nat.not_le.1 hshort) n with ⟨old, hold, hpos, hne⟩
  have hreturn := tfsReadReturn_eq session hold hpos rfl
  rcases h old hold with ⟨hwhole, hcut⟩
  rw [hreturn] at hwhole hcut
  by_cases hbytes : bytes = longBytes n ++ data
  · exact hne (hwhole hbytes).1
  · have hminus := hcut hbytes
    simp only at hminus
    omega

/-- The result of a read is returned as it was sent, with its bytes, exactly if each part is
delivered at once. -/
theorem tfsReadReturn_iff (session : ℤ)
    (htyped : (n = -1 ∧ data = []) ∨ (n = data.length ∧ data.length < 2 ^ 63))
    (hpre : bytes <+: longBytes n ++ data) :
    (∀ old : List Byte, old.length = 8 → ReadLaw limits session n data bytes old) ↔
      bytes = longBytes n ++ data ∧ 8 ≤ limits.first ∧ data.length ≤ limits.second := by
  have hn : bytesLong (longBytes n) = n := by
    rcases htyped with ⟨rfl, _⟩ | ⟨hn, hlt⟩
    · decide
    · exact bytesLong_longBytes_of_range (by omega) (by omega)
  have hsize : ∀ old : List Byte, old.length = 8 → 8 ≤ limits.first →
      bytes.take 8 = longBytes n → readSizeAfter limits old bytes = n := by
    intro old hold hfirst htake
    rw [readSizeAfter, Nat.min_eq_left hfirst, htake,
      storeOver_of_length (by rw [length_longBytes]; omega), hn]
  constructor
  · intro h
    -- the size must have arrived whole, since the variable may have held anything
    have hfirst := ReadLaw.first h
    rw [List.length_take] at hfirst
    have htake : bytes.take 8 = longBytes n := by
      rcases hpre with ⟨rest, hrest⟩
      have hfront : (bytes ++ rest).take 8 = bytes.take 8 :=
        List.take_append_of_le_length (by omega)
      rw [← hfront, hrest, List.take_left' (length_longBytes n)]
    have hzero : (List.replicate 8 (0 : Byte)).length = 8 := List.length_replicate
    rcases h _ hzero with ⟨hwhole, hcut⟩
    have hsent := hsize _ hzero (by omega) htake
    rcases htyped with ⟨rfl, rfl⟩ | ⟨rfl, hlt⟩
    · -- the error value: nothing follows it
      refine ⟨?_, by omega, Nat.zero_le _⟩
      refine hpre.eq_of_length_le ?_
      rw [List.append_nil, length_longBytes]
      omega
    · -- a number of bytes: it is returned even if fewer followed
      have hreturn := tfsReadReturn_eq session hzero (by omega) hsent
      rw [hreturn] at hwhole hcut
      by_cases hbytes : bytes = longBytes data.length ++ data
      · refine ⟨hbytes, by omega, ?_⟩
        have hdata := congrArg List.length (hwhole hbytes).2
        rw [List.length_take] at hdata
        omega
      · have hminus := hcut hbytes
        simp only at hminus
        omega
  · rintro ⟨rfl, hfirst, hsecond⟩ old hold
    refine ⟨fun _ => ?_, fun hne => absurd rfl hne⟩
    have hsent := hsize old hold hfirst (List.take_left' (length_longBytes n))
    rcases htyped with ⟨rfl, rfl⟩ | ⟨rfl, hlt⟩
    · exact tfsReadReturn_error session hold hsent
    · rw [tfsReadReturn_eq session hold (by omega) hsent, Nat.min_eq_left hfirst,
        List.drop_left' (length_longBytes _), Int.toNat_natCast, Nat.min_eq_left hsecond,
        List.take_length]
      exact ⟨rfl, rfl⟩

end Read

/-! ## The seven functions -/

section Functions

variable {r : ServerReply} {a : Arrival r} {c : Client}

theorem inventsNothing_value {decode : List Byte → ℤ} (hdata : r.data = [])
    (hmount : ∀ z, r ≠ .mount z) (hsize : r.returnSize ≤ 8)
    (hinj : ∀ as bs : List Byte, as.length = r.returnSize → bs.length = r.returnSize →
      decode as = decode bs → as = bs)
    (hvalue : decode r.field = r.value)
    (hreturned : ∀ old : List Byte, old.length = r.returnSize →
      (r.returned a.limits c old a.bytes).value =
          (valueReturn a.limits c.session old a.bytes decode).value ∧
        (r.returned a.limits c old a.bytes).data = []) :
    InventsNothing a c ↔ a.bytes = r.message ∧ r.returnSize ≤ a.limits.first := by
  have hmessage : r.message = r.field := by
    rw [ServerReply.message, hdata, List.append_nil]
  -- what arrives is a part of the one field that the reply has
  have hsent : a.bytes <+: r.field := by
    rw [← hmessage]
    exact a.sent
  rw [← r.length_field] at hsize hinj hreturned ⊢
  rw [hmessage, ← valueReturn_iff c.session hsize hinj hsent, InventsNothing, hmessage,
    ← r.length_field]
  constructor
  · intro h old hold
    rcases h old hold with ⟨hwhole, hcut⟩
    rw [(hreturned old hold).1] at hwhole hcut
    exact ⟨fun hbytes => (hwhole hbytes).1.trans hvalue.symm, hcut⟩
  · intro h old hold
    rcases h old hold with ⟨hwhole, hcut⟩
    rw [(hreturned old hold).1, (hreturned old hold).2]
    exact ⟨fun hbytes => ⟨(hwhole hbytes).trans hvalue, hdata.symm, fun z hz => absurd hz (hmount z)⟩,
      hcut⟩

/-- A reply that is one `int`. -/
theorem inventsNothing_int {z : ℤ} (hz : IsInt z) (hfield : r.field = intBytes z)
    (hvalue : r.value = z) (hdata : r.data = []) (hmount : ∀ z, r ≠ .mount z)
    (hreturned : ∀ old : List Byte, old.length = r.returnSize →
      (r.returned a.limits c old a.bytes).value =
          (valueReturn a.limits c.session old a.bytes bytesInt).value ∧
        (r.returned a.limits c old a.bytes).data = []) :
    InventsNothing a c ↔ a.bytes = r.message ∧ r.returnSize ≤ a.limits.first := by
  have hsize : r.returnSize = 4 := by
    rw [← r.length_field, hfield, length_intBytes]
  refine inventsNothing_value hdata hmount (by omega) ?_ ?_ hreturned
  · intro as bs has hbs h
    exact (bytesInt_inj (by omega) (by omega)).1 h
  · rw [hfield, hvalue, bytesInt_intBytes_of_range hz.1 hz.2]

theorem inventsNothing_unmount {a : Arrival .unmount} :
    InventsNothing a c ↔ ServerReply.unmount.Delivered a.bytes a.limits c := by
  have hsize : ServerReply.unmount.returnSize = 4 := rfl
  unfold ServerReply.Delivered
  by_cases hunlinked : c.unlinked = true
  · rw [if_pos hunlinked]
    refine inventsNothing_int (z := 0) (by decide) rfl rfl rfl (fun z hz => by cases hz) ?_
    intro old hold
    rw [ServerReply.returned, tfsUnmountReturn_eq (by omega), valueReturn_eq (by omega),
      if_pos hunlinked]
    exact ⟨rfl, rfl⟩
  · -- The pipe cannot be removed: the function returns -1, but the server always sends 0.
    rw [if_neg hunlinked]
    have hminus : ∀ old : List Byte, old.length = 4 →
        (ServerReply.unmount.returned a.limits c old a.bytes).value = -1 := by
      intro old hold
      rw [ServerReply.returned, tfsUnmountReturn_eq (by omega), if_neg hunlinked]
    constructor
    · intro h hwhole
      have hzero := ((h (intBytes 0) rfl).1 hwhole).1
      rw [hminus _ (length_intBytes 0)] at hzero
      exact absurd hzero (by decide)
    · intro hcut old hold
      exact ⟨fun hwhole => absurd hwhole hcut, fun _ => hminus old (by omega)⟩

theorem inventsNothing_mount {z : ℤ} {a : Arrival (.mount z)} :
    InventsNothing a c ↔ (ServerReply.mount z).Delivered a.bytes a.limits c := by
  have hz : IsClientSession z := a.typed
  have hsession := c.isSession
  have hmessage : (ServerReply.mount z).message = intBytes z := List.append_nil _
  have hsent : a.bytes <+: intBytes z := by
    rw [← hmessage]
    exact a.sent
  have hfirst := a.limits.first_pos
  have hsize : (ServerReply.mount z).returnSize = 4 := rfl
  -- The law is one condition on the new `session_id`, since no other variable is read.
  have hlaw : InventsNothing a c ↔
      (a.bytes = intBytes z →
        bytesInt (storeOver (a.bytes.take (min 4 a.limits.first)) (intBytes c.session)) = z) ∧
      (a.bytes ≠ intBytes z →
        bytesInt (storeOver (a.bytes.take (min 4 a.limits.first)) (intBytes c.session)) = -1) := by
    rw [InventsNothing, hmessage]
    simp only [ServerReply.returned, tfsMountReturn_eq]
    constructor
    · intro h
      rcases h (intBytes 0) rfl with ⟨hwhole, hcut⟩
      refine ⟨fun hbytes => (hwhole hbytes).2.2 z rfl, fun hbytes => ?_⟩
      by_contra hne
      have hminus := hcut hbytes
      rw [if_neg hne] at hminus
      exact absurd hminus (by decide)
    · rintro ⟨hwhole, hcut⟩ old _
      refine ⟨fun hbytes => ?_, fun hbytes => by rw [if_pos (hcut hbytes)]⟩
      rw [hwhole hbytes]
      exact ⟨rfl, rfl, fun z' hz' => ServerReply.mount.inj hz'⟩
  rw [hlaw, ServerReply.Delivered, hmessage, hsize]
  by_cases hbytes : a.bytes = intBytes z
  · rw [hbytes]
    have hk : min 4 a.limits.first = 4 ↔ 4 ≤ a.limits.first := by omega
    rw [mount_whole_iff hz hsession (by omega) (by omega), hk]
    simp
  · -- A proper prefix has three bytes at most.
    have hshort : a.bytes.length < 4 := by
      by_contra hlong
      exact hbytes (hsent.eq_of_length_le (by rw [length_intBytes]; omega))
    have hgot : (a.bytes.take (min 4 a.limits.first)).length < 4 := by
      rw [List.length_take]
      omega
    have hnil : a.bytes.take (min 4 a.limits.first) = [] ↔ a.bytes = [] := by
      rw [List.take_eq_nil_iff]
      constructor
      · rintro (hzero | hnil)
        · omega
        · exact hnil
      · exact Or.inr
    rw [mount_cut_iff hz hsession ((List.take_prefix _ _).trans hsent) hgot, hnil]
    simp [hbytes]

theorem inventsNothing_read {n : ℤ} {data : List Byte} {a : Arrival (.read n data)} :
    InventsNothing a c ↔ (ServerReply.read n data).Delivered a.bytes a.limits c := by
  have hsize : (ServerReply.read n data).returnSize = 8 := rfl
  have hmessage : (ServerReply.read n data).message = longBytes n ++ data := rfl
  unfold ServerReply.Delivered
  simp only [hsize, hmessage]
  rw [← tfsReadReturn_iff c.session a.typed a.sent]
  constructor
  · intro h old hold
    rcases h old hold with ⟨hwhole, hcut⟩
    exact ⟨fun hbytes => ⟨(hwhole hbytes).1, (hwhole hbytes).2.1⟩, hcut⟩
  · intro h old hold
    rcases h old hold with ⟨hwhole, hcut⟩
    exact ⟨fun hbytes => ⟨(hwhole hbytes).1, (hwhole hbytes).2, fun z hz => by cases hz⟩, hcut⟩

end Functions

/-- A client function returns what the server sent, and -1 for anything else, exactly if the reply
is delivered whole and field by field, but for the chance agreement of a mount. -/
theorem client_inventsNothing_iff {r : ServerReply} (a : Arrival r) (c : Client) :
    InventsNothing a c ↔ r.Delivered a.bytes a.limits c := by
  -- The functions whose reply is one `int` differ in nothing but the value.
  have hreturned : ∀ (session : ℤ) (decode : List Byte → ℤ) (size : ℕ), size ≤ 8 →
      ∀ old : List Byte, old.length = size →
        (valueReturn a.limits session old a.bytes decode).data = [] := by
    intro session decode size hsize old hold
    rw [valueReturn_eq (by omega)]
  cases r with
  | mount z => exact inventsNothing_mount
  | unmount => exact inventsNothing_unmount
  | «open» fhandle =>
      exact inventsNothing_int a.typed rfl rfl rfl (fun z hz => by cases hz)
        fun old hold => ⟨rfl, hreturned _ _ 4 (by omega) old hold⟩
  | close returnValue =>
      exact inventsNothing_int a.typed rfl rfl rfl (fun z hz => by cases hz)
        fun old hold => ⟨rfl, hreturned _ _ 4 (by omega) old hold⟩
  | write returnLen =>
      refine inventsNothing_value rfl (fun z hz => by cases hz) le_rfl ?_ ?_
        fun old hold => ⟨rfl, hreturned _ _ 8 (by omega) old hold⟩
      · intro as bs has hbs h
        exact (bytesLong_inj has hbs).1 h
      · exact bytesLong_longBytes_of_range a.typed.1 a.typed.2
  | read n data => exact inventsNothing_read
  | shutdownAfterAllClosed returnValue =>
      exact inventsNothing_int a.typed rfl rfl rfl (fun z hz => by cases hz)
        fun old hold => ⟨rfl, hreturned _ _ 4 (by omega) old hold⟩

/-- An open whose server exits before it answers. -/
def unanswered : Arrival (.open 3) where
  typed := show IsInt 3 by decide
  bytes := []
  sent := List.nil_prefix
  limits := .ample []

/-- The open returns whatever its variable held. -/
theorem endOfFile_invents_handle :
    ¬ ∀ (r : ServerReply) (a : Arrival r) (c : Client), InventsNothing a c := by
  intro h
  have hlaw := h _ unanswered ⟨0, by decide, true⟩ (intBytes 7) rfl
  exact absurd (hlaw.2 (by decide)) (by decide)

end Wire
end TecnicoFs
