import TecnicoFs.Sessions.ByteLevel
import TecnicoFs.Sessions.Progress
import TecnicoFs.Wire.ReadReplies

/-!
# Answers — from the worker's reply to the caller's result

The bytes that a worker writes for a reply are read by the client function of the request as the result
that the reply stands for, and no byte is left in the pipe. The values have to fit the fields: a handle
or a state is an `int`, a count a `ssize_t`, and the bytes of a read are as many as its value says. The
replies of the library are of this kind.
-/

namespace TecnicoFs
namespace Sessions

open Lib Wire

universe u

/-! ## Replies that fit their fields -/

/-- The value of a reply fits its field in the answer to the request. -/
def Ranged : Request CString → Reply (Option Server.Reply) → Prop
  | .mount _, .mount z => IsInt z
  | .unmount _, .unmount z => IsInt z
  | .open _ _ _, .library (some r) => IsInt r.ret ∧ r.data = []
  | .close _ _, .library (some r) => IsInt r.ret ∧ r.data = []
  | .write _ _ _ _, .library (some r) => -2 ^ 63 ≤ r.ret ∧ r.ret < 2 ^ 63 ∧ r.data = []
  | .read _ _ len, .library (some r) =>
      r.ret = -1 ∨ (r.ret = r.data.length ∧ r.data.length ≤ len ∧ r.data.length ≤ fsDataSize)
  | _, _ => True

/-- `message` is the answer to the request with this reply. -/
def Transmits (u : Unset) (r : Request CString) (reply : Reply (Option Server.Reply))
    (message : List Byte) : Prop :=
  replyBytes u r reply = some message ∧ Ranged r reply

/-- The `session_id` of a client after it has read a reply. -/
def sessionAfter (session : ℤ) : Reply (Option Server.Reply) → ℤ
  | .mount z => z
  | .unmount _ => -1
  | .library _ => session

section Decoding

variable {u : Unset} {r : Request NameField} {reply : Reply (Option Server.Reply)}
variable {message : List Byte}

theorem readVariable_message {old message : List Byte} (h : old.length ≤ 8)
    (hlen : message.length = old.length) :
    readVariable (Limits.ample message).first old message = some (message, []) := by
  have hlimit : old.length ≤ (Limits.ample message).first := by
    simp only [Limits.ample]
    omega
  have hwhole : readVariable (Limits.ample message).first old (message ++ []) = some (message, []) :=
    readVariable_whole h hlen hlimit
  rwa [List.append_nil] at hwhole

theorem valueReturn_message {decode : List Byte → ℤ} (session : ℤ) {old message : List Byte}
    (h : old.length ≤ 8) (hlen : message.length = old.length) :
    valueReturn (.ample message) session old message decode = ⟨decode message, [], session, []⟩ := by
  rw [valueReturn, readVariable_message h hlen]

theorem bytesInt_of_isInt {z : ℤ} (h : IsInt z) : bytesInt (intBytes z) = z :=
  bytesInt_intBytes_of_range h.1 h.2

/-- The client function returns what the reply stands for, and reads the whole answer. -/
theorem Transmits.clientReturn (h : Transmits u (r.map fieldName) reply message) (session : ℤ) :
    clientReturn u r session message =
      ⟨(resultOf reply).1, (resultOf reply).2, sessionAfter session reply, []⟩ := by
  rcases h with ⟨hbytes, hranged⟩
  have hint : ∀ z, (intBytes z).length = (u.bytes 4).length := fun z => by
    rw [length_intBytes, u.length]
  have hlong : ∀ z, (longBytes z).length = (u.bytes 8).length := fun z => by
    rw [length_longBytes, u.length]
  have hfour : (u.bytes 4).length ≤ 8 := by rw [u.length]; omega
  have height : (u.bytes 8).length ≤ 8 := by rw [u.length]
  cases r with
  | mount f =>
      rcases reply with z | z | x
      · rcases Option.some.inj hbytes with rfl
        have hfield : readVariable (Limits.ample (intBytes z)).first (intBytes session)
            (intBytes z) = some (intBytes z, []) :=
          readVariable_message (by rw [length_intBytes]; omega)
            (by rw [length_intBytes, length_intBytes])
        change tfsMountReturn _ _ _ = _
        rw [tfsMountReturn, hfield]
        dsimp only
        rw [bytesInt_of_isInt hranged]
        rfl
      · cases hbytes
      · cases hbytes
  | unmount s =>
      rcases reply with z | z | x
      · cases hbytes
      · rcases Option.some.inj hbytes with rfl
        change tfsUnmountReturn _ _ _ _ _ = _
        rw [tfsUnmountReturn, readVariable_message hfour (hint z)]
        dsimp only
        rw [if_pos rfl, bytesInt_of_isInt hranged]
        rfl
      · cases hbytes
  | «open» s f flags =>
      rcases reply with z | z | _ | x
      · cases hbytes
      · cases hbytes
      · cases hbytes
      · rcases Option.some.inj hbytes with rfl
        change valueReturn _ _ _ _ _ = _
        rw [valueReturn_message session hfour (hint _), bytesInt_of_isInt hranged.1]
        exact congrArg (fun d => Returned.mk x.ret d session []) hranged.2.symm
  | close s fhandle =>
      rcases reply with z | z | _ | x
      · cases hbytes
      · cases hbytes
      · cases hbytes
      · rcases Option.some.inj hbytes with rfl
        change valueReturn _ _ _ _ _ = _
        rw [valueReturn_message session hfour (hint _), bytesInt_of_isInt hranged.1]
        exact congrArg (fun d => Returned.mk x.ret d session []) hranged.2.symm
  | write s fhandle len buffer =>
      rcases reply with z | z | _ | x
      · cases hbytes
      · cases hbytes
      · cases hbytes
      · rcases Option.some.inj hbytes with rfl
        change valueReturn _ _ _ _ _ = _
        rw [valueReturn_message session height (hlong _),
          bytesLong_longBytes_of_range hranged.1 hranged.2.1]
        exact congrArg (fun d => Returned.mk x.ret d session []) hranged.2.2.symm
  | read s fhandle len =>
      rcases reply with z | z | _ | x
      · cases hbytes
      · cases hbytes
      · cases hbytes
      · -- the error value has no answer, so the value is the number of bytes
        have hwrite : writeRead x.ret (storeOver x.data (u.bytes len)) = some message := hbytes
        rcases hranged with herror | ⟨hret, hlen, hblock⟩
        · rw [herror, writeRead_error] at hwrite
          cases hwrite
        · have hfits : x.data.length ≤ (u.bytes len).length := by rw [u.length]; exact hlen
          have hsize : fsDataSize = 1048576 := rfl
          rw [hret, writeRead_natCast (by rw [length_storeOver hfits]; exact hfits)
            (by simp only [tfsLenSize]; omega), take_storeOver] at hwrite
          rcases Option.some.inj hwrite with rfl
          have hmessage := tfsReadReturn_whole session
            (Limits.ample (longBytes x.data.length ++ x.data)) x.data [] (u.length 8) hblock
            (by simp only [Limits.ample, List.length_append, length_longBytes]; omega)
            (by simp only [Limits.ample, List.length_append]; omega)
          simp only [List.append_nil] at hmessage
          change tfsReadReturn _ _ _ _ = _
          rw [hmessage]
          exact congrArg (fun z => Returned.mk z x.data session []) hret.symm
  | shutdownAfterAllClosed s => cases reply <;> cases hbytes

end Decoding

/-! ## The library's replies -/

/-- Every reply of the file system fits the field of its request. -/
def RangedExec {σ : Type u} (exec : Operation → σ → Option Server.Reply × σ) : Prop :=
  ∀ r op lib, operation r = some op → Ranged r (.library (exec op lib).1)

theorem isInt_of_small {z : ℤ} (hlo : -1 ≤ z) (hhi : z < 20) : IsInt z := by
  constructor <;> omega

section Library

variable {s t : Server.State} {z : ℤ}

theorem addToOpenFileTable_range (inumber : ℤ) (offset : ℕ) (s : Server.State) :
    IsInt (Server.addToOpenFileTable inumber offset s).1 := by
  rcases Server.addToOpenFileTable_cases inumber offset s with ⟨h, hlt, _, _, heq⟩ | ⟨_, heq⟩
  · rw [heq]
    exact isInt_of_small (by dsimp only; omega) (by dsimp only; omega)
  · rw [heq]
    exact isInt_of_small (by dsimp only; omega) (by dsimp only; omega)

theorem isInt_error : IsInt (-1) :=
  isInt_of_small (by omega) (by omega)

theorem openExisting_range (inum flags : ℤ) (s : Server.State) :
    IsInt (Server.openExisting inum flags s).1 := by
  unfold Server.openExisting Server.truncateFile
  split
  · exact isInt_error
  · dsimp only
    split_ifs
    all_goals first | exact isInt_error | exact addToOpenFileTable_range _ _ _

theorem openCreate_range {name : Path} (h : Server.openCreate name s = some (z, t)) : IsInt z := by
  unfold Server.openCreate at h
  dsimp only at h
  split_ifs at h with hfull
  · rcases Prod.mk.inj (Option.some.inj h) with ⟨rfl, _⟩
    exact isInt_error
  · split at h
    · cases h
    · rename_i added u hadd
      split_ifs at h
      · rcases Prod.mk.inj (Option.some.inj h) with ⟨rfl, _⟩
        exact isInt_error
      · have hrange := addToOpenFileTable_range (Server.inodeCreate .file s).1 0 u
        rw [Option.some.inj h] at hrange
        exact hrange

theorem tfsOpen_range {name : Path} {flags : ℤ} (h : Server.tfsOpen name flags s = some (z, t)) :
    IsInt z := by
  unfold Server.tfsOpen Server.tfsOpenUnsynchronized at h
  dsimp only at h
  split_ifs at h
  · rcases Prod.mk.inj (Option.some.inj h) with ⟨rfl, _⟩
    exact isInt_error
  · have hrange := openExisting_range (Server.tfsLookupUnsynchronized name s) flags s
    rw [Option.some.inj h] at hrange
    exact hrange
  · exact openCreate_range h
  · rcases Prod.mk.inj (Option.some.inj h) with ⟨rfl, _⟩
    exact isInt_error

theorem tfsClose_range (fhandle : ℤ) (s : Server.State) : IsInt (Server.tfsClose fhandle s).1 := by
  rcases Server.removeFromOpenFileTable_cases fhandle s with ⟨h, _, _, _, heq⟩ | ⟨_, heq⟩
  · rw [Server.tfsClose, heq]
    exact isInt_of_small (by dsimp only; omega) (by dsimp only; omega)
  · rw [Server.tfsClose, heq]
    exact isInt_error

theorem tfsWrite_range {fhandle : ℤ} {buffer : ℕ → Byte} {n : ℕ}
    (h : Server.tfsWriteUnsynchronized fhandle buffer n s = some (z, t)) :
    -2 ^ 63 ≤ z ∧ z < 2 ^ 63 := by
  rcases Server.tfsWriteUnsynchronized_cases h with ⟨_, rfl, _⟩ | ⟨k, _, _, ⟨_, rfl, _⟩ |
    ⟨i, _, _, ⟨_, rfl, _⟩ | ⟨_, _, rfl, _⟩ | ⟨b, _, _, _, hfit, rfl, _⟩⟩⟩ <;>
    constructor <;> omega

end Library

theorem rangedExec_serverExec : RangedExec serverExec := by
  intro r op lib hop
  rcases lib with _ | s
  · cases r <;> first | (cases hop; done) | (rcases Option.some.inj hop with rfl; trivial)
  · rcases hexec : Server.exec (libraryCall op) s with _ | ⟨reply, t⟩
    · have hnone : serverExec op (some s) = (none, none) := by rw [serverExec, hexec]
      rw [hnone]
      cases r <;> first | (cases hop; done) | trivial
    · have hsome : serverExec op (some s) = (some reply, some t) := by rw [serverExec, hexec]
      rw [hsome]
      cases r with
      | mount path => cases hop
      | unmount z => cases hop
      | shutdownAfterAllClosed z => cases hop
      | «open» z name flags =>
          rcases Option.some.inj hop with rfl
          rcases Option.map_eq_some_iff.1 hexec with ⟨⟨ret, t'⟩, hopen, heq⟩
          rcases Prod.mk.inj heq with ⟨rfl, _⟩
          exact ⟨tfsOpen_range hopen, rfl⟩
      | close z fhandle =>
          rcases Option.some.inj hop with rfl
          rcases Prod.mk.inj (Option.some.inj hexec) with ⟨rfl, _⟩
          exact ⟨tfsClose_range fhandle s, rfl⟩
      | write z fhandle len buffer =>
          rcases Option.some.inj hop with rfl
          rcases Option.map_eq_some_iff.1 hexec with ⟨⟨ret, t'⟩, hwrite, heq⟩
          rcases Prod.mk.inj heq with ⟨rfl, _⟩
          exact ⟨(tfsWrite_range hwrite).1, (tfsWrite_range hwrite).2, rfl⟩
      | read z fhandle len =>
          rcases Option.some.inj hop with rfl
          rcases Option.map_eq_some_iff.1 hexec with ⟨⟨ret, data, t'⟩, hread, heq⟩
          rcases Prod.mk.inj heq with ⟨rfl, _⟩
          rcases tfsRead_result hread with ⟨_, hret, hdata, hsize⟩ | ⟨_, hret, _⟩
          · right
            dsimp only
            rw [hdata]
            exact ⟨hret, readCount_le _ _ _, hsize⟩
          · exact Or.inl hret

end Sessions
end TecnicoFs
