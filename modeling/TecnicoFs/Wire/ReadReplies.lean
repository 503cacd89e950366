import Mathlib.Data.List.Forall2
import TecnicoFs.Server.Ownership
import TecnicoFs.Wire.Reply

/-!
# Read replies — the results of `tfs_read` on their way to the client

`write_read` sends the result of the file system's `tfs_read` and, after it, as many bytes as it
says; the client's `tfs_read` reads it the same way. The two sides agree on every number of bytes.
The error value has no message, and neither has a read whose buffer could not be allocated. A message
of at most `PIPE_BUF` bytes is in the client's pipe as a whole, so that `read(2)` holds nothing back;
a longer one, which takes a read that goes on behind its block, may be cut.
-/

namespace TecnicoFs
namespace Wire

open Lib Server

/-! ## Requests the file system accepts -/

/-- The handle and its i-node are in range, and so is the block, if there is anything to read. -/
def ReadAccepted (fhandle : ℤ) (len : ℕ) (s : State) : Prop :=
  let file := s.openFileTable fhandle.toNat
  let inode := s.inodeTable file.ofInumber.toNat
  validFileHandle fhandle ∧ validInumber file.ofInumber ∧
    (readCount inode.iSize file.ofOffset len = 0 ∨ validBlockNumber inode.iDataBlock)

instance (fhandle : ℤ) (len : ℕ) (s : State) : Decidable (ReadAccepted fhandle len s) :=
  inferInstanceAs (Decidable (_ ∧ _ ∧ _))

/-- The number of bytes that a read finds. -/
def bytesToRead (fhandle : ℤ) (len : ℕ) (s : State) : ℕ :=
  let file := s.openFileTable fhandle.toNat
  readCount (s.inodeTable file.ofInumber.toNat).iSize file.ofOffset len

theorem readCount_le (size offset len : ℕ) : readCount size offset len ≤ len := by
  unfold readCount
  split <;> omega

section Results

variable {fhandle ret : ℤ} {len : ℕ} {data : List Byte} {s t : State}

/-- A result is the number of bytes found, with the bytes, or the error value without any. -/
theorem tfsRead_result (h : tfsReadUnsynchronized fhandle len s = some (ret, data, t)) :
    (ReadAccepted fhandle len s ∧ ret = bytesToRead fhandle len s ∧
        data.length = bytesToRead fhandle len s ∧ bytesToRead fhandle len s ≤ fsDataSize) ∨
      (¬ ReadAccepted fhandle len s ∧ ret = -1 ∧ data = []) := by
  unfold ReadAccepted bytesToRead
  rcases tfsReadUnsynchronized_cases h with ⟨hrange, hret, hdata, _⟩ | ⟨k, hk, rfl, hcases⟩
  · -- the handle is out of range
    right
    refine ⟨?_, hret, hdata⟩
    rintro ⟨hhandle, _⟩
    exact hrange (validFileHandle_iff.1 hhandle)
  simp only [Int.toNat_natCast]
  rcases hcases with ⟨hnone, hret, hdata, _⟩ | ⟨i, hi, hinumber, hcases⟩
  · -- the entry of the handle holds no i-node number
    right
    refine ⟨?_, hret, hdata⟩
    rintro ⟨_, hnode, _⟩
    simp [inodeGet, hnode] at hnone
  simp only [hinumber, Int.toNat_natCast]
  have hvalid : validFileHandle k = true ∧ validInumber i = true :=
    ⟨validFileHandle_natCast.2 hk, validInumber_natCast.2 hi⟩
  rcases hcases with ⟨hzero, hret, hdata, _⟩ | ⟨hpos, hblock, hret, hdata, _⟩ |
    ⟨b, hb, hblock, hpos, hfit, hret, hdata, _⟩
  · -- nothing to read
    left
    refine ⟨⟨hvalid.1, hvalid.2, Or.inl hzero⟩, ?_, ?_, ?_⟩
    · simp [hret, hzero]
    · simp [hdata, hzero]
    · simp [hzero]
  · -- there is something to read, and no block
    right
    refine ⟨?_, hret, hdata⟩
    rintro ⟨_, _, hzero | hnumber⟩
    · omega
    · simp [dataBlockGet, hnumber] at hblock
  · left
    refine ⟨⟨hvalid.1, hvalid.2, Or.inr ?_⟩, hret, ?_, ?_⟩
    · rw [hblock]
      exact validBlockNumber_natCast.2 hb
    · rw [hdata, length_memread]
    · rw [fsDataSize_eq]
      omega

end Results

/-! ## The worker's side -/

/-- A read request that a worker has performed: the state it found, what `tfs_read` gave it, and
the two allocations of `write_read`: what `read_buffer` held before, and whether there was room for
`return_buffer`. -/
structure ReadAnswer where
  fhandle : ℤ
  len : ℕ
  before : State
  after : State
  ret : ℤ
  data : List Byte
  performed : tfsReadUnsynchronized fhandle len before = some (ret, data, after)
  readBuffer : Option (List Byte)
  size : ∀ bytes ∈ readBuffer, bytes.length = len
  returnBuffer : Bool

namespace ReadAnswer

def Accepted (a : ReadAnswer) : Prop :=
  ReadAccepted a.fhandle a.len a.before

/-- The number of bytes of the reply behind its length. -/
def count (a : ReadAnswer) : ℕ :=
  bytesToRead a.fhandle a.len a.before

/-- No byte is copied to or from `NULL`. -/
def Allocated (a : ReadAnswer) : Prop :=
  (a.readBuffer = none → a.count = 0) ∧ a.returnBuffer = true

/-- What the client should see. -/
def result (a : ReadAnswer) : ℤ × List Byte :=
  (a.ret, a.data)

/-- What `write_read` sends. `NULL` is a buffer without bytes. -/
def message (a : ReadAnswer) : Option (List Byte) :=
  if a.returnBuffer then
    match a.readBuffer with
    | none => writeRead a.ret []
    | some bytes => writeRead a.ret (storeOver a.data bytes)
  else
    none

/-- What the client's two `read(2)` calls may deliver: a short message is in the pipe as a whole. -/
def Delivers (a : ReadAnswer) (limits : Limits) : Prop :=
  tfsLenSize + a.count ≤ pipeBuf → tfsReadReturnSize ≤ limits.first ∧ a.count ≤ limits.second

variable {a : ReadAnswer}

/-- An accepted request whose buffers were allocated has a message: the number of bytes, and the
bytes. -/
theorem message_of_accepted (h : a.Accepted) (halloc : a.Allocated) :
    a.message = some (longBytes a.data.length ++ a.data) ∧ a.ret = a.data.length ∧
      a.data.length = a.count ∧ a.count ≤ fsDataSize := by
  rcases tfsRead_result a.performed with ⟨_, hret, hdata, hsize⟩ | ⟨hnot, _⟩
  · have hlen : a.data.length ≤ a.len := by
      rw [hdata]
      exact readCount_le _ _ _
    have hcast : a.ret = a.data.length := by rw [hret, hdata]
    have hsmall : tfsLenSize + a.data.length < 2 ^ 64 := by
      rw [fsDataSize_eq] at hsize
      simp only [tfsLenSize]
      omega
    refine ⟨?_, hcast, hdata, hsize⟩
    rw [message, if_pos halloc.2]
    rcases hbuffer : a.readBuffer with _ | bytes
    · -- nothing is copied
      have hnil : a.data = [] := List.length_eq_zero_iff.1 (hdata.trans (halloc.1 hbuffer))
      simp only [hcast, hnil]
      exact writeRead_natCast le_rfl (by decide)
    · have hfits : a.data.length ≤ bytes.length := by
        rw [a.size bytes hbuffer]
        exact hlen
      simp only [hcast]
      rw [writeRead_natCast (by rw [length_storeOver hfits]; exact hfits) hsmall, take_storeOver]
  · exact absurd h hnot

/-- Any other request has none. -/
theorem message_eq_none (h : ¬ (a.Accepted ∧ a.Allocated)) : a.message = none := by
  rcases tfsRead_result a.performed with ⟨haccepted, hret, _, hsize⟩ | ⟨_, hret, _⟩
  · rw [fsDataSize_eq] at hsize
    have hnot : ¬ a.Allocated := fun halloc => h ⟨haccepted, halloc⟩
    unfold message
    by_cases hreturn : a.returnBuffer = true
    · rcases hbuffer : a.readBuffer with _ | bytes
      · have hpos : a.count ≠ 0 := fun hzero => hnot ⟨fun _ => hzero, hreturn⟩
        rw [if_pos hreturn, hret]
        exact writeRead_null hpos (by omega)
      · have hsome : a.readBuffer ≠ none := by
          rw [hbuffer]
          exact Option.some_ne_none bytes
        exact absurd ⟨fun hnone => absurd hnone hsome, hreturn⟩ hnot
    · exact if_neg hreturn
  · unfold message
    rw [hret]
    split
    · split
      · exact writeRead_error _
      · exact writeRead_error _
    · rfl

end ReadAnswer

/-- The worker writes the replies one after the other. -/
def sendReplies : List ReadAnswer → Option (List Byte)
  | [] => some []
  | a :: later => do
      let m ← a.message
      let ms ← sendReplies later
      some (m ++ ms)

theorem sendReplies_cons {a : ReadAnswer} {later : List ReadAnswer} {sent : List Byte}
    (h : sendReplies (a :: later) = some sent) :
    ∃ m ms, a.message = some m ∧ sendReplies later = some ms ∧ sent = m ++ ms := by
  rcases Option.bind_eq_some_iff.1 h with ⟨m, hm, hrest⟩
  rcases Option.bind_eq_some_iff.1 hrest with ⟨ms, hms, hsent⟩
  exact ⟨m, ms, hm, hms, (Option.some.inj hsent).symm⟩

/-! ## The client's side -/

/-- A call of the client's `tfs_read`: how its two `read(2)` deliver, and what its variable holds. -/
structure ReadCall where
  limits : Limits
  old : List Byte
  size : old.length = tfsReadReturnSize

/-- The client reads one reply for each of its calls. -/
def receiveReplies (session : ℤ) : List ReadCall → List Byte → List (ℤ × List Byte) × List Byte
  | [], pipe => ([], pipe)
  | c :: calls, pipe =>
      let r := tfsReadReturn c.limits session c.old pipe
      let later := receiveReplies session calls r.pipe
      ((r.value, r.data) :: later.1, later.2)

/-- The client takes the number of bytes, and as many of the bytes as are delivered. -/
theorem tfsReadReturn_message (session : ℤ) (limits : Limits) {old : List Byte} (data rest : List Byte)
    (hold : old.length = 8) (hdata : data.length ≤ fsDataSize) (hfirst : 8 ≤ limits.first) :
    tfsReadReturn limits session old (longBytes data.length ++ data ++ rest) =
      ⟨data.length, (data ++ rest).take (min data.length limits.second), session,
        (data ++ rest).drop (min data.length limits.second)⟩ := by
  rw [fsDataSize_eq] at hdata
  have hlong : bytesLong (longBytes (data.length : ℤ)) = data.length :=
    bytesLong_longBytes_of_range (by omega) (by omega)
  have hfield : readVariable limits.first old (longBytes data.length ++ data ++ rest) =
      some (longBytes data.length, data ++ rest) := by
    rw [List.append_assoc]
    exact readVariable_whole (by omega) (by rw [length_longBytes, hold]) (by omega)
  have hcount : sizeofChars (data.length : ℤ) = data.length := sizeofChars_natCast (by omega)
  have hbytes : readClient limits.second data.length (data ++ rest) =
      some ((data ++ rest).take (min data.length limits.second),
        (data ++ rest).drop (min data.length limits.second)) := by
    rw [readClient, if_neg (by omega)]
  simp only [tfsReadReturn, hfield, hlong, hcount, hbytes]

/-- If everything is delivered, it leaves the next reply. -/
theorem tfsReadReturn_whole (session : ℤ) (limits : Limits) {old : List Byte} (data rest : List Byte)
    (hold : old.length = 8) (hdata : data.length ≤ fsDataSize) (hfirst : 8 ≤ limits.first)
    (hsecond : data.length ≤ limits.second) :
    tfsReadReturn limits session old (longBytes data.length ++ data ++ rest) =
      ⟨data.length, data, session, rest⟩ := by
  rw [tfsReadReturn_message session limits data rest hold hdata hfirst, min_eq_left hsecond, List.take_left,
    List.drop_left]

/-! ## Round trip -/

/-- The client sees the results in order and stands at the next reply. -/
def RoundTrips (answers : List ReadAnswer) : Prop :=
  ∃ sent, sendReplies answers = some sent ∧
    ∀ (session : ℤ) (calls : List ReadCall) (rest : List Byte),
      List.Forall₂ (fun a c => a.Delivers c.limits) answers calls →
        receiveReplies session calls (sent ++ rest) = (answers.map ReadAnswer.result, rest)

/-- The file system accepts the request, the two buffers are allocated, and the reply is a message that
the pipe takes as a whole. -/
def ReadAnswer.Carried (a : ReadAnswer) : Prop :=
  a.Accepted ∧ a.Allocated ∧ tfsLenSize + a.count ≤ pipeBuf

/-- One such reply after the other. -/
theorem roundTrips_of_carried {answers : List ReadAnswer} (h : ∀ a ∈ answers, a.Carried) :
    RoundTrips answers := by
  induction answers with
  | nil =>
      refine ⟨[], rfl, ?_⟩
      intro session calls rest hcalls
      cases hcalls
      rfl
  | cons a later ih =>
      rcases h a List.mem_cons_self with ⟨haccepted, halloc, hshort⟩
      rcases ReadAnswer.message_of_accepted haccepted halloc with ⟨hmessage, hret, hcount, hsize⟩
      rcases ih fun b hb => h b (List.mem_cons_of_mem a hb) with ⟨sent, hsent, hreceived⟩
      refine ⟨longBytes a.data.length ++ a.data ++ sent, ?_, ?_⟩
      · simp [sendReplies, hmessage, hsent]
      · intro session calls rest hcalls
        rcases hcalls with _ | @⟨_, c, _, calls, hfirst, hlater⟩
        rcases hfirst hshort with ⟨hlimit, hrest⟩
        have hread := tfsReadReturn_whole session c.limits a.data (sent ++ rest) c.size (by omega) hlimit
          (by omega)
        rw [List.append_assoc, receiveReplies, hread]
        simp only [hreceived session calls rest hlater, List.map_cons, ReadAnswer.result, hret]

/-- What a pipe may do with the reply: it holds a long one back after its first byte. -/
def ReadAnswer.cutCall (a : ReadAnswer) : ReadCall where
  limits :=
    { first := tfsReadReturnSize
      second := if tfsLenSize + a.count ≤ pipeBuf then a.count + 1 else 1
      first_pos := by decide
      second_pos := by split <;> omega }
  old := List.replicate 8 0
  size := rfl

theorem ReadAnswer.delivers_cutCall (a : ReadAnswer) : a.Delivers a.cutCall.limits := by
  intro hshort
  refine ⟨le_rfl, ?_⟩
  simp only [cutCall, if_pos hshort]
  omega

/-- A client that sees every result had none to wait for. -/
theorem carried_of_received {answers : List ReadAnswer} :
    ∀ {sent : List Byte}, sendReplies answers = some sent →
      (receiveReplies 0 (answers.map ReadAnswer.cutCall) sent).1 = answers.map ReadAnswer.result →
        ∀ a ∈ answers, a.Carried := by
  induction answers with
  | nil =>
      intro sent _ _ a ha
      simp at ha
  | cons first later ih =>
      intro sent hsent hreceived
      rcases sendReplies_cons hsent with ⟨m, ms, hm, hms, rfl⟩
      -- a reply that is sent was accepted, and its buffers were there
      have hfound : first.Accepted ∧ first.Allocated := by
        by_contra hnot
        rw [ReadAnswer.message_eq_none hnot] at hm
        cases hm
      rcases ReadAnswer.message_of_accepted hfound.1 hfound.2 with ⟨hmessage, hret, hcount, hsize⟩
      rw [hmessage] at hm
      rcases Option.some.inj hm with rfl
      have hdata : first.data.length ≤ fsDataSize := by omega
      have hread := tfsReadReturn_message 0 first.cutCall.limits first.data ms first.cutCall.size
        hdata le_rfl
      simp only [List.map_cons, receiveReplies, hread, List.cons.injEq, ReadAnswer.result,
        Prod.mk.injEq] at hreceived
      rcases hreceived with ⟨⟨_, hbytes⟩, hlater⟩
      -- of a long reply one byte is delivered
      have hshort : tfsLenSize + first.count ≤ pipeBuf := by
        by_contra hlong
        have hone := congrArg List.length hbytes
        simp only [ReadAnswer.cutCall, if_neg hlong, List.length_take, List.length_append] at hone
        simp only [tfsLenSize, pipeBuf] at hlong
        omega
      have hsecond : first.data.length ≤ first.cutCall.limits.second := by
        have hdelivers := first.delivers_cutCall hshort
        omega
      rw [min_eq_left hsecond, List.drop_left] at hlater
      intro a ha
      rcases List.mem_cons.1 ha with rfl | ha
      · exact ⟨hfound.1, hfound.2, hshort⟩
      · exact ih hms hlater a ha

/-- A sequence of read replies survives its way to the client exactly if the file system accepted
every request, the worker could allocate its buffers, and no reply is longer than `PIPE_BUF`. -/
theorem readReplies_roundTrip_iff (answers : List ReadAnswer) :
    RoundTrips answers ↔ ∀ a ∈ answers, a.Carried := by
  constructor
  · rintro ⟨sent, hsent, hreceived⟩
    have hcalls : List.Forall₂ (fun a c => a.Delivers c.limits) answers
        (answers.map ReadAnswer.cutCall) := by
      rw [List.forall₂_map_right_iff]
      exact List.forall₂_same.2 fun a _ => a.delivers_cutCall
    have hfirst := hreceived 0 _ [] hcalls
    rw [List.append_nil] at hfirst
    exact carried_of_received hsent (congrArg Prod.fst hfirst)
  · exact roundTrips_of_carried

/-- Write two bytes to `/a`, and open it again. -/
def writeTwoBytes : List Call :=
  [.open (some slashA) tfsOCreat, .write 0 (fun _ => 0x41) 2, .open (some slashA) 0]

/-- Handle 1 has two bytes to read, and then none. -/
def TwoBytesLeft (s : State) : Prop :=
  ReadAccepted 1 5 s ∧ bytesToRead 1 5 s = 2 ∧
    ((tfsReadUnsynchronized 1 5 s).any fun x => x.1 = 2 ∧ x.2.1 = [0x41, 0x41] ∧
      ReadAccepted 1 5 x.2.2 ∧ bytesToRead 1 5 x.2.2 = 0 ∧
      ((tfsReadUnsynchronized 1 5 x.2.2).any fun y => y.1 = 0 ∧ y.2.1 = []) = true) = true

instance (s : State) : Decidable (TwoBytesLeft s) :=
  inferInstanceAs (Decidable (_ ∧ _))

theorem performAll_writeTwoBytes :
    (System.performAll (library.record OnOpenHandle) writeTwoBytes ([], tfsInit.2)).any
      (TwoBytesLeft ·.2) = true := by
  rw [tfsInit_eq]
  decide +kernel

/-- The second of the two reads finds nothing, so it needs no buffer. -/
theorem readReplies_roundTrip_iff_twoBytes : ∃ first second : ReadAnswer,
    properCalls.Reachable first.before ∧ second.before = first.after ∧
      [first, second].map ReadAnswer.result = [(2, [0x41, 0x41]), (0, [])] ∧
      second.readBuffer = none ∧ RoundTrips [first, second] := by
  rcases Machine.execution_of_any performAll_writeTwoBytes with ⟨h, s, he, _, haccepted, hcount, hread⟩
  rcases (Option.any_eq_true _ _).1 hread with ⟨⟨r, out, t⟩, hfirst, hdecided⟩
  rcases of_decide_eq_true hdecided with ⟨rfl, rfl, hacceptedT, hcountT, hreadT⟩
  rcases (Option.any_eq_true _ _).1 hreadT with ⟨⟨r, out, u⟩, hsecond, hdecidedT⟩
  rcases of_decide_eq_true hdecidedT with ⟨rfl, rfl⟩
  let first : ReadAnswer := ⟨1, 5, s, t, _, _, hfirst, some (List.replicate 5 0), by simp, true⟩
  let second : ReadAnswer := ⟨1, 5, t, u, _, _, hsecond, none, by simp, true⟩
  refine ⟨first, second, ⟨h, he⟩, rfl, rfl, rfl, ?_⟩
  refine (readReplies_roundTrip_iff [first, second]).2 ?_
  intro a ha
  rcases List.mem_pair.1 ha with rfl | rfl
  · refine ⟨haccepted, ⟨?_, rfl⟩, ?_⟩
    · intro hnone
      cases hnone
    · exact le_of_eq_of_le (congrArg (tfsLenSize + ·) hcount) (by decide)
  · have hzero : bytesToRead 1 5 t = 0 := hcountT
    exact ⟨hacceptedT, ⟨fun _ => hzero, rfl⟩, le_of_eq_of_le (congrArg (tfsLenSize + ·) hzero) (by decide)⟩

/-- A read on handle -1, as after an open that failed. -/
def badHandleAnswer : ReadAnswer where
  fhandle := -1
  len := 10
  before := tfsInit.2
  after := tfsInit.2
  ret := -1
  data := []
  performed := rfl
  readBuffer := some (List.replicate 10 0)
  size := by simp
  returnBuffer := true

/-- Its result never leaves the server: `write_read` overruns the buffer it has allocated. -/
theorem readError_has_no_reply : ¬ ∀ answers, RoundTrips answers := by
  intro hall
  rcases hall [badHandleAnswer] with ⟨sent, hsent, _⟩
  have hnone : badHandleAnswer.message = none := writeRead_error (storeOver [] (List.replicate 10 0))
  simp [sendReplies, hnone] at hsent

end Wire
end TecnicoFs
