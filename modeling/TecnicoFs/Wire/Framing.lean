import TecnicoFs.Wire.Receiver

/-!
# Framing — requests survive the pipe

Each `read_*` function takes from the pipe the bytes that its client function put there and no
more, however `read(2)` delivers them. By induction a stream of whole messages is read back as the
requests it was made of.
-/

namespace TecnicoFs
namespace Wire

open Lib

variable {d : Delivery}

/-- `m` takes `x` from the front of the pipe and leaves `rest` there, at any time. -/
def Takes {α : Type} (m : Pipe → Except Stop (α × Pipe)) (front : List Byte) (x : α) : Prop :=
  ∀ rest clock, ∃ clock', m ⟨front ++ rest, clock⟩ = .ok (x, ⟨rest, clock'⟩)

/-! ## `read_from_pipe` -/

theorem readPipe_eof {p : Pipe} (len : ℕ) (h : d.size p.clock = 0) :
    readPipe d len p = .ok ([], ⟨p.bytes, p.clock + 1⟩) := by
  simp [readPipe, Delivery.read_eof len h]

theorem readPipe_of_ne_nil {p : Pipe} (len : ℕ) (h : p.bytes ≠ []) :
    readPipe d len p =
      .ok (p.bytes.take (min len (d.size p.clock)),
        ⟨p.bytes.drop (min len (d.size p.clock)), p.clock + 1⟩) := by
  simp [readPipe, Delivery.read_of_ne_nil len h]

/-- The loop fills the buffer with the next bytes, in the order of the pipe. -/
theorem readFromPipeLoop_eq (turns : ℕ) :
    ∀ (buffer xs rest : List Byte) (clock : ℕ),
      d.calls xs.length clock < turns →
        ∃ clock', readFromPipeLoop d (buffer.length + xs.length) turns buffer ⟨xs ++ rest, clock⟩ =
          .ok (buffer ++ xs, ⟨rest, clock'⟩) := by
  induction turns with
  | zero =>
      intro buffer xs rest clock hturns
      omega
  | succ turns ih =>
      intro buffer xs rest clock hturns
      by_cases hxs : xs = []
      · subst hxs
        exact ⟨clock, by simp [readFromPipeLoop]⟩
      · have hlen : 0 < xs.length := List.length_pos_iff.2 hxs
        have hlt : buffer.length < buffer.length + xs.length := by omega
        by_cases heof : d.size clock = 0
        · -- no writer: nothing is read
          rw [Delivery.calls_of_eof heof hlen] at hturns
          rcases ih buffer xs rest (clock + 1) (by omega) with ⟨clock', hloop⟩
          refine ⟨clock', ?_⟩
          rw [readFromPipeLoop, if_pos hlt, readPipe_eof _ heof]
          simpa [bind, Except.bind] using hloop
        · let k := min xs.length (d.size clock)
          have hk : 0 < k ∧ k ≤ xs.length := by omega
          have hread : readPipe d (buffer.length + xs.length - buffer.length)
              ⟨xs ++ rest, clock⟩ = .ok (xs.take k, ⟨xs.drop k ++ rest, clock + 1⟩) := by
            rw [readPipe_of_ne_nil _ (by simp [hxs])]
            simp only [Nat.add_sub_cancel_left]
            rw [List.take_append_of_le_length hk.2, List.drop_append_of_le_length hk.2]
          have hsum : (buffer ++ xs.take k).length + (xs.drop k).length =
              buffer.length + xs.length := by
            simp only [List.length_append, List.length_take, List.length_drop]
            omega
          have hfuel : d.calls (xs.drop k).length (clock + 1) < turns := by
            have hone := Delivery.calls_of_ne heof (xs.length - 1)
            have hmono := d.calls_mono (show (xs.drop k).length ≤ xs.length - 1 by
              rw [List.length_drop]
              omega) (clock + 1)
            rw [Nat.sub_add_cancel hlen] at hone
            omega
          rcases ih (buffer ++ xs.take k) (xs.drop k) rest (clock + 1) hfuel with ⟨clock', hloop⟩
          refine ⟨clock', ?_⟩
          rw [readFromPipeLoop, if_pos hlt, hread]
          rw [hsum, List.append_assoc, List.take_append_drop] at hloop
          exact hloop

theorem takes_readFromPipe {len : ℕ} {xs : List Byte} (h : xs.length = len) :
    Takes (readFromPipe d len) xs xs := by
  intro rest clock
  subst h
  simpa [readFromPipe] using readFromPipeLoop_eq (d := d) _ [] xs rest clock (Nat.lt_succ_self _)

/-! ## The fields -/

theorem takes_readInt {z : ℤ} (h : IsInt z) : Takes (readInt d) (intBytes z) z := by
  intro rest clock
  rcases takes_readFromPipe (d := d) (length_intBytes z) rest clock with ⟨clock', hread⟩
  exact ⟨clock', by simp [readInt, hread, bind, Except.bind, bytesInt_intBytes_of_range h.1 h.2]⟩

theorem takes_readSize {n : ℕ} (h : n < 2 ^ 64) :
    Takes (readSize d) (leBytes tfsLenSize n) n := by
  intro rest clock
  rcases takes_readFromPipe (d := d) (length_leBytes tfsLenSize n) rest clock with ⟨clock', hread⟩
  have hmod : leNat (leBytes tfsLenSize n) = n := by
    rw [leNat_leBytes]
    exact Nat.mod_eq_of_lt (by simpa [tfsLenSize] using h)
  exact ⟨clock', by simp [readSize, hread, bind, Except.bind, hmod]⟩

/-- Where a reopening meets a writer, the opcode is the next byte. -/
theorem takes_readOpcode (d : PromptDelivery) (stale opcode : Byte) :
    Takes (readOpcode d stale) [opcode] opcode := by
  intro rest clock
  by_cases heof : d.size clock = 0
  · have hnext : d.size (clock + 1) ≠ 0 := d.reopened clock heof
    have hone : min tfsOpcodeSize (d.size (clock + 1)) = 1 := by
      have : tfsOpcodeSize = 1 := rfl
      omega
    have hagain := readPipe_of_ne_nil (d := d.toDelivery) (p := ⟨opcode :: rest, clock + 1⟩) tfsOpcodeSize
      (List.cons_ne_nil _ _)
    simp only [hone] at hagain
    refine ⟨clock + 2, ?_⟩
    simp only [readOpcode, List.singleton_append, readPipe_eof (d := d.toDelivery) (p := ⟨_, clock⟩) _ heof]
    simp only [bind, Except.bind, hagain]
    simp
  · have hone : min tfsOpcodeSize (d.size clock) = 1 := by
      have : tfsOpcodeSize = 1 := rfl
      omega
    have hread := readPipe_of_ne_nil (d := d.toDelivery) (p := ⟨opcode :: rest, clock⟩) tfsOpcodeSize
      (List.cons_ne_nil _ _)
    simp only [hone] at hread
    refine ⟨clock + 1, ?_⟩
    simp only [readOpcode, List.singleton_append, hread]
    simp [bind, Except.bind]

/-! ## The requests -/

theorem takes_readMount (path : NameField) :
    Takes (readMount d) path.bytes (.mount path.bytes) := by
  intro rest clock
  rcases takes_readFromPipe (d := d) path.length_bytes rest clock with ⟨clock', hpath⟩
  exact ⟨clock', by simp [readMount, hpath, bind, Except.bind]⟩

theorem takes_readUnmount {session : ℤ} (h : IsInt session) :
    Takes (readUnmount d) (intBytes session) (.unmount session) := by
  intro rest clock
  rcases takes_readInt (d := d) h rest clock with ⟨clock', hsession⟩
  exact ⟨clock', by simp [readUnmount, hsession, bind, Except.bind]⟩

theorem takes_readOpen {session flags : ℤ} (name : NameField) (hsession : IsInt session)
    (hflags : IsInt flags) :
    Takes (readOpen d) (intBytes session ++ (name.bytes ++ intBytes flags))
      (.open session name.bytes flags) := by
  intro rest clock
  rcases takes_readInt (d := d) hsession (name.bytes ++ (intBytes flags ++ rest)) clock
    with ⟨clock₁, h₁⟩
  rcases takes_readFromPipe (d := d) name.length_bytes (intBytes flags ++ rest) clock₁
    with ⟨clock₂, h₂⟩
  rcases takes_readInt (d := d) hflags rest clock₂ with ⟨clock₃, h₃⟩
  exact ⟨clock₃, by simp [readOpen, h₁, h₂, h₃, bind, Except.bind]⟩

theorem takes_readClose {session fhandle : ℤ} (hsession : IsInt session)
    (hfhandle : IsInt fhandle) :
    Takes (readClose d) (intBytes session ++ intBytes fhandle) (.close session fhandle) := by
  intro rest clock
  rcases takes_readInt (d := d) hsession (intBytes fhandle ++ rest) clock with ⟨clock₁, h₁⟩
  rcases takes_readInt (d := d) hfhandle rest clock₁ with ⟨clock₂, h₂⟩
  exact ⟨clock₂, by simp [readClose, h₁, h₂, bind, Except.bind]⟩

theorem takes_readWrite {session fhandle : ℤ} {len : ℕ} {buffer : List Byte}
    (hsession : IsInt session) (hfhandle : IsInt fhandle) (hlen : len < 2 ^ 64)
    (hbuffer : buffer.length = len) :
    Takes (readWrite d)
      (intBytes session ++ (intBytes fhandle ++ (leBytes tfsLenSize len ++ buffer)))
      (.write session fhandle len buffer) := by
  intro rest clock
  rcases takes_readInt (d := d) hsession
    (intBytes fhandle ++ (leBytes tfsLenSize len ++ (buffer ++ rest))) clock with ⟨clock₁, h₁⟩
  rcases takes_readInt (d := d) hfhandle (leBytes tfsLenSize len ++ (buffer ++ rest)) clock₁
    with ⟨clock₂, h₂⟩
  rcases takes_readSize (d := d) hlen (buffer ++ rest) clock₂ with ⟨clock₃, h₃⟩
  rcases takes_readFromPipe (d := d) hbuffer rest clock₃ with ⟨clock₄, h₄⟩
  exact ⟨clock₄, by simp [readWrite, h₁, h₂, h₃, h₄, bind, Except.bind]⟩

theorem takes_readRead {session fhandle : ℤ} {len : ℕ} (hsession : IsInt session)
    (hfhandle : IsInt fhandle) (hlen : len < 2 ^ 64) :
    Takes (readRead d) (intBytes session ++ (intBytes fhandle ++ leBytes tfsLenSize len))
      (.read session fhandle len) := by
  intro rest clock
  rcases takes_readInt (d := d) hsession
    (intBytes fhandle ++ (leBytes tfsLenSize len ++ rest)) clock with ⟨clock₁, h₁⟩
  rcases takes_readInt (d := d) hfhandle (leBytes tfsLenSize len ++ rest) clock₁
    with ⟨clock₂, h₂⟩
  rcases takes_readSize (d := d) hlen rest clock₂ with ⟨clock₃, h₃⟩
  exact ⟨clock₃, by simp [readRead, h₁, h₂, h₃, bind, Except.bind]⟩

theorem takes_readShutdown {session : ℤ} (h : IsInt session) :
    Takes (readShutdown d) (intBytes session) (.shutdownAfterAllClosed session) := by
  intro rest clock
  rcases takes_readInt (d := d) h rest clock with ⟨clock', hsession⟩
  exact ⟨clock', by simp [readShutdown, hsession, bind, Except.bind]⟩

/-- An opcode and the fields that its function reads make a request. -/
theorem takes_readRequest_of_dispatch {d : PromptDelivery} {stale opcode : Byte} {fields : List Byte}
    {r : Request (List Byte)} (h : Takes (dispatch d opcode) fields r) :
    Takes (readRequest d stale) (opcode :: fields) r := by
  intro rest clock
  rcases takes_readOpcode d stale opcode (fields ++ rest) clock with ⟨clock₁, h₁⟩
  rcases h rest clock₁ with ⟨clock₂, h₂⟩
  refine ⟨clock₂, ?_⟩
  simp only [List.singleton_append] at h₁
  simp [readRequest, h₁, h₂, bind, Except.bind]

/-- The receiver takes each message as the request it was made of. -/
theorem takes_readRequest (d : PromptDelivery) (stale : Byte) {r : Request NameField} (h : r.Typed) :
    Takes (readRequest d stale) r.message (r.map NameField.bytes) := by
  cases r with
  | mount path =>
      exact takes_readRequest_of_dispatch (takes_readMount path)
  | unmount session =>
      exact takes_readRequest_of_dispatch (takes_readUnmount h)
  | «open» session name flags =>
      exact takes_readRequest_of_dispatch (takes_readOpen name h.1 h.2)
  | close session fhandle =>
      exact takes_readRequest_of_dispatch (takes_readClose h.1 h.2)
  | write session fhandle len buffer =>
      rcases h with ⟨hsession, hfhandle, hlen, hbuffer⟩
      have htake : buffer.take len = buffer := by
        rw [← hbuffer, List.take_length]
      rw [Request.message, tfsWrite, htake]
      exact takes_readRequest_of_dispatch
        (takes_readWrite hsession hfhandle (by omega) hbuffer)
  | read session fhandle len =>
      rcases h with ⟨hsession, hfhandle, hlen⟩
      exact takes_readRequest_of_dispatch (takes_readRead hsession hfhandle hlen)
  | shutdownAfterAllClosed session =>
      exact takes_readRequest_of_dispatch (takes_readShutdown h)

/-! ## The stream -/

variable {d : PromptDelivery} {stale : ℕ → Byte}

/-- The bytes that reach the pipe when the requests are sent one after the other. -/
def stream (rs : List (Request NameField)) : List Byte :=
  (rs.map Request.message).flatten

@[simp] theorem stream_nil : stream [] = [] :=
  rfl

@[simp] theorem stream_cons (r : Request NameField) (rs : List (Request NameField)) :
    stream (r :: rs) = r.message ++ stream rs := by
  simp [stream]

/-- Nothing is read from an empty pipe, with or without an end of file. -/
theorem readRequest_nil (stale : Byte) (clock : ℕ) : readRequest d stale ⟨[], clock⟩ = .error .waits := by
  have hwaits : ∀ clock, d.size clock ≠ 0 →
      readPipe d tfsOpcodeSize ⟨[], clock⟩ = .error .waits := by
    intro clock h
    simp [readPipe, Delivery.read_waits (d := d.toDelivery) (p := ⟨[], clock⟩) tfsOpcodeSize h rfl]
  by_cases heof : d.size clock = 0
  · have hagain := hwaits (clock + 1) (d.reopened clock heof)
    simp [readRequest, readOpcode, readPipe_eof (d := d.toDelivery) (p := ⟨[], clock⟩) _ heof, hagain, bind,
      Except.bind]
  · simp [readRequest, readOpcode, hwaits clock heof, bind, Except.bind]

/-- The receiver reads whole messages back, then goes on with the rest of the stream. -/
theorem serverPipeReader_stream_append {rs : List (Request NameField)}
    (hrs : ∀ r ∈ rs, r.Typed) (turns : ℕ) (rest : List Byte) :
    ∀ clock, ∃ clock', serverPipeReader d stale (rs.length + turns) ⟨stream rs ++ rest, clock⟩ =
      ⟨rs.map (Request.map NameField.bytes) ++ (serverPipeReader d stale turns ⟨rest, clock'⟩).requests,
        (serverPipeReader d stale turns ⟨rest, clock'⟩).pipe,
        (serverPipeReader d stale turns ⟨rest, clock'⟩).stopped⟩ := by
  induction rs with
  | nil =>
      intro clock
      exact ⟨clock, by simp⟩
  | cons r rs ih =>
      intro clock
      rcases takes_readRequest d (stale (rs.length + turns)) (hrs r (by simp)) (stream rs ++ rest) clock
        with ⟨clock₁, hread⟩
      rcases ih (fun r' hr' => hrs r' (by simp [hr'])) clock₁ with ⟨clock₂, hlater⟩
      refine ⟨clock₂, ?_⟩
      have hlen : (r :: rs).length + turns = (rs.length + turns) + 1 := by
        simp only [List.length_cons]
        omega
      rw [hlen, stream_cons, List.append_assoc, serverPipeReader, hread]
      simp [hlater]

/-- Whole messages are read back as the requests they were made of; no byte is left over, and the
receiver waits for the next message. -/
theorem serverPipeReader_stream {rs : List (Request NameField)} (hrs : ∀ r ∈ rs, r.Typed)
    {turns : ℕ} (hturns : rs.length < turns) (clock : ℕ) :
    ∃ clock', serverPipeReader d stale turns ⟨stream rs, clock⟩ =
      ⟨rs.map (Request.map NameField.bytes), ⟨[], clock'⟩, some .waits⟩ := by
  rcases Nat.exists_eq_add_of_lt hturns with ⟨more, rfl⟩
  rcases serverPipeReader_stream_append (d := d) hrs (more + 1) [] clock with ⟨clock', hread⟩
  refine ⟨clock', ?_⟩
  have hlast : serverPipeReader d stale (more + 1) ⟨[], clock'⟩ = ⟨[], ⟨[], clock'⟩, some .waits⟩ := by
    rw [serverPipeReader, readRequest_nil]
  rw [hlast] at hread
  simpa [Nat.add_assoc] using hread

/-- The round trip: for any list of requests and any delivery of their bytes, the receiver reads
exactly these requests with exactly these arguments, every name as the string that was passed, and
leaves no byte. -/
theorem framing_roundTrip (d : PromptDelivery) (stale : ℕ → Byte) (rs : List (Request NameField))
    (hrs : ∀ r ∈ rs, r.Typed) (turns clock : ℕ) (hturns : rs.length < turns) :
    ∃ clock', serverPipeReader d stale turns ⟨stream rs, clock⟩ =
        ⟨rs.map (Request.map NameField.bytes), ⟨[], clock'⟩, some .waits⟩ ∧
      (serverPipeReader d stale turns ⟨stream rs, clock⟩).requests.map (Request.map cString) =
        rs.map (Request.map NameField.name) := by
  rcases serverPipeReader_stream (d := d) hrs hturns clock with ⟨clock', hread⟩
  refine ⟨clock', hread, ?_⟩
  rw [hread, List.map_map]
  apply List.map_congr_left
  intro r _
  simp only [Function.comp_apply, Request.map_map]
  exact congrArg (fun g => r.map g) (funext NameField.cString_bytes)

theorem framing_roundTrip_session :
    ∃ clock', serverPipeReader PromptDelivery.byteWise (fun _ => 0) 4
        ⟨stream [.mount f1Field, .write 0 0 2 [0x41, 0x42], .unmount 0], 0⟩ =
          ⟨[.mount f1Field.bytes, .write 0 0 2 [0x41, 0x42], .unmount 0], ⟨[], clock'⟩,
            some .waits⟩ ∧
      (serverPipeReader PromptDelivery.byteWise (fun _ => 0) 4
        ⟨stream [.mount f1Field, .write 0 0 2 [0x41, 0x42], .unmount 0], 0⟩).requests.map
          (Request.map cString) =
        [.mount f1Field.name, .write 0 0 2 [0x41, 0x42], .unmount 0] :=
  framing_roundTrip .byteWise (fun _ => 0) [.mount f1Field, .write 0 0 2 [0x41, 0x42], .unmount 0]
    (by decide) 4 0 (by simp)

end Wire
end TecnicoFs
