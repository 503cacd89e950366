import TecnicoFs.Lib.Interleave
import TecnicoFs.Wire.Framing

/-!
# Mixing — many clients on one pipe

Every client writes its messages to the same FIFO, and the receiver has nothing but the order of the
bytes. Messages of at most `PIPE_BUF` bytes stay whole, and the stream is then an interleaving of
messages. A longer one, which only `tfs_write` makes, may be split after its second byte: if another
client's message comes in between, its opcode is read as a part of the session id.
-/

namespace TecnicoFs
namespace Wire

open Lib

universe u

/-- `Sent rs ps`: a client that sends `rs` in order leaves the pieces `ps` in the FIFO. -/
inductive Sent : List (Request NameField) → List (List Byte) → Prop
  | nil : Sent [] []
  | cons {r : Request NameField} {rs : List (Request NameField)} {ps qs : List (List Byte)} :
      Pieces pipeBuf r.message ps → Sent rs qs → Sent (r :: rs) (ps ++ qs)

variable {ι : Type u} [DecidableEq ι] {reqs : ι → List (Request NameField)} {d : PromptDelivery}
  {stale : ℕ → Byte}

/-- The FIFO may carry `bytes` when each client `i` sends `reqs i`. -/
def Carries (reqs : ι → List (Request NameField)) (bytes : List Byte) : Prop :=
  ∃ (pieces : ι → List (List Byte)) (l : List (List Byte)),
    (∀ i, Sent (reqs i) (pieces i)) ∧ Interleaving pieces l ∧ bytes = l.flatten

/-- The receiver takes every byte, and reads each client's requests as sent and in their order. -/
def Unmixed (d : PromptDelivery) (stale : ℕ → Byte) (reqs : ι → List (Request NameField))
    (bytes : List Byte) : Prop :=
  let reading := serverPipeReader d stale (bytes.length + 1) ⟨bytes, 0⟩
  reading.pipe.bytes = [] ∧
    Interleaving (fun i => (reqs i).map (Request.map NameField.bytes)) reading.requests

/-- A request that a client function can send. -/
def Request.Issued {ν : Type} (r : Request ν) : Prop :=
  r.Typed ∧ ∀ session, r.sessionId = some session → IsClientSession session

/-- A write whose message is longer than `PIPE_BUF`. -/
def Request.Long {ν : Type} : Request ν → Prop
  | .write _ _ len _ => pipeBuf < tfsWriteSize + len
  | _ => False

theorem Request.Typed.long_iff {r : Request NameField} (h : r.Typed) :
    r.Long ↔ pipeBuf < r.message.length := by
  have hbuf : pipeBuf = 4096 := rfl
  by_cases hwrite : ∃ session fhandle len buffer, r = .write session fhandle len buffer
  · rcases hwrite with ⟨session, fhandle, len, buffer, rfl⟩
    rw [Request.Long, Request.message, length_tfsWrite h.2.2.2]
  · push Not at hwrite
    have hshort : r.message.length ≤ 49 := Request.length_message_le hwrite
    have hnot : ¬ r.Long := by
      cases r with
      | write session fhandle len buffer => exact absurd rfl (hwrite session fhandle len buffer)
      | _ => exact not_false
    constructor
    · intro hlong
      exact absurd hlong hnot
    · intro hlong
      omega

/-! ## Whole messages -/

theorem Sent.flatten {rs : List (Request NameField)} {ps : List (List Byte)} (h : Sent rs ps) :
    ps.flatten = stream rs := by
  induction h with
  | nil => rfl
  | cons hpieces _ ih =>
      rw [List.flatten_append, hpieces.flatten, ih, stream_cons]

theorem Sent.eq_nil {ps : List (List Byte)} (h : Sent [] ps) : ps = [] := by
  cases h
  rfl

theorem Sent.eq_map {rs : List (Request NameField)} {ps : List (List Byte)} (h : Sent rs ps)
    (hshort : ∀ r ∈ rs, r.message.length ≤ pipeBuf) : ps = rs.map Request.message := by
  induction h with
  | nil => rfl
  | @cons r rs ps qs hpieces _ ih =>
      have hone := hpieces.eq_singleton r.message_ne_nil (hshort r (by simp))
      rw [hone, ih (fun r' hr' => hshort r' (by simp [hr']))]
      rfl

theorem sent_append {rs rs' : List (Request NameField)} {ps ps' : List (List Byte)}
    (h : Sent rs ps) (h' : Sent rs' ps') : Sent (rs ++ rs') (ps ++ ps') := by
  induction h with
  | nil => exact h'
  | cons hpieces _ ih =>
      rw [List.append_assoc]
      exact .cons hpieces ih

/-- Sending every message in one piece is possible. -/
theorem sent_map (rs : List (Request NameField)) : Sent rs (rs.map Request.message) := by
  induction rs with
  | nil => exact .nil
  | cons r rs ih => exact .cons (.singleton r.message_ne_nil) ih

theorem length_le_length_stream (rs : List (Request NameField)) :
    rs.length ≤ (stream rs).length := by
  induction rs with
  | nil => simp
  | cons r rs ih =>
      have hr : 0 < r.message.length := List.length_pos_iff.2 r.message_ne_nil
      rw [stream_cons, List.length_append, List.length_cons]
      omega

/-- A stream of whole messages, in whatever order the clients came. -/
theorem unmixed_stream {rs : List (Request NameField)} (hrs : ∀ r ∈ rs, r.Typed)
    (h : Interleaving reqs rs) : Unmixed d stale reqs (stream rs) := by
  have hturns : rs.length < (stream rs).length + 1 :=
    Nat.lt_succ_of_le (length_le_length_stream rs)
  rcases serverPipeReader_stream (d := d) hrs hturns 0 with ⟨clock, hread⟩
  rw [Unmixed, hread]
  exact ⟨rfl, h.map _⟩

theorem unmixed_of_short (hreqs : ∀ i, ∀ r ∈ reqs i, r.Typed)
    (hshort : ∀ i, ∀ r ∈ reqs i, r.message.length ≤ pipeBuf) {bytes : List Byte}
    (h : Carries reqs bytes) : Unmixed d stale reqs bytes := by
  rcases h with ⟨pieces, l, hsent, hl, rfl⟩
  have hpieces : pieces = fun i => (reqs i).map Request.message :=
    funext fun i => (hsent i).eq_map (hshort i)
  rw [hpieces] at hl
  rcases hl.of_map with ⟨rs, hrs, rfl⟩
  apply unmixed_stream _ hrs
  intro r hr
  rcases hrs.mem hr with ⟨i, hi⟩
  exact hreqs i r hi

theorem unmixed_of_alone (hreqs : ∀ i, ∀ r ∈ reqs i, r.Typed) {i : ι}
    (halone : ∀ j, j ≠ i → reqs j = []) {bytes : List Byte} (h : Carries reqs bytes) :
    Unmixed d stale reqs bytes := by
  rcases h with ⟨pieces, l, hsent, hl, rfl⟩
  have hnone : ∀ j, j ≠ i → pieces j = [] := by
    intro j hj
    have hsent' := hsent j
    rw [halone j hj] at hsent'
    exact hsent'.eq_nil
  rw [hl.eq_of_alone hnone, (hsent i).flatten]
  exact unmixed_stream (hreqs i) (interleaving_of_alone halone)

/-! ## A split message -/

/-- The second byte of a session id is not an opcode. -/
theorem intBytes_session {z : ℤ} (h : IsClientSession z) :
    ∃ b₀ b₁ b₂ b₃, intBytes z = [b₀, b₁, b₂, b₃] ∧ (b₁ = 0 ∨ b₁ = 255) := by
  have hsessions : ((maxSessionsAmount : ℕ) : ℤ) = 20 := rfl
  rcases h with ⟨hlo, hhi⟩
  rw [hsessions] at hhi
  refine ⟨_, _, _, _, rfl, ?_⟩
  by_cases hneg : z = -1
  · subst hneg
    exact .inr (by decide)
  · have hlow : (z % 2 ^ 32).toNat / 256 = 0 := by omega
    exact .inl (by rw [hlow]; rfl)

/-- A message begins with an opcode and two bytes more. -/
theorem Request.message_eq_cons (r : Request NameField) :
    ∃ opcode a b rest, r.message = opcode :: a :: b :: rest ∧ opcode ≠ 0 ∧ opcode ≠ 255 := by
  have hlen : 5 ≤ r.message.length := by
    cases r <;>
      simp [message, tfsMount, tfsUnmount, tfsOpen, tfsClose, tfsWrite, tfsRead,
        tfsShutdownAfterAllClosed, tfsNameSize]
  have hhead : ∃ opcode rest, r.message = opcode :: rest ∧ opcode ≠ 0 ∧ opcode ≠ 255 := by
    cases r <;> exact ⟨_, _, rfl, by decide, by decide⟩
  rcases hhead with ⟨opcode, rest, hmessage, hne⟩
  rw [hmessage] at hlen
  rcases rest with _ | ⟨a, _ | ⟨b, more⟩⟩
  · simp at hlen
  · simp at hlen
  · exact ⟨opcode, a, b, more, hmessage, hne⟩

theorem dispatch_write (p : Pipe) : dispatch d tfsOpCodeWrite p = readWrite d p :=
  rfl

/-- The session id of a write is the four bytes behind its opcode, whoever wrote them. -/
theorem readRequest_write_session {stale : Byte} {xs rest : List Byte} (hxs : xs.length = 4) {clock : ℕ}
    {r : Request (List Byte)} {p : Pipe}
    (h : readRequest d stale ⟨tfsOpCodeWrite :: (xs ++ rest), clock⟩ = .ok (r, p)) :
    r.sessionId = some (bytesInt xs) := by
  rcases takes_readOpcode d stale tfsOpCodeWrite (xs ++ rest) clock with ⟨clock₁, h₁⟩
  rcases takes_readFromPipe (d := d.toDelivery) hxs rest clock₁ with ⟨clock₂, h₂⟩
  have hsession : readInt d ⟨xs ++ rest, clock₁⟩ = .ok (bytesInt xs, ⟨rest, clock₂⟩) := by
    simp [readInt, h₂, bind, Except.bind]
  have hwrite : readWrite d ⟨xs ++ rest, clock₁⟩ = .ok (r, p) := by
    simp only [List.singleton_append] at h₁
    simpa only [readRequest, h₁, dispatch_write, bind, Except.bind] using h
  simp only [readWrite, hsession, bind, Except.bind] at hwrite
  rcases hfhandle : readInt d ⟨rest, clock₂⟩ with _ | ⟨fhandle, p₁⟩
  · simp [hfhandle] at hwrite
  · rcases hlen : readSize d p₁ with _ | ⟨len, p₂⟩
    · simp [hfhandle, hlen] at hwrite
    · rcases hbuffer : readFromPipe d len p₂ with _ | ⟨buffer, p₃⟩
      · simp [hfhandle, hlen, hbuffer] at hwrite
      · simp only [hfhandle, hlen, hbuffer, Except.ok.injEq, Prod.mk.injEq] at hwrite
        rw [← hwrite.1]
        rfl

/-- No client has sent what the receiver reads from a write that is cut after two bytes. -/
theorem not_unmixed_cut (hreqs : ∀ i, ∀ r ∈ reqs i, r.Issued) {i : ι}
    {before after : List (Request NameField)} {long q : Request NameField}
    (hi : reqs i = before ++ long :: after) {s : Byte} {l : List Byte} {bytes : List Byte}
    (hbytes : bytes = stream before ++ (tfsOpCodeWrite :: s :: (q.message ++ l))) :
    ¬ Unmixed d stale reqs bytes := by
  rintro ⟨-, hl⟩
  rcases q.message_eq_cons with ⟨opcode, a, b, more, hq, hopcode⟩
  have hbefore : ∀ r ∈ before, r.Typed := by
    intro r hr
    exact (hreqs i r (by simp [hi, hr])).1
  have hturns : ∃ turns, bytes.length + 1 = before.length + (turns + 1) := by
    refine ⟨bytes.length - before.length, ?_⟩
    have hle := length_le_length_stream before
    have hlen : (stream before).length ≤ bytes.length := by
      rw [hbytes, List.length_append]
      omega
    omega
  rcases hturns with ⟨turns, hturns⟩
  rcases serverPipeReader_stream_append (d := d) hbefore (turns + 1)
    (tfsOpCodeWrite :: s :: (q.message ++ l)) 0 with ⟨clock, hread⟩
  rw [hturns, hbytes, hread] at hl
  simp only at hl
  rcases hnext : readRequest d (stale turns) ⟨tfsOpCodeWrite :: s :: (q.message ++ l), clock⟩ with
    stop | ⟨r, p⟩
  · -- The receiver stops before the long message: too few requests.
    have hshort := hl.length_le i
    simp [serverPipeReader, hnext, hi] at hshort
  · have hsession : r.sessionId = some (bytesInt [s, opcode, a, b]) := by
      apply readRequest_write_session rfl
      simpa [hq] using hnext
    have hmem : r ∈ before.map (Request.map NameField.bytes) ++
        (serverPipeReader d stale (turns + 1)
          ⟨tfsOpCodeWrite :: s :: (q.message ++ l), clock⟩).requests := by
      simp [serverPipeReader, hnext]
    rcases hl.mem hmem with ⟨j, hj⟩
    rcases List.mem_map.1 hj with ⟨r', hr', rfl⟩
    rw [Request.sessionId_map] at hsession
    rcases intBytes_session ((hreqs j r' hr').2 _ hsession) with ⟨b₀, b₁, b₂, b₃, hb, hb₁⟩
    rw [intBytes_bytesInt (by rfl)] at hb
    have hopcode' : opcode = b₁ := by
      simp only [List.cons.injEq] at hb
      exact hb.2.1
    rw [← hopcode'] at hb₁
    rcases hb₁ with h0 | h255
    · exact hopcode.1 h0
    · exact hopcode.2 h255

/-- A long write of one client and any request of another make a stream that is read wrongly. -/
theorem exists_mixed [Fintype ι] (hreqs : ∀ i, ∀ r ∈ reqs i, r.Issued) {i j : ι} (hij : i ≠ j)
    {long : Request NameField} (hlong : long ∈ reqs i) (hsize : long.Long) (hj : reqs j ≠ []) :
    ∃ bytes, Carries reqs bytes ∧ ¬ Unmixed d stale reqs bytes := by
  have hbig : pipeBuf < long.message.length := ((hreqs i long hlong).1.long_iff).1 hsize
  rcases List.append_of_mem hlong with ⟨before, after, hi⟩
  rcases List.exists_cons_of_ne_nil hj with ⟨q, qs, hq⟩
  have hcut : ∃ s, long.message.take 2 = [tfsOpCodeWrite, s] := by
    cases long with
    | write session fhandle len buffer =>
        rcases intBytes_session ((hreqs i _ hlong).2 _ rfl) with ⟨s, _, _, _, hs, -⟩
        exact ⟨s, by simp [Request.message, tfsWrite, hs]⟩
    | _ => exact absurd hsize not_false
  rcases hcut with ⟨s, hs⟩
  -- The long message in two pieces, every other message whole.
  let pieces : ι → List (List Byte) := fun k =>
    if k = i then
      before.map Request.message ++
        ([long.message.take 2, long.message.drop 2] ++ after.map Request.message)
    else
      (reqs k).map Request.message
  let tags : List (ι × List Byte) :=
    (before.map Request.message).map (Prod.mk i) ++ [(i, long.message.take 2), (j, q.message)]
  let rest : ι → List (List Byte) := fun k =>
    if k = i then
      long.message.drop 2 :: after.map Request.message
    else if k = j then
      qs.map Request.message
    else
      (reqs k).map Request.message
  have hsent : ∀ k, Sent (reqs k) (pieces k) := by
    intro k
    by_cases hk : k = i
    · simp only [pieces, hk, hi, if_true]
      exact sent_append (sent_map before) (.cons (.cut 2 hbig) (sent_map after))
    · simp only [pieces, if_neg hk]
      exact sent_map (reqs k)
  have hparts : ∀ k, labelled k tags ++ rest k = pieces k := by
    intro k
    have htags : labelled k tags =
        (if i = k then before.map Request.message else []) ++
          ((if i = k then [long.message.take 2] else []) ++
            (if j = k then [q.message] else [])) := by
      simp only [tags, labelled_append, labelled_map_mk, labelled_cons, labelled_nil]
      by_cases h₁ : i = k <;> by_cases h₂ : j = k <;> simp [h₁, h₂]
    by_cases hki : k = i
    · subst hki
      simp [htags, rest, pieces, Ne.symm hij]
    · by_cases hkj : k = j
      · subst hkj
        simp [htags, rest, pieces, hij, hki, hq]
      · simp [htags, rest, pieces, hki, hkj, Ne.symm hki, Ne.symm hkj]
  rcases exists_interleaving rest hparts with ⟨l, hl⟩
  refine ⟨_, ⟨pieces, _, hsent, hl, rfl⟩, ?_⟩
  refine not_unmixed_cut hreqs hi (s := s) (q := q) (l := l.flatten) ?_
  simp [tags, hs, stream, Function.comp_def]

/-! ## When requests do not mix -/

/-- Whatever the FIFO makes of their writes, the clients' requests are read unmixed, exactly when no
client sends a long write while another one sends anything. -/
theorem unmixed_iff_short [Fintype ι] (d : PromptDelivery) (stale : ℕ → Byte)
    (reqs : ι → List (Request NameField))
    (hreqs : ∀ i, ∀ r ∈ reqs i, r.Issued) :
    (∀ bytes, Carries reqs bytes → Unmixed d stale reqs bytes) ↔
      ∀ i j, i ≠ j → reqs j ≠ [] → ∀ r ∈ reqs i, ¬ r.Long := by
  constructor
  · intro h i j hij hj r hr hlong
    rcases exists_mixed (d := d) hreqs hij hr hlong hj with ⟨bytes, hcarries, hmixed⟩
    exact hmixed (h bytes hcarries)
  · intro h bytes hcarries
    by_cases hlong : ∃ i, ∃ r ∈ reqs i, r.Long
    · rcases hlong with ⟨i, r, hr, hsize⟩
      apply unmixed_of_alone (fun k r hr => (hreqs k r hr).1) (i := i) _ hcarries
      intro j hj
      by_contra hne
      exact h i j (Ne.symm hj) hne r hr hsize
    · push Not at hlong
      apply unmixed_of_short (fun k r hr => (hreqs k r hr).1) _ hcarries
      intro i r hr
      by_contra hbig
      exact hlong i r hr (((hreqs i r hr).1.long_iff).2 (Nat.not_le.1 hbig))

/-- The requests of `multiple_clients_test`: each client opens `/f1`, writes "AAA!" and closes. -/
def multipleClients (i : Fin 20) : List (Request NameField) :=
  [.open i f1Field 1, .write i 0 4 [0x41, 0x41, 0x41, 0x21], .close i 0]

theorem unmixed_iff_short_multipleClients :
    (∀ bytes, Carries multipleClients bytes → Unmixed .byteWise (fun _ => 0) multipleClients bytes) ↔
      ∀ i j, i ≠ j → multipleClients j ≠ [] → ∀ r ∈ multipleClients i, ¬ r.Long :=
  unmixed_iff_short .byteWise (fun _ => 0) multipleClients (by
    intro i r hr
    have hi : IsClientSession i := ⟨by omega, by exact_mod_cast i.isLt⟩
    simp only [multipleClients, List.mem_cons, List.not_mem_nil, or_false] at hr
    rcases hr with rfl | rfl | rfl
    · exact ⟨⟨hi.isInt, by decide⟩, fun z hz => Option.some.inj hz ▸ hi⟩
    · exact ⟨⟨hi.isInt, by decide, by decide, rfl⟩, fun z hz => Option.some.inj hz ▸ hi⟩
    · exact ⟨⟨hi.isInt, by decide⟩, fun z hz => Option.some.inj hz ▸ hi⟩)

/-- The shortest write that is not atomic. -/
def longWrite : Request NameField :=
  .write 0 0 4080 (List.replicate 4080 0)

/-- Client 0 makes the long write, client 1 unmounts. -/
def longWriteAndUnmount (i : Fin 2) : List (Request NameField) :=
  if i = 0 then [longWrite] else [.unmount 1]

/-- The unmount arrives after two bytes of the long write. -/
theorem longWrite_mixes :
    Carries longWriteAndUnmount
        (longWrite.message.take 2 ++ tfsUnmount 1 ++ longWrite.message.drop 2) ∧
      ¬ Unmixed .byteWise (fun _ => 0) longWriteAndUnmount
        (longWrite.message.take 2 ++ tfsUnmount 1 ++ longWrite.message.drop 2) := by
  -- a message over `PIPE_BUF` bytes may be cut by other writers
  have hbig : pipeBuf < longWrite.message.length := by
    rw [longWrite, Request.message, length_tfsWrite (List.length_replicate)]
    decide
  constructor
  · refine ⟨fun i => if i = 0 then [longWrite.message.take 2, longWrite.message.drop 2]
        else [tfsUnmount 1],
      [longWrite.message.take 2, tfsUnmount 1, longWrite.message.drop 2], ?_, ?_, by simp⟩
    · intro i
      by_cases hi : i = 0
      · simp only [longWriteAndUnmount, if_pos hi]
        exact .cons (.cut 2 hbig) .nil
      · simp only [longWriteAndUnmount, if_neg hi]
        exact sent_map [.unmount 1]
    · refine ⟨[(0, longWrite.message.take 2), (1, tfsUnmount 1), (0, longWrite.message.drop 2)],
        rfl, ?_⟩
      rw [Fin.forall_fin_two]
      exact ⟨rfl, rfl⟩
  · refine not_unmixed_cut (i := 0) (q := .unmount 1) (s := 0) (l := longWrite.message.drop 2) ?_
      (show longWriteAndUnmount 0 = [] ++ longWrite :: [] from rfl) ?_
    · intro i r hr
      by_cases hi : i = 0
      · rw [longWriteAndUnmount, if_pos hi, List.mem_singleton] at hr
        subst hr
        refine ⟨⟨by decide, by decide, by decide, List.length_replicate⟩, ?_⟩
        intro z hz
        rcases Option.some.inj hz with rfl
        constructor <;> decide
      · rw [longWriteAndUnmount, if_neg hi, List.mem_singleton] at hr
        subst hr
        refine ⟨by decide, ?_⟩
        intro z hz
        rcases Option.some.inj hz with rfl
        constructor <;> decide
    · have htake : longWrite.message.take 2 = [tfsOpCodeWrite, 0] := rfl
      rw [htake]
      rfl

end Wire
end TecnicoFs
