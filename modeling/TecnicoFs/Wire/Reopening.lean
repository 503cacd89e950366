import TecnicoFs.Wire.ServerPipe

/-!
# Reopening — which functions the receiver calls

The receiver calls the `read_*` functions of the opcodes that clients wrote, in their order, as long as
the read after a reopening gets a byte and the pipe is never left to nobody with a request in it. The
result of that read is not looked at: at the end of file the `switch` uses what `opcode` happens to hold.
-/

namespace TecnicoFs
namespace Wire
namespace ServerPipe

open Lib

/-! ## The law, and the condition under which it holds -/

/-- The opcode of a request. -/
def opcode {ν : Type} : Request ν → Byte
  | .mount _ => tfsOpCodeMount
  | .unmount _ => tfsOpCodeUnmount
  | .open _ _ _ => tfsOpCodeOpen
  | .close _ _ => tfsOpCodeClose
  | .write _ _ _ _ => tfsOpCodeWrite
  | .read _ _ _ => tfsOpCodeRead
  | .shutdownAfterAllClosed _ => tfsOpCodeShutdownAfterAllClosed

/-- The functions called so far are those of the requests written, in order; between two requests, with
nothing left in the pipe, they are all of them; nothing came of a read that gave no byte; and the receiver
has met no bad opcode. -/
structure ActsOnRead (w : World) : Prop where
  inOrder : w.dispatched <+: w.written.map opcode
  all : w.position.Between → w.fifo.content = [] → w.dispatched = w.written.map opcode
  unread : w.unread = 0
  noExit : w.position ≠ .exited .badOpcode

/-- The read after a reopening gets a byte, and no close by the last process discards any. -/
def Met (w : World) : Label → Prop
  | .detach c => w.fifo.reader = .closed → w.fifo.writers.erase c = [] → w.fifo.content = []
  | .receive _ _ =>
      (w.position = .again → w.fifo.content ≠ [] ∨ w.fifo.writers ≠ []) ∧
        (w.position = .closing → w.fifo.writers = [] → w.fifo.content = [])
  | .fail _ => w.position ≠ .again
  | _ => True

/-! ## The programs take the messages of the client functions -/

theorem message_eq_opcode_cons (r : Request NameField) : r.message = opcode r :: r.message.tail := by
  cases r <;> rfl

/-- A request that is left has its bytes in the pipe. -/
theorem eq_nil_of_stream {rs : List (Request NameField)} (h : stream rs = []) : rs = [] := by
  rcases rs with _ | ⟨r, rs⟩
  · rfl
  · rw [stream_cons, message_eq_opcode_cons] at h
    cases h

theorem takes_readInt {z : ℤ} (h : IsInt z) : Reads.Takes readInt (intBytes z) z := by
  have hread := (Reads.takes_bytes (length_intBytes z)).andThen_done bytesInt
  rwa [bytesInt_intBytes_of_range h.1 h.2] at hread

theorem takes_readSize {n : ℕ} (h : n < 2 ^ 64) : Reads.Takes readSize (leBytes tfsLenSize n) n := by
  have hread := (Reads.takes_bytes (length_leBytes tfsLenSize n)).andThen_done leNat
  have hmod : leNat (leBytes tfsLenSize n) = n := by
    rw [leNat_leBytes]
    exact Nat.mod_eq_of_lt (by simpa [tfsLenSize] using h)
  rwa [hmod] at hread

/-- The function called for a request takes the rest of its message. -/
theorem takes_dispatch {r : Request NameField} (h : r.Typed) :
    ∃ program, dispatch (opcode r) = some program ∧
      Reads.Takes program r.message.tail (r.map NameField.bytes) := by
  cases r with
  | mount path =>
      exact ⟨_, rfl, (Reads.takes_bytes path.length_bytes).andThen_done _⟩
  | unmount session =>
      exact ⟨_, rfl, (takes_readInt h).andThen_done _⟩
  | «open» session name flags =>
      exact ⟨_, rfl, (takes_readInt h.1).andThen
        ((Reads.takes_bytes name.length_bytes).andThen ((takes_readInt h.2).andThen_done _))⟩
  | close session fhandle =>
      exact ⟨_, rfl, (takes_readInt h.1).andThen ((takes_readInt h.2).andThen_done _)⟩
  | write session fhandle len buffer =>
      rcases h with ⟨hsession, hfhandle, hlen, hbuffer⟩
      -- the client sends as many bytes as its `len` says
      have htake : buffer.take len = buffer := by
        rw [← hbuffer, List.take_length]
      refine ⟨_, rfl, (takes_readInt hsession).andThen ((takes_readInt hfhandle).andThen
        ((takes_readSize (by omega)).andThen ?_))⟩
      rw [htake]
      exact (Reads.takes_bytes hbuffer).andThen_done _
  | read session fhandle len =>
      rcases h with ⟨hsession, hfhandle, hlen⟩
      exact ⟨_, rfl, (takes_readInt hsession).andThen ((takes_readInt hfhandle).andThen
        ((takes_readSize hlen).andThen_done _))⟩
  | shutdownAfterAllClosed session =>
      exact ⟨_, rfl, (takes_readInt h).andThen_done _⟩

/-! ## What a step of the receiver can do -/

section Steps

variable {w w' : World} {k : ℕ} {op : Byte}

theorem goOn_of_waits {x : Reads (Request (List Byte)) × List Byte} (h : x.1.Waits x.2) :
    w.goOn x = { w with position := .handling x.1 x.2 } := by
  rcases x with ⟨_ | ⟨n, next⟩, buffer⟩
  · exact absurd h id
  · rfl

@[simp] theorem goOn_fifo (x : Reads (Request (List Byte)) × List Byte) :
    (w.goOn x).fifo = w.fifo := by
  rcases x with ⟨_ | ⟨n, next⟩, buffer⟩ <;> rfl

@[simp] theorem goOn_written (x : Reads (Request (List Byte)) × List Byte) :
    (w.goOn x).written = w.written := by
  rcases x with ⟨_ | ⟨n, next⟩, buffer⟩ <;> rfl

@[simp] theorem goOn_unread (x : Reads (Request (List Byte)) × List Byte) :
    (w.goOn x).unread = w.unread := by
  rcases x with ⟨_ | ⟨n, next⟩, buffer⟩ <;> rfl

@[simp] theorem goOn_put (x : Reads (Request (List Byte)) × List Byte) : (w.goOn x).put = w.put := by
  rcases x with ⟨_ | ⟨n, next⟩, buffer⟩ <;> rfl

@[simp] theorem goOn_first (x : Reads (Request (List Byte)) × List Byte) :
    (w.goOn x).first = w.first := by
  rcases x with ⟨_ | ⟨n, next⟩, buffer⟩ <;> rfl

theorem switch_eq {program : Reads (Request (List Byte))} (h : dispatch op = some program) (first : ℕ) :
    w.switch op first =
      { w with dispatched := w.dispatched ++ [op], first := first }.goOn (program.settle, []) := by
  unfold World.switch
  rw [h]

/-- The receiver opens or closes the pipe; what it has done and what is in the pipe stay. -/
structure Turned (w w' : World) : Prop where
  between : w'.position.Between
  written : w'.written = w.written
  dispatched : w'.dispatched = w.dispatched
  stored : w'.stored = w.stored
  unread : w'.unread = w.unread
  put : w'.put = w.put
  first : w'.first = w.first

/-- The read end is closed only before it is opened. -/
def ClosedOpening (w : World) : Prop :=
  w.fifo.reader = .closed → ∃ again, w.position = .opening again

/-- A system call of the receiver: it opens or closes the pipe, sees the end of file at the head of the
loop or after a reopening, reads an opcode, or reads a part of a field. -/
theorem receive_cases (hw : ClosedOpening w) (h : receive k op w = some w') :
    (w.position.Between ∧ Turned w w' ∧ ClosedOpening w' ∧
      (w'.fifo.content = w.fifo.content ∨ (w.position = .closing ∧ w'.fifo = w.fifo.closeRead))) ∨
    (w.position = .again ∧ w.fifo.content = [] ∧ w.fifo.writers = [] ∧ w' = w.switchUnread op) ∨
    ((w.position = .head ∨ w.position = .again) ∧ ∃ b f, w.fifo.content = b :: f.content ∧
      f.reader = w.fifo.reader ∧ w' = { w with fifo := f }.switch b w.taken) ∨
    (∃ program buffer got f, w.position = .handling program buffer ∧
      w.fifo.content = got ++ f.content ∧ got.length ≤ program.missing buffer ∧
      f.reader = w.fifo.reader ∧
      w' = { w with fifo := f }.goOn (program.deliver buffer got)) := by
  unfold receive at h
  split at h
  -- `open`: at the start, or after a close
  · next again hpos =>
      have hbetween : w.position.Between := by
        rw [hpos]
        trivial
      split at h
      · cases h
        exact Or.inl ⟨hbetween, ⟨hbetween, rfl, rfl, rfl, rfl, rfl, rfl⟩, fun _ => ⟨again, hpos⟩, Or.inl rfl⟩
      · cases h
      · next hopened =>
          cases h
          refine Or.inl ⟨hbetween, ⟨?_, rfl, rfl, rfl, rfl, rfl, rfl⟩, ?_, Or.inl rfl⟩
          · cases again <;> trivial
          · intro hclosed
            change w.fifo.reader = .closed at hclosed
            rw [hopened] at hclosed
            cases hclosed
  -- `read` of an opcode at the head of the loop
  · next hpos =>
      have hbetween : w.position.Between := by
        rw [hpos]
        trivial
      rcases Option.map_eq_some_iff.1 h with ⟨⟨got, f⟩, hread, rfl⟩
      have hreader := (Fifo.read_eq_some hread).2.2.2.2
      rcases Fifo.read_one_cases hread with ⟨rfl, _, _⟩ | ⟨b, rfl, hcontent⟩
      · refine Or.inl ⟨hbetween, ⟨trivial, rfl, rfl, rfl, rfl, rfl, rfl⟩, ?_, Or.inl rfl⟩
        intro hclosed
        rcases hw hclosed with ⟨again, hopening⟩
        rw [hpos] at hopening
        cases hopening
      · exact Or.inr (Or.inr (Or.inl ⟨Or.inl hpos, b, f, hcontent, hreader, rfl⟩))
  -- `close` after the end of file
  · next hpos =>
      have hbetween : w.position.Between := by
        rw [hpos]
        trivial
      cases h
      exact Or.inl ⟨hbetween, ⟨trivial, rfl, rfl, rfl, rfl, rfl, rfl⟩, fun _ => ⟨true, rfl⟩,
        Or.inr ⟨hpos, rfl⟩⟩
  -- `read` of an opcode after the reopening, whose result is not looked at
  · next hpos =>
      rcases Option.map_eq_some_iff.1 h with ⟨⟨got, f⟩, hread, rfl⟩
      have hreader := (Fifo.read_eq_some hread).2.2.2.2
      rcases Fifo.read_one_cases hread with ⟨rfl, hempty, hwriters⟩ | ⟨b, rfl, hcontent⟩
      · exact Or.inr (Or.inl ⟨hpos, hempty, hwriters, rfl⟩)
      · exact Or.inr (Or.inr (Or.inl ⟨Or.inr hpos, b, f, hcontent, hreader, rfl⟩))
  -- `read` in a `read_*` function
  · next program buffer hpos =>
      rcases Option.map_eq_some_iff.1 h with ⟨⟨got, f⟩, hread, rfl⟩
      rcases Fifo.read_eq_some hread with ⟨-, hle, hcontent, -, hreader⟩
      exact Or.inr (Or.inr (Or.inr ⟨program, buffer, got, f, hpos, hcontent, hle, hreader, rfl⟩))
  · cases h

/-- The `switch` makes a call or ends the process, and nothing else. -/
theorem switch_frame (first : ℕ) :
    (w.switch op first).fifo = w.fifo ∧ (w.switch op first).written = w.written ∧
      (w.switch op first).unread = w.unread ∧ (w.switch op first).put = w.put := by
  unfold World.switch
  rcases dispatch op with _ | program
  · exact ⟨rfl, rfl, rfl, rfl⟩
  · exact ⟨goOn_fifo _, goOn_written _, goOn_unread _, goOn_put _⟩

end Steps

/-! ## Whole requests at the front of the pipe -/

/-- The receiver takes whole requests from `front`: of the requests `whole` it has stored the first ones,
it is in the middle of the next one if it is in a call, and `front` holds what is left of them. -/
inductive Whole (w : World) (front : List Byte) (whole : List (Request NameField)) : Prop
  | between (done rs : List (Request NameField)) :
      w.position.Between → (∀ r ∈ rs, r.Typed) → w.dispatched = done.map opcode →
      w.stored.map Stored.request = done.map (Request.map NameField.bytes) →
      whole = done ++ rs → front = stream rs → Whole w front whole
  | handling (done rs : List (Request NameField)) (r : Request NameField)
      (program : Reads (Request (List Byte))) (buffer rest : List Byte) :
      w.position = .handling program buffer → program.Waits buffer →
      program.Takes (buffer ++ rest) (r.map NameField.bytes) → (∀ r ∈ rs, r.Typed) →
      w.dispatched = (done ++ [r]).map opcode →
      w.stored.map Stored.request = done.map (Request.map NameField.bytes) →
      whole = done ++ r :: rs → front = rest ++ stream rs → Whole w front whole
  | exited (why : Exit) :
      w.position = .exited why → why ≠ .badOpcode → w.dispatched <+: whole.map opcode →
      w.stored.map Stored.request <+: whole.map (Request.map NameField.bytes) → Whole w front whole

section Whole

variable {w w' : World} {front tail : List Byte} {whole : List (Request NameField)} {k : ℕ} {op : Byte}

/-- Nothing of this depends on the rest of the world. -/
theorem Whole.congr (h : Whole w front whole) (hpos : w'.position = w.position)
    (hdispatched : w'.dispatched = w.dispatched) (hstored : w'.stored = w.stored) :
    Whole w' front whole := by
  cases h with
  | between done rs hbetween hrs hd hs hwhole hfront =>
      exact .between done rs (hpos ▸ hbetween) hrs (hdispatched.trans hd) (hstored ▸ hs) hwhole hfront
  | handling done rs r program buffer rest hhandling hwaits htakes hrs hd hs hwhole hfront =>
      exact .handling done rs r program buffer rest (hpos.trans hhandling) hwaits htakes hrs
        (hdispatched.trans hd) (hstored ▸ hs) hwhole hfront
  | exited why hexited hwhy hd hs =>
      exact .exited why (hpos.trans hexited) hwhy (hdispatched ▸ hd) (hstored ▸ hs)

/-- A function that was called for the request `r` has its result, or goes on. -/
theorem whole_goOn {done rs : List (Request NameField)} {r : Request NameField} {rest : List Byte}
    {x : Reads (Request (List Byte)) × List Byte} (hd : w.dispatched = (done ++ [r]).map opcode)
    (hs : w.stored.map Stored.request = done.map (Request.map NameField.bytes))
    (hrs : ∀ r ∈ rs, r.Typed) (htakes : x.1.Takes (x.2 ++ rest) (r.map NameField.bytes))
    (hx : (∃ y, x = (.done y, [])) ∨ x.1.Waits x.2) :
    Whole (w.goOn x) (rest ++ stream rs) (done ++ r :: rs) := by
  rcases hx with ⟨y, rfl⟩ | hwaits
  · rcases Reads.takes_done_iff.1 htakes with ⟨hrest, hy⟩
    have hrest : rest = [] := by simpa using hrest
    subst hrest
    refine .between (done ++ [r]) rs trivial hrs hd ?_ (by simp) rfl
    simp [World.goOn, hs, hy]
  · rw [goOn_of_waits hwaits]
    exact .handling done rs r x.1 x.2 rest rfl hwaits htakes hrs hd hs rfl rfl

/-- The `switch` on the opcode of a request calls the function that takes it. -/
theorem whole_switch {done rs : List (Request NameField)} {r : Request NameField} (first : ℕ)
    (hd : w.dispatched = done.map opcode)
    (hs : w.stored.map Stored.request = done.map (Request.map NameField.bytes))
    (hr : r.Typed) (hrs : ∀ r ∈ rs, r.Typed) :
    Whole (w.switch (opcode r) first) (r.message.tail ++ stream rs) (done ++ r :: rs) := by
  rcases takes_dispatch hr with ⟨program, hprogram, htakes⟩
  rw [switch_eq hprogram]
  have hsettled : (∃ y, (program.settle, ([] : List Byte)) = (.done y, [])) ∨ program.settle.Waits [] := by
    rcases Reads.settle_cases program with ⟨y, hy⟩ | hwaits
    · exact Or.inl ⟨y, by rw [hy]⟩
    · exact Or.inr hwaits
  exact whole_goOn (w := { w with dispatched := w.dispatched ++ [opcode r], first := first })
    (by simp [hd]) hs hrs (by simpa using Reads.takes_settle_iff.2 htakes) hsettled

/-- A request is written behind them. -/
theorem Whole.append (h : Whole w front whole) {r : Request NameField} (hr : r.Typed) :
    Whole w (front ++ r.message) (whole ++ [r]) := by
  have htyped : ∀ rs : List (Request NameField), (∀ r ∈ rs, r.Typed) → ∀ r' ∈ rs ++ [r], r'.Typed := by
    intro rs hrs r' hr'
    rcases List.mem_append.1 hr' with hr' | hr'
    · exact hrs r' hr'
    · rw [List.mem_singleton.1 hr']
      exact hr
  have hstream : ∀ rs, stream (rs ++ [r]) = stream rs ++ r.message := by
    intro rs
    simp [stream]
  cases h with
  | between done rs hpos hrs hd hs hwhole hfront =>
      exact .between done (rs ++ [r]) hpos (htyped rs hrs) hd hs (by simp [hwhole])
        (by rw [hfront, hstream])
  | handling done rs r' program buffer rest hpos hwaits htakes hrs hd hs hwhole hfront =>
      exact .handling done (rs ++ [r]) r' program buffer rest hpos hwaits htakes (htyped rs hrs) hd hs
        (by simp [hwhole]) (by rw [hfront, hstream, List.append_assoc])
  | exited why hpos hwhy hd hs =>
      exact .exited why hpos hwhy (hd.trans (by simp)) (hs.trans (by simp))

/-- The receiver reads on from whole requests, unless it is to read an opcode behind them. -/
theorem Whole.receive (hw : Whole w front whole) (hclosed : ClosedOpening w)
    (hcontent : w.fifo.content = front ++ tail) (hmet : Met w (.receive k op)) (hstep : ServerPipe.receive k op w = some w')
    (hfront : w.position = .head ∨ w.position = .again → front = [] → tail = []) :
    ∃ front', Whole w' front' whole ∧ w'.fifo.content = front' ++ tail := by
  rcases receive_cases hclosed hstep with ⟨hpos, hturned, -, hfifo⟩ | ⟨hpos, hempty, hwriters, -⟩ |
    ⟨hpos, b, f, hread, -, rfl⟩ | ⟨program, buffer, got, f, hpos, hread, hle, -, rfl⟩
  · cases hw with
    | between done rs _ hrs hd hs hwhole hfront =>
        refine ⟨front, .between done rs hturned.between hrs (hturned.dispatched.trans hd)
          (by rw [hturned.stored]; exact hs) hwhole hfront, ?_⟩
        rcases hfifo with hsame | ⟨hclosing, hEq⟩
        · rw [hsame, hcontent]
        · rw [hEq, Fifo.closeRead_content (hmet.2 hclosing), hcontent]
    | handling _ _ _ _ _ _ hhandling =>
        rw [hhandling] at hpos
        exact absurd hpos id
    | exited why hexited =>
        rw [hexited] at hpos
        exact absurd hpos id
  · -- the read after the reopening gets nothing
    rcases hmet.1 hpos with hne | hne
    · exact absurd hempty hne
    · exact absurd hwriters hne
  · cases hw with
    | between done rs _ hrs hd hs hwhole hEq =>
        rcases rs with _ | ⟨r, rs⟩
        · have htail := hfront hpos hEq
          rw [hcontent, hEq, htail] at hread
          simp at hread
        · have hmessage := message_eq_opcode_cons r
          rw [hcontent, hEq, stream_cons, hmessage] at hread
          simp only [List.cons_append, List.cons.injEq] at hread
          rcases hread with ⟨rfl, hrest⟩
          refine ⟨r.message.tail ++ stream rs, ?_, ?_⟩
          · rw [hwhole]
            exact whole_switch (w := { w with fifo := f }) w.taken hd hs (hrs r (by simp))
              (fun r' hr' => hrs r' (by simp [hr']))
          · rcases takes_dispatch (hrs r (by simp)) with ⟨program, hprogram, -⟩
            rw [switch_eq hprogram, goOn_fifo, ← hrest]
    | handling _ _ _ _ _ _ hhandling =>
        rw [hhandling] at hpos
        simp at hpos
    | exited why hexited =>
        rw [hexited] at hpos
        simp at hpos
  · cases hw with
    | between _ _ hbetween =>
        rw [hpos] at hbetween
        exact absurd hbetween id
    | handling done rs r program' buffer' rest hhandling hwaits htakes hrs hd hs hwhole hEq =>
        rw [hpos] at hhandling
        cases hhandling
        -- what the call still takes stands at the front, and the part read is of that
        have hlen : got.length ≤ rest.length := hle.trans htakes.missing_le
        rw [hcontent, hEq, List.append_assoc] at hread
        obtain ⟨rest', rfl⟩ : ∃ rest', rest = got ++ rest' := by
          have hprefix : got <+: rest ++ (stream rs ++ tail) := ⟨f.content, hread.symm⟩
          exact (List.prefix_of_prefix_length_le hprefix (List.prefix_append _ _) hlen).imp
            fun _ h => h.symm
        have hrest : f.content = rest' ++ (stream rs ++ tail) := by
          rw [List.append_assoc] at hread
          exact (List.append_cancel_left hread).symm
        refine ⟨rest' ++ stream rs, ?_, by rw [goOn_fifo, hrest, List.append_assoc]⟩
        rw [hwhole]
        exact whole_goOn (w := { w with fifo := f }) hd hs hrs (htakes.deliver hwaits hle)
          (Reads.deliver_cases program buffer got)
    | exited why hexited =>
        rw [hpos] at hexited
        cases hexited

end Whole

/-! ## Every run -/

/-- What is in the pipe is what is left of the requests written. -/
structure Inv (w : World) : Prop where
  whole : Whole w w.fifo.content w.written
  closed : ClosedOpening w
  unread : w.unread = 0
  counted : w.fifo.content.length ≤ w.put

section Run

variable {w w' : World} {front : List Byte} {whole : List (Request NameField)} {k : ℕ} {op : Byte}
  {a : Label}

theorem Whole.exit (h : Whole w front whole) {why : Exit} (hwhy : why ≠ .badOpcode) :
    Whole { w with position := .exited why } front whole := by
  cases h with
  | between done rs hpos hrs hd hs hwhole hfront =>
      refine .exited why rfl hwhy ?_ ?_
      · simp [hd, hwhole]
      · simp [hs, hwhole]
  | handling done rs r program buffer rest hpos hwaits htakes hrs hd hs hwhole hfront =>
      refine .exited why rfl hwhy ?_ ?_
      · rw [hwhole, List.append_cons done r rs, @List.map_append _ _ _ _ rs]
        simp [hd]
      · simp [hs, hwhole]
  | exited why' hpos hwhy' hd hs => exact .exited why rfl hwhy hd hs

/-- The receiver writes nothing. -/
theorem receive_frame (hw : ClosedOpening w) (h : ServerPipe.receive k op w = some w') :
    ClosedOpening w' ∧ w'.written = w.written ∧ w'.put = w.put ∧
      w'.fifo.content.length ≤ w.fifo.content.length ∧
      (w'.unread = w.unread ∨ (w.position = .again ∧ w.fifo.content = [] ∧ w.fifo.writers = [])) := by
  -- at a read the pipe is open
  have hopen : ∀ v : World, (∀ again, w.position ≠ .opening again) → v.fifo.reader = w.fifo.reader →
      ClosedOpening v := by
    intro v hpos hreader hclosed
    rw [hreader] at hclosed
    rcases hw hclosed with ⟨again, hopening⟩
    exact absurd hopening (hpos again)
  rcases receive_cases hw h with ⟨_, hturned, hclosed, hfifo⟩ | ⟨hpos, hempty, hwriters, rfl⟩ |
    ⟨hpos, b, f, hread, hreader, rfl⟩ | ⟨program, buffer, got, f, hpos, hread, _, hreader, rfl⟩
  · refine ⟨hclosed, hturned.written, hturned.put, ?_, Or.inl hturned.unread⟩
    rcases hfifo with hsame | ⟨_, hEq⟩
    · rw [hsame]
    · rw [hEq]
      exact Fifo.length_closeRead_le _
  · rcases @switch_frame { w with unread := w.unread + 1 } op w.taken with
      ⟨hfifo, hwritten, -, hput⟩
    refine ⟨?_, hwritten, hput, ?_, Or.inr ⟨hpos, hempty, hwriters⟩⟩
    · exact hopen _ (by simp [hpos]) (by rw [World.switchUnread, hfifo])
    · rw [World.switchUnread, hfifo]
  · rcases @switch_frame { w with fifo := f } b w.taken with
      ⟨hfifo, hwritten, hunread, hput⟩
    refine ⟨?_, hwritten, hput, ?_, Or.inl hunread⟩
    · refine hopen _ ?_ (by rw [hfifo, hreader])
      rcases hpos with hpos | hpos
      · simp [hpos]
      · simp [hpos]
    · rw [hfifo, hread]
      simp
  · refine ⟨?_, goOn_written _, goOn_put _, ?_, Or.inl (goOn_unread _)⟩
    · exact hopen _ (by simp [hpos]) (by rw [goOn_fifo, hreader])
    · rw [goOn_fifo, hread]
      simp

/-- A call in progress after a system call was in progress before it, or was made by it for the next byte
of the pipe. -/
theorem first_of_receive (hw : ClosedOpening w) (hmet : Met w (.receive k op))
    (h : ServerPipe.receive k op w = some w') {program : Reads (Request (List Byte))} {buffer : List Byte}
    (hpos : w'.position = .handling program buffer) :
    ((∃ program buffer, w.position = .handling program buffer) ∧ w'.first = w.first) ∨
      ((w.position = .head ∨ w.position = .again) ∧ w.fifo.content ≠ [] ∧ w'.first = w.taken) := by
  rcases receive_cases hw h with ⟨_, hturned, -, -⟩ | ⟨hagain, hempty, hwriters, -⟩ |
    ⟨hread, b, f, hcontent, -, rfl⟩ | ⟨program₀, buffer₀, got, f, hhandling, -, -, -, rfl⟩
  · have hbetween := hturned.between
    rw [hpos] at hbetween
    exact absurd hbetween id
  · rcases hmet.1 hagain with hne | hne
    · exact absurd hempty hne
    · exact absurd hwriters hne
  · refine Or.inr ⟨hread, by rw [hcontent]; exact List.cons_ne_nil _ _, ?_⟩
    rcases hdispatch : dispatch b with _ | program₀
    · simp [World.switch, hdispatch] at hpos
    · rw [switch_eq hdispatch, goOn_first]
  · exact Or.inl ⟨⟨program₀, buffer₀, hhandling⟩, goOn_first _⟩

/-- No step closes the read end but the `close(2)` before an `open(2)`. -/
theorem ClosedOpening.step (hw : ClosedOpening w) (hstep : clients.step w a w') : ClosedOpening w' := by
  rcases hstep with ⟨_, hstep⟩
  cases a with
  | attach c =>
      rcases Option.map_eq_some_iff.1 hstep with ⟨f, hopen, rfl⟩
      intro hclosed
      change f.reader = .closed at hclosed
      rw [(Fifo.openWrite_eq_some hopen).2.2] at hclosed
      cases hclosed
  | write c r =>
      rcases Option.map_eq_some_iff.1 hstep with ⟨f, hwrite, rfl⟩
      intro hclosed
      exact hw ((Fifo.write_eq_some hwrite).2.2 ▸ hclosed)
  | detach c =>
      rcases Option.map_eq_some_iff.1 hstep with ⟨f, hclose, rfl⟩
      intro hclosed
      exact hw (Fifo.closeWrite_reader hclose ▸ hclosed)
  | receive k op => exact (receive_frame hw hstep).1
  | fail op =>
      have hfail : fail op w = some w' := hstep
      -- at a read the pipe is open, and it stays so
      have hopen : (∀ again, w.position ≠ .opening again) → w'.fifo = w.fifo → ClosedOpening w' := by
        intro hpos hfifo hclosed
        rcases hw (hfifo ▸ hclosed) with ⟨again, hopening⟩
        exact absurd hopening (hpos again)
      unfold fail at hfail
      split at hfail
      · next hhead =>
          cases hfail
          exact hopen (by simp [hhead]) rfl
      · next hagain =>
          cases hfail
          exact hopen (by simp [hagain]) (switch_frame w.taken).1
      · next hhandling =>
          cases hfail
          exact hopen (by simp [hhandling]) rfl
      · cases hfail

/-- Every step keeps the invariant, as long as no close discards bytes and each read after a reopening
gets one. -/
theorem Inv.step (hw : Inv w) (hmet : Met w a) (hstep : clients.step w a w') : Inv w' := by
  have hclosed := hw.closed.step hstep
  rcases hstep with ⟨htyped, hstep⟩
  cases a with
  | attach c =>
      rcases Option.map_eq_some_iff.1 hstep with ⟨f, hopen, rfl⟩
      have hcontent := (Fifo.openWrite_eq_some hopen).1
      refine ⟨?_, hclosed, hw.unread, ?_⟩
      · rw [hcontent]
        exact hw.whole.congr rfl rfl rfl
      · rw [hcontent]
        exact hw.counted
  | write c r =>
      rcases Option.map_eq_some_iff.1 hstep with ⟨f, hwrite, rfl⟩
      have hcontent := (Fifo.write_eq_some hwrite).1
      refine ⟨?_, hclosed, hw.unread, ?_⟩
      · rw [hcontent]
        exact (hw.whole.append htyped).congr rfl rfl rfl
      · rw [hcontent, List.length_append]
        exact Nat.add_le_add_right hw.counted _
  | detach c =>
      rcases Option.map_eq_some_iff.1 hstep with ⟨f, hclose, rfl⟩
      have hcontent := Fifo.closeWrite_content hclose hmet
      refine ⟨?_, hclosed, hw.unread, ?_⟩
      · rw [hcontent]
        exact hw.whole.congr rfl rfl rfl
      · rw [hcontent]
        exact hw.counted
  | receive k op =>
      rcases hw.whole.receive hw.closed (List.append_nil _).symm hmet hstep (fun _ _ => rfl) with
        ⟨front', hwhole, hcontent⟩
      rcases receive_frame hw.closed hstep with ⟨_, hwritten, hput, hle, hunread⟩
      rw [List.append_nil] at hcontent
      refine ⟨by rw [hcontent, hwritten]; exact hwhole, hclosed, ?_, ?_⟩
      · -- the only step without a byte is excluded by the condition
        rcases hunread with hsame | ⟨hagain, hempty, hwriters⟩
        · rw [hsame, hw.unread]
        · rcases hmet.1 hagain with hne | hne
          · exact absurd hempty hne
          · exact absurd hwriters hne
      · rw [hput]
        exact hle.trans hw.counted
  | fail op =>
      have hfail : fail op w = some w' := hstep
      unfold fail at hfail
      split at hfail
      · next hhead =>
          cases hfail
          exact ⟨hw.whole.exit (by decide), hclosed, hw.unread, hw.counted⟩
      · next hagain => exact absurd hagain hmet
      · next hhandling =>
          cases hfail
          exact ⟨hw.whole.exit (by decide), hclosed, hw.unread, hw.counted⟩
      · cases hfail

theorem Inv.actsOnRead (hw : Inv w) : ActsOnRead w := by
  cases hw.whole with
  | between done rs hpos hrs hd hs hwhole hfront =>
      refine ⟨?_, ?_, hw.unread, ?_⟩
      · rw [hd, hwhole, List.map_append]
        exact List.prefix_append _ _
      · intro _ hempty
        have hnil : rs = [] := eq_nil_of_stream (hfront.symm.trans hempty)
        rw [hd, hwhole, hnil, List.append_nil]
      · intro hexited
        rw [hexited] at hpos
        exact hpos
  | handling done rs r program buffer rest hpos hwaits htakes hrs hd hs hwhole hfront =>
      refine ⟨?_, ?_, hw.unread, ?_⟩
      · rw [hd, hwhole, List.append_cons done r rs, @List.map_append _ _ _ _ rs]
        exact List.prefix_append _ _
      · intro hbetween
        rw [hpos] at hbetween
        exact absurd hbetween id
      · intro hexited
        rw [hpos] at hexited
        cases hexited
  | exited why hpos hwhy hd hs =>
      refine ⟨hd, ?_, hw.unread, ?_⟩
      · intro hbetween
        rw [hpos] at hbetween
        exact absurd hbetween id
      · intro hexited
        rw [hpos] at hexited
        cases hexited
        exact hwhy rfl

/-- Between two requests, what was dispatched is short of what was written if the pipe holds bytes. -/
theorem Inv.dispatched_ne (hw : Inv w) (hpos : w.position.Between) (hne : w.fifo.content ≠ []) :
    w.dispatched ≠ w.written.map opcode := by
  cases hw.whole with
  | between done rs _ hrs hd hs hwhole hfront =>
      -- bytes in the pipe are those of a request that is not dispatched
      rcases rs with _ | ⟨r, rs⟩
      · exact absurd hfront hne
      · intro hEq
        have hlen := congrArg List.length hEq
        rw [hd, hwhole] at hlen
        simp at hlen
  | handling done rs r program buffer rest hhandling =>
      rw [hhandling] at hpos
      exact absurd hpos id
  | exited why hexited =>
      rw [hexited] at hpos
      exact absurd hpos id

/-- A step that discards bytes, or goes on without one, breaks the law. -/
theorem Inv.met (hw : Inv w) (hstep : perform a w = some w') (hacts : ActsOnRead w') : Met w a := by
  have hswitch : ∀ op, (w.switchUnread op).unread ≠ 0 := by
    intro op
    rw [World.switchUnread, (switch_frame _).2.2.1]
    exact Nat.succ_ne_zero _
  -- a discard leaves the pipe empty, and the opcodes in it were not dispatched
  have hkept : w.position.Between → w'.position.Between → w'.fifo.content = [] →
      w'.written = w.written → w'.dispatched = w.dispatched → w.fifo.content = [] := by
    intro hpos hpos' hempty hwritten hdispatched
    by_contra hne
    have hall := hacts.all hpos' hempty
    rw [hwritten, hdispatched] at hall
    exact hw.dispatched_ne hpos hne hall
  cases a with
  | attach c => trivial
  | write c r => trivial
  | detach c =>
      intro hclosed hlast
      rcases Option.map_eq_some_iff.1 hstep with ⟨f, hclose, rfl⟩
      rcases hw.closed hclosed with ⟨again, hopening⟩
      have hbetween : w.position.Between := by
        rw [hopening]
        trivial
      exact hkept hbetween hbetween (Fifo.closeWrite_last hclose hclosed hlast) rfl rfl
  | receive k op =>
      constructor
      · intro hagain
        by_contra hnot
        have hempty : w.fifo.content = [] ∧ w.fifo.writers = [] := by
          constructor
          · by_contra hne
            exact hnot (Or.inl hne)
          · by_contra hne
            exact hnot (Or.inr hne)
        have hEq : ServerPipe.receive k op w = some (w.switchUnread op) := by
          simp [ServerPipe.receive, hagain, Fifo.read, hempty]
        rw [show w' = w.switchUnread op from Option.some.inj (hstep.symm.trans hEq)] at hacts
        exact hswitch op hacts.unread
      · intro hclosing hlast
        have hEq : ServerPipe.receive k op w =
            some { w with fifo := w.fifo.closeRead, position := .opening true } := by
          simp [ServerPipe.receive, hclosing]
        have hbetween : w.position.Between := by
          rw [hclosing]
          trivial
        cases hstep.symm.trans hEq
        exact hkept hbetween trivial (Fifo.closeRead_last hlast) rfl rfl
  | fail op =>
      intro hagain
      have hEq : fail op w = some (w.switchUnread op) := by
        simp [fail, hagain]
      rw [show w' = w.switchUnread op from Option.some.inj (hstep.symm.trans hEq)] at hacts
      exact hswitch op hacts.unread

theorem inv_start : Inv World.start :=
  ⟨.between [] [] trivial (by simp) rfl rfl rfl rfl, fun _ => ⟨false, rfl⟩, rfl, Nat.zero_le _⟩

theorem inv_of_met {h : List (World × Label)} (he : clients.Execution h w)
    (hC : System.EachStep Met h) : System.Always Inv h w :=
  he.always_of_eachStep (C := Met) (fun w hw => by rw [hw]; exact inv_start)
    (fun _ _ _ hw hmet hstep => hw.step hmet hstep) hC

/-- The receiver acts on the opcodes it has read, at all times of a run, exactly if each read after a
reopening gets a byte and no close by the last process discards any. -/
theorem actsOnRead_iff_met {h : List (World × Label)} {w : World} (he : clients.Execution h w) :
    System.Always ActsOnRead h w ↔ System.EachStep Met h := by
  constructor
  · intro hacts
    -- along the run: the steps so far met the condition, so the invariant holds before the next one
    induction he with
    | start h0 => simp [System.EachStep]
    | next he hstep ih =>
        rcases System.always_cons.1 hacts with ⟨hlast, hbefore⟩
        have hC := ih hbefore
        exact System.eachStep_cons.2 ⟨(inv_of_met he hC).1.met hstep.2 hlast, hC⟩
  · intro hC
    have hinv := inv_of_met he hC
    exact ⟨hinv.1.actsOnRead, fun p hp => (hinv.2 p hp).actsOnRead⟩

end Run

/-! ## One client, and one that comes and goes -/

/-- A client opens the pipe and unmounts; the receiver reads the request and sees the end of file after it. -/
def oneClient : List Label :=
  [.receive 0 0, .attach 1, .receive 0 0, .write 1 (.unmount 0), .receive 0 0, .receive 9 0, .detach 1,
    .receive 0 0]

/-- A client opens and closes the pipe, and another one does so after the reopening. -/
def twoVisits : List Label :=
  [.receive 0 0, .attach 1, .receive 0 0, .detach 1, .receive 0 0, .receive 0 0, .receive 0 0, .attach 2,
    .receive 0 0, .detach 2, .receive 0 tfsOpCodeOpen]

instance : DecidablePred Label.Typed
  | .attach _ => inferInstanceAs (Decidable True)
  | .write _ r => inferInstanceAs (Decidable r.Typed)
  | .detach _ => inferInstanceAs (Decidable True)
  | .receive _ _ => inferInstanceAs (Decidable True)
  | .fail _ => inferInstanceAs (Decidable True)

/-- `Met`, as a test. -/
def met (w : World) : Label → Bool
  | .detach c => w.fifo.reader ≠ .closed || w.fifo.writers.erase c ≠ [] || w.fifo.content = []
  | .receive _ _ =>
      match w.position with
      | .again => w.fifo.content ≠ [] || w.fifo.writers ≠ []
      | .closing => w.fifo.writers ≠ [] || w.fifo.content = []
      | _ => true
  | .fail _ =>
      match w.position with
      | .again => false
      | _ => true
  | _ => true

theorem met_of_met {w : World} {a : Label} (h : met w a = true) : Met w a := by
  cases a with
  | attach c => trivial
  | write c r => trivial
  | detach c =>
      intro hclosed hlast
      simpa [met, hclosed, hlast] using h
  | receive k op =>
      constructor
      · intro hagain
        simpa [met, hagain] using h
      · intro hclosing hlast
        simpa [met, hclosing, hlast] using h
  | fail op =>
      intro hagain
      simp [met, hagain] at h

/-- Perform a step of clients that pass arguments of the right types, for runs that are evaluated. -/
def performTyped (a : Label) (w : World) : Option World :=
  if a.Typed then perform a w else none

theorem step_of_performTyped (a : Label) (w w' : World) (h : performTyped a w = some w') :
    clients.step w a w' := by
  unfold performTyped at h
  split at h
  · next htyped => exact ⟨htyped, h⟩
  · cases h

theorem performAll_oneClient :
    (System.performAll (System.record performTyped) oneClient ([], World.start)).any
      (fun x => (∀ p ∈ x.1, met p.1 p.2 = true) ∧ x.2.dispatched = [tfsOpCodeUnmount]) = true := by
  decide +kernel

theorem actsOnRead_iff_met_oneClient : ∃ h w, clients.Execution h w ∧
    w.dispatched = [tfsOpCodeUnmount] ∧ System.EachStep Met h ∧
      (System.Always ActsOnRead h w ↔ System.EachStep Met h) := by
  rcases System.execution_of_any performTyped step_of_performTyped rfl performAll_oneClient with
    ⟨h, w, he, _, hmet, hlast⟩
  exact ⟨h, w, he, hlast, fun p hp => met_of_met (hmet p hp), actsOnRead_iff_met he⟩

theorem performAll_twoVisits :
    (System.performAll (System.record performTyped) twoVisits ([], World.start)).any
      (fun x => x.2.dispatched = [tfsOpCodeOpen] ∧ x.2.written.map opcode = []) = true := by
  decide +kernel

/-- Nobody wrote a byte, and the receiver calls `read_open`. -/
theorem secondEndOfFile_dispatches :
    ∃ h w, clients.Execution h w ∧ w.written = [] ∧ ¬ ActsOnRead w := by
  rcases System.execution_of_any performTyped step_of_performTyped rfl performAll_twoVisits with
    ⟨h, w, he, _, hcalled, hnone⟩
  refine ⟨h, w, he, List.map_eq_nil_iff.1 hnone, ?_⟩
  intro hacts
  have hprefix := hacts.inOrder
  rw [hcalled, hnone] at hprefix
  simp at hprefix

end ServerPipe
end Wire
end TecnicoFs
