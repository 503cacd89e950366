import TecnicoFs.Wire.Reopening

/-!
# Cut short — a client that disappears in the middle of a message

A client writes the first bytes of its message, fewer than all, and disappears. If it wrote one, the
`read_*` function called for it never returns at the end of file, and returns only with bytes of other
clients: `read_from_pipe` counts the bytes it has and nothing else. The time after the cut is an infinite
run, in which the other clients do what they like.
-/

namespace TecnicoFs
namespace Wire
namespace ServerPipe

open Lib

/-! ## The cut -/

/-- Client `c` writes the first `n` bytes of its message and disappears. -/
def vanish (c n : ℕ) (r : Request NameField) (w : World) : Option World :=
  (w.fifo.write c (r.message.take n)).bind fun f =>
    (f.closeWrite c).map fun g => { w with fifo := g, put := w.put + (r.message.take n).length }

/-- One of the `n` bytes from `a` on. -/
def InCut (a n byte : ℕ) : Prop :=
  a ≤ byte ∧ byte < a + n

instance (a n byte : ℕ) : Decidable (InCut a n byte) :=
  inferInstanceAs (Decidable (_ ∧ _))

/-- The receiver is in the call that one of these bytes began. -/
def Calling (a n : ℕ) (w : World) : Prop :=
  (∃ program buffer, w.position = .handling program buffer) ∧ InCut a n w.first

/-- The requests stored, but those of the cut message. -/
def others (a n : ℕ) (w : World) : List (Request (List Byte)) :=
  (w.stored.filter fun x => ¬ InCut a n x.first).map Stored.request

/-- The cut message, of `n` bytes from `a` on, is contained: the call that reads it returns, and stores
nothing that is made of later bytes; all other requests are decoded as they were sent. -/
structure Contained (a n : ℕ) (state : ℕ → World) : Prop where
  returns : ∀ i, Calling a n (state i) → ∃ j, i < j ∧ (state j).position.Between
  ownBytes : ∀ i, ∀ x ∈ (state i).stored, InCut a n x.first → x.last ≤ a + n
  decoded : ∀ i, others a n (state i) <+: (state i).written.map (Request.map NameField.bytes)
  all : ∀ i, (state i).position.Between → (state i).fifo.content = [] →
    others a n (state i) = (state i).written.map (Request.map NameField.bytes)

section Cut

variable {w w' : World} {a n c k : ℕ} {r : Request NameField} {op : Byte} {l : Label}

theorem vanish_eq_some (h : vanish c n r w = some w') :
    w'.fifo.content = w.fifo.content ++ r.message.take n ∧ w'.fifo.reader = w.fifo.reader ∧
      w.fifo.reader ≠ .closed ∧ w'.position = w.position ∧ w'.written = w.written ∧
      w'.dispatched = w.dispatched ∧ w'.stored = w.stored ∧ w'.unread = w.unread ∧
      w'.first = w.first ∧ w'.put = w.put + (r.message.take n).length := by
  rcases Option.bind_eq_some_iff.1 h with ⟨f, hwrite, hrest⟩
  rcases Option.map_eq_some_iff.1 hrest with ⟨g, hclose, rfl⟩
  rcases Fifo.write_eq_some hwrite with ⟨hcontent, -, hreader⟩
  have hopen : w.fifo.reader ≠ .closed := by
    unfold Fifo.write at hwrite
    split at hwrite
    · next hboth => exact hboth.1
    · cases hwrite
  have hkept := Fifo.closeWrite_content hclose fun hclosed _ => absurd (hreader.symm.trans hclosed) hopen
  exact ⟨hkept.trans hcontent, (Fifo.closeWrite_reader hclose).trans hreader, hopen, rfl, rfl, rfl, rfl, rfl,
    rfl, rfl⟩

/-! ## Nothing written -/

theorem not_inCut_zero {byte : ℕ} : ¬ InCut a 0 byte := by
  rintro ⟨hle, hlt⟩
  omega

theorem others_zero : others a 0 w = w.stored.map Stored.request := by
  unfold others
  congr 1
  apply List.filter_eq_self.2
  intro x _
  simp [not_inCut_zero]

/-- The requests stored are the first of those written, and all of them when the pipe is empty. -/
theorem Inv.stored (hw : Inv w) :
    w.stored.map Stored.request <+: w.written.map (Request.map NameField.bytes) ∧
      (w.position.Between → w.fifo.content = [] →
        w.stored.map Stored.request = w.written.map (Request.map NameField.bytes)) := by
  cases hw.whole with
  | between done rs hpos hrs hd hs hwhole hfront =>
      refine ⟨?_, ?_⟩
      · rw [hs, hwhole, List.map_append]
        exact List.prefix_append _ _
      · intro _ hempty
        have hnil : rs = [] := eq_nil_of_stream (hfront.symm.trans hempty)
        rw [hs, hwhole, hnil, List.append_nil]
  | handling done rs r program buffer rest hpos hwaits htakes hrs hd hs hwhole hfront =>
      refine ⟨?_, ?_⟩
      · rw [hs, hwhole, List.map_append]
        exact List.prefix_append _ _
      · intro hbetween
        rw [hpos] at hbetween
        exact absurd hbetween id
  | exited why hpos hwhy hd hs =>
      refine ⟨hs, ?_⟩
      intro hbetween
      rw [hpos] at hbetween
      exact absurd hbetween id

theorem Inv.vanish_zero (hw : Inv w) (h : vanish c 0 r w = some w') : Inv w' := by
  rcases vanish_eq_some h with ⟨hcontent, hreader, _, hpos, hwritten, hd, hs, hunread, _, hput⟩
  rw [List.take_zero, List.append_nil] at hcontent
  refine ⟨?_, ?_, hunread.trans hw.unread, ?_⟩
  · rw [hcontent, hwritten]
    exact hw.whole.congr hpos hd hs
  · intro hclosed
    rw [hpos]
    exact hw.closed (hreader.symm.trans hclosed)
  · rw [hcontent, hput]
    exact hw.counted

theorem contained_of_nothing_written (hw : Inv w) (ρ : clients.Path w)
    (hmet : ∀ i, Met (ρ.state i) (ρ.label i)) : Contained a 0 ρ.state := by
  have hinv : ∀ i, Inv (ρ.state i) := by
    intro i
    have hstart : Inv (ρ.state 0) := by
      rw [ρ.start]
      exact hw
    exact ρ.from_of_step (fun j hj => hj.step (hmet j) (ρ.step j)) hstart i (Nat.zero_le i)
  refine ⟨?_, ?_, ?_, ?_⟩
  · rintro i ⟨-, hfirst⟩
    exact absurd hfirst not_inCut_zero
  · intro i x _ hfirst
    exact absurd hfirst not_inCut_zero
  · intro i
    rw [others_zero]
    exact (hinv i).stored.1
  · intro i hpos hempty
    rw [others_zero]
    exact (hinv i).stored.2 hpos hempty

/-! ## Some bytes written -/

/-- A call in progress began before the byte `b`. -/
def Begun (b : ℕ) (w : World) : Prop :=
  ∀ program buffer, w.position = .handling program buffer → w.first < b

/-- What is not a system call of the receiver, or its failed read, at most puts bytes into the pipe. -/
theorem client_cases (hmet : Met w l) (hstep : clients.step w l w') :
    (∃ k op, l = .receive k op ∧ ServerPipe.receive k op w = some w') ∨
    (∃ why, w'.position = .exited why ∧ w'.put = w.put) ∨
    (∃ m, w'.position = w.position ∧ w'.dispatched = w.dispatched ∧ w'.stored = w.stored ∧
      w'.first = w.first ∧ w'.fifo.content = w.fifo.content ++ m ∧ w'.put = w.put + m.length) := by
  rcases hstep with ⟨_, hstep⟩
  cases l with
  | attach c =>
      rcases Option.map_eq_some_iff.1 hstep with ⟨f, hopen, rfl⟩
      exact Or.inr (Or.inr ⟨[], rfl, rfl, rfl, rfl, by simp [(Fifo.openWrite_eq_some hopen).1], rfl⟩)
  | write c r =>
      rcases Option.map_eq_some_iff.1 hstep with ⟨f, hwrite, rfl⟩
      exact Or.inr (Or.inr ⟨r.message, rfl, rfl, rfl, rfl, (Fifo.write_eq_some hwrite).1, rfl⟩)
  | detach c =>
      rcases Option.map_eq_some_iff.1 hstep with ⟨f, hclose, rfl⟩
      exact Or.inr (Or.inr ⟨[], rfl, rfl, rfl, rfl, by simp [Fifo.closeWrite_content hclose hmet], rfl⟩)
  | receive k op => exact Or.inl ⟨k, op, rfl, hstep⟩
  | fail op =>
      have hfail : fail op w = some w' := hstep
      unfold fail at hfail
      split at hfail
      · cases hfail
        exact Or.inr (Or.inl ⟨_, rfl, rfl⟩)
      · next hagain => exact absurd hagain hmet
      · cases hfail
        exact Or.inr (Or.inl ⟨_, rfl, rfl⟩)
      · cases hfail

/-- Calls begin with the next byte of the pipe, and with no other. -/
theorem Begun.step {b b' : ℕ} (h : Begun b w) (hclosed : ClosedOpening w) (hmet : Met w l)
    (hstep : clients.step w l w') (hle : b ≤ b')
    (hnext : w.position = .head ∨ w.position = .again → w.fifo.content ≠ [] → w.taken < b') :
    Begun b' w' := by
  intro program buffer hpos
  rcases client_cases hmet hstep with ⟨k, op, rfl, hreceive⟩ | ⟨why, hexited, -⟩ |
    ⟨m, hsame, -, -, hfirst, -, -⟩
  · rcases first_of_receive hclosed hmet hreceive hpos with ⟨⟨program₀, buffer₀, hhandling⟩, hfirst⟩ |
      ⟨hread, hne, hfirst⟩
    · rw [hfirst]
      exact (h program₀ buffer₀ hhandling).trans_le hle
    · rw [hfirst]
      exact hnext hread hne
  · rw [hexited] at hpos
    cases hpos
  · rw [hfirst]
    exact (h program buffer (hsame.symm.trans hpos)).trans_le hle

/-- The receiver has whole requests to read before the cut message, whose first byte is `a`. -/
structure Before (r : Request NameField) (n a : ℕ) (w : World) : Prop where
  closed : ClosedOpening w
  begun : Begun a w
  inFront : ∃ front tail whole, Whole w front whole ∧
    w.fifo.content = front ++ (r.message.take n ++ tail) ∧
      w.put = a + (r.message.take n ++ tail).length ∧ front.length ≤ a

/-- The receiver has come to the cut message, of `n` bytes from `a` on. -/
inductive Stuck (n a : ℕ) (w : World) : Prop
  /-- The call waits; it can find `left` in the pipe, but `lost` was never written. -/
  | waiting (program : Reads (Request (List Byte))) (buffer left lost tail : List Byte)
      (x : Request (List Byte)) :
      w.position = .handling program buffer → program.Waits buffer →
      program.Takes (buffer ++ (left ++ lost)) x → lost ≠ [] → w.fifo.content = left ++ tail →
      w.put = a + n + tail.length → w.first = a → Stuck n a w
  /-- The call has taken bytes of other clients. -/
  | beyond (program : Reads (Request (List Byte))) (buffer : List Byte) :
      w.position = .handling program buffer → program.Waits buffer → w.first = a → a + n < w.taken →
      Stuck n a w
  /-- The call has stored a request that is made of them. -/
  | returned (x : Stored) : x ∈ w.stored → x.first = a → a + n < x.last → Stuck n a w
  | exited (why : Exit) : w.position = .exited why → Stuck n a w

theorem mem_goOn_stored {x : Stored} (hx : x ∈ w.stored) (y : Reads (Request (List Byte)) × List Byte) :
    x ∈ (w.goOn y).stored := by
  rcases y with ⟨_ | ⟨n, next⟩, buffer⟩
  · simp [World.goOn, hx]
  · exact hx

/-- What is stored stays. -/
theorem stored_of_receive (hclosed : ClosedOpening w) (hstep : ServerPipe.receive k op w = some w') :
    ∀ x ∈ w.stored, x ∈ w'.stored := by
  intro x hx
  have hswitch : ∀ (v : World) (b : Byte) (first : ℕ), v.stored = w.stored → x ∈ (v.switch b first).stored := by
    intro v b first hsame
    rw [← hsame] at hx
    rcases hdispatch : dispatch b with _ | program
    · simpa [World.switch, hdispatch] using hx
    · rw [switch_eq hdispatch]
      exact mem_goOn_stored (w := { v with dispatched := v.dispatched ++ [b], first := first }) hx _
  rcases receive_cases hclosed hstep with ⟨_, hturned, -, -⟩ | ⟨_, _, _, rfl⟩ | ⟨_, b, f, _, _, rfl⟩ |
    ⟨program, buffer, got, f, _, _, _, _, rfl⟩
  · rw [hturned.stored]
    exact hx
  · exact hswitch _ _ _ rfl
  · exact hswitch _ _ _ rfl
  · exact mem_goOn_stored (w := { w with fifo := f }) hx _

/-- A call that has taken bytes of other clients goes on, or stores what it has. -/
theorem stuck_goOn {x : Reads (Request (List Byte)) × List Byte} (hfirst : w.first = a)
    (htaken : a + n < w.taken) (hx : (∃ y, x = (.done y, [])) ∨ x.1.Waits x.2) :
    Stuck n a (w.goOn x) := by
  rcases hx with ⟨y, rfl⟩ | hwaits
  · exact .returned ⟨w.first, w.taken, y⟩ (by simp [World.goOn]) hfirst htaken
  · rw [goOn_of_waits hwaits]
    exact .beyond x.1 x.2 rfl hwaits hfirst htaken

/-- The next part of a field never completes a request whose last bytes were not written. -/
theorem Stuck.receive (h : Stuck n a w) (hclosed : ClosedOpening w)
    (hstep : ServerPipe.receive k op w = some w') : Stuck n a w' := by
  -- in a call the next system call is a read for the field
  have hread : ∀ program buffer, w.position = .handling program buffer →
      ∃ got f, w.fifo.content = got ++ f.content ∧ got.length ≤ program.missing buffer ∧
        w' = { w with fifo := f }.goOn (program.deliver buffer got) := by
    intro program buffer hpos
    rcases receive_cases hclosed hstep with ⟨hbetween, -⟩ | ⟨hagain, -⟩ | ⟨hhead, -⟩ |
      ⟨program₀, buffer₀, got, f, hhandling, hcontent, hle, -, hEq⟩
    · rw [hpos] at hbetween
      exact absurd hbetween id
    · rw [hpos] at hagain
      cases hagain
    · simp [hpos] at hhead
    · rw [hpos] at hhandling
      cases hhandling
      exact ⟨got, f, hcontent, hle, hEq⟩
  cases h with
  | waiting program buffer left lost tail x hpos hwaits htakes hlost hcontent hput hfirst =>
      rcases hread program buffer hpos with ⟨got, f, hgot, hle, rfl⟩
      rw [hcontent] at hgot
      have hlen : left.length + tail.length = got.length + f.content.length := by
        simpa using congrArg List.length hgot
      by_cases hown : got.length ≤ left.length
      · -- all of it is of the message, and the bytes that are lost are still missing
        obtain ⟨left', rfl⟩ : ∃ left', left = got ++ left' :=
          (List.prefix_of_prefix_length_le ⟨f.content, hgot.symm⟩ (List.prefix_append left tail)
            hown).imp fun _ h => h.symm
        have hrest : f.content = left' ++ tail := by
          rw [List.append_assoc] at hgot
          exact (List.append_cancel_left hgot).symm
        rw [List.append_assoc] at htakes
        have htakes' := htakes.deliver hwaits hle
        rcases Reads.deliver_cases program buffer got with ⟨y, hy⟩ | hwaits'
        · rw [hy] at htakes'
          have hnil := (Reads.takes_done_iff.1 htakes').1
          simp [hlost] at hnil
        · rw [goOn_of_waits hwaits']
          exact .waiting _ _ left' lost tail x rfl hwaits' htakes' hlost hrest hput hfirst
      · refine stuck_goOn (w := { w with fifo := f }) hfirst ?_ (Reads.deliver_cases program buffer got)
        simp only [World.taken, hput]
        omega
  | beyond program buffer hpos hwaits hfirst htaken =>
      rcases hread program buffer hpos with ⟨got, f, hgot, hle, rfl⟩
      refine stuck_goOn (w := { w with fifo := f }) hfirst ?_ (Reads.deliver_cases program buffer got)
      have hlen : w.fifo.content.length = got.length + f.content.length := by
        rw [hgot, List.length_append]
      simp only [World.taken] at htaken ⊢
      omega
  | returned x hx hfirst hlast =>
      refine .returned x ?_ hfirst hlast
      exact stored_of_receive hclosed hstep x hx
  | exited why hpos =>
      simp [ServerPipe.receive, hpos] at hstep

theorem Stuck.step (h : Stuck n a w) (hclosed : ClosedOpening w) (hmet : Met w l)
    (hstep : clients.step w l w') : Stuck n a w' := by
  rcases client_cases hmet hstep with ⟨k, op, rfl, hreceive⟩ | ⟨why, hexited, -⟩ |
    ⟨m, hpos', -, hstored, hfirst', hcontent', hput'⟩
  · exact h.receive hclosed hreceive
  · exact .exited why hexited
  · cases h with
    | waiting program buffer left lost tail x hpos hwaits htakes hlost hcontent hput hfirst =>
        refine .waiting program buffer left lost (tail ++ m) x (hpos'.trans hpos) hwaits htakes hlost ?_ ?_
          (hfirst'.trans hfirst)
        · rw [hcontent', hcontent, List.append_assoc]
        · rw [hput', hput, List.length_append, Nat.add_assoc]
    | beyond program buffer hpos hwaits hfirst htaken =>
        refine .beyond program buffer (hpos'.trans hpos) hwaits (hfirst'.trans hfirst) ?_
        simp only [World.taken, hput', hcontent', List.length_append] at htaken ⊢
        omega
    | returned x hx hfirst hlast => exact .returned x (hstored ▸ hx) hfirst hlast
    | exited why hpos => exact .exited why (hpos'.trans hpos)

theorem receive_of_opcode {b : Byte} {rest : List Byte} (hpos : w.position = .head ∨ w.position = .again)
    (hcontent : w.fifo.content = b :: rest) :
    ServerPipe.receive k op w =
      some ({ w with fifo := { w.fifo with content := rest } }.switch b w.taken) := by
  have hread : w.fifo.read tfsOpcodeSize k = some ([b], { w.fifo with content := rest }) := by
    simp [Fifo.read, hcontent]
  rcases hpos with hhead | hagain
  · simp [ServerPipe.receive, hhead, hread]
  · simp [ServerPipe.receive, hagain, hread]

/-- The read of the opcode of the cut message begins a call that lacks the bytes which were not written. -/
theorem stuck_of_opcode {tail : List Byte} (hr : r.Typed) (hpos : 0 < n) (hn : n < r.message.length)
    (hhead : w.position = .head ∨ w.position = .again)
    (hcontent : w.fifo.content = r.message.take n ++ tail)
    (hput : w.put = a + (r.message.take n ++ tail).length)
    (hstep : ServerPipe.receive k op w = some w') : Stuck n a w' := by
  have hmessage := message_eq_opcode_cons r
  have hcut : (r.message.take n).length = n := by
    rw [List.length_take]
    omega
  have htake : r.message.take n = opcode r :: r.message.tail.take (n - 1) := by
    obtain ⟨n, rfl⟩ : ∃ n', n = n' + 1 := ⟨n - 1, by omega⟩
    rw [hmessage, List.take_succ_cons]
    simp
  rcases takes_dispatch hr with ⟨program, hprogram, htakes⟩
  rw [htake, List.cons_append] at hcontent
  have hreceive : ServerPipe.receive k op w = some _ := receive_of_opcode hhead hcontent
  have hEq := hreceive.symm.trans hstep
  cases hEq
  have hfirst : w.taken = a := by
    rw [World.taken, hput, hcontent, htake]
    simp
  -- the function takes what was written of the message and what was not
  have htakes' : program.settle.Takes
      ([] ++ (r.message.tail.take (n - 1) ++ r.message.tail.drop (n - 1))) (r.map NameField.bytes) := by
    rw [List.nil_append, List.take_append_drop]
    exact Reads.takes_settle_iff.2 htakes
  have hlost : r.message.tail.drop (n - 1) ≠ [] := by
    rw [hmessage, List.length_cons] at hn
    simp only [ne_eq, List.drop_eq_nil_iff, not_le]
    omega
  rw [switch_eq hprogram]
  rcases Reads.settle_cases program with ⟨y, hy⟩ | hwaits
  · -- a function that asks for nothing would take nothing
    rw [hy] at htakes'
    have hnil := (Reads.takes_done_iff.1 htakes').1
    exact absurd hnil (List.append_ne_nil_of_right_ne_nil (r.message.tail.take (n - 1)) hlost)
  · rw [goOn_of_waits hwaits]
    refine .waiting program.settle [] (r.message.tail.take (n - 1)) (r.message.tail.drop (n - 1)) tail _
      rfl hwaits htakes' hlost rfl ?_ hfirst
    change w.put = a + n + tail.length
    rw [hput, List.length_append, hcut, Nat.add_assoc]

/-- The receiver reads a whole request before the cut message, or comes to it. -/
theorem Before.receive (h : Before r n a w) (hr : r.Typed) (hpos : 0 < n) (hn : n < r.message.length)
    (hmet : Met w (.receive k op)) (hstep : ServerPipe.receive k op w = some w') :
    Before r n a w' ∨ Stuck n a w' := by
  rcases h.inFront with ⟨front, tail, whole, hwhole, hcontent, hput, hle⟩
  by_cases hcome : (w.position = .head ∨ w.position = .again) ∧ front = []
  · -- the next byte is the opcode of the cut message
    rcases hcome with ⟨hhead, rfl⟩
    exact Or.inr (stuck_of_opcode hr hpos hn hhead hcontent hput hstep)
  · left
    rcases hwhole.receive h.closed hcontent hmet hstep (fun hhead hnil => absurd ⟨hhead, hnil⟩ hcome) with
      ⟨front', hwhole', hcontent'⟩
    rcases receive_frame h.closed hstep with ⟨hclosed', -, hput', hshorter, -⟩
    refine ⟨hclosed', ?_, front', tail, whole, hwhole', hcontent', hput'.trans hput, ?_⟩
    · refine h.begun.step h.closed hmet ⟨trivial, hstep⟩ le_rfl ?_
      intro hhead _
      have hfront : 0 < front.length := List.length_pos_iff.2 fun hnil => hcome ⟨hhead, hnil⟩
      simp only [World.taken, hput, hcontent, List.length_append]
      omega
    · rw [hcontent, hcontent'] at hshorter
      simp only [List.length_append] at hshorter
      omega

/-- Before the receiver has come to the cut message, each step leaves it there or makes it come. -/
theorem Before.step (h : Before r n a w) (hr : r.Typed) (hpos : 0 < n) (hn : n < r.message.length)
    (hmet : Met w l) (hstep : clients.step w l w') : Before r n a w' ∨ Stuck n a w' := by
  rcases client_cases hmet hstep with ⟨k, op, rfl, hreceive⟩ | ⟨why, hexited, -⟩ |
    ⟨m, hpos', hdispatched, hstored, hfirst, hcontent', hput'⟩
  · exact h.receive hr hpos hn hmet hreceive
  · exact Or.inr (.exited why hexited)
  · left
    rcases h.inFront with ⟨front, tail, whole, hwhole, hcontent, hput, hle⟩
    refine ⟨h.closed.step hstep, ?_, front, tail ++ m, whole, hwhole.congr hpos' hdispatched hstored, ?_, ?_,
      hle⟩
    · intro program buffer hhandling
      rw [hfirst]
      exact h.begun program buffer (hpos'.symm.trans hhandling)
    · rw [hcontent', hcontent]
      simp only [List.append_assoc]
    · rw [hput', hput]
      simp only [List.length_append]
      omega

/-- Before the cut a call in progress began with a byte that is written. -/
theorem begun_of_met {h : List (World × Label)} (he : clients.Execution h w)
    (hC : System.EachStep Met h) : Inv w ∧ Begun w.put w := by
  have hinv := he.always_of_eachStep (I := fun w => Inv w ∧ Begun w.put w) (C := Met) ?_ ?_ hC
  · exact hinv.1
  · intro w hw
    rw [hw]
    exact ⟨inv_start, fun program buffer hpos => by cases hpos⟩
  · rintro w l w' ⟨hw, hbegun⟩ hmet hstep
    have hle : w.put ≤ w'.put := by
      rcases client_cases hmet hstep with ⟨k, op, rfl, hreceive⟩ | ⟨why, -, hput⟩ | ⟨m, -, -, -, -, -, hput⟩
      · rw [(receive_frame hw.closed hreceive).2.2.1]
      · rw [hput]
      · rw [hput]
        exact Nat.le_add_right _ _
    refine ⟨hw.step hmet hstep, hbegun.step hw.closed hmet hstep hle ?_⟩
    intro _ hne
    have hlen := List.length_pos_iff.2 hne
    have hcounted := hw.counted
    unfold World.taken
    omega

/-- The cut leaves whole requests before the bytes of the cut message. -/
theorem before_of_vanish (hw : Inv w) (hbegun : Begun w.put w) (h : vanish c n r w = some w') :
    Before r n w.put w' := by
  rcases vanish_eq_some h with ⟨hcontent, hreader, _, hpos, _, hd, hs, _, hfirst, hput⟩
  refine ⟨?_, ?_, w.fifo.content, [], w.written, hw.whole.congr hpos hd hs, ?_, ?_, hw.counted⟩
  · intro hclosed
    rw [hpos]
    exact hw.closed (hreader.symm.trans hclosed)
  · intro program buffer hhandling
    rw [hfirst]
    exact hbegun program buffer (hpos.symm.trans hhandling)
  · rw [hcontent, List.append_nil]
  · rw [hput, List.append_nil]

/-- On a run that goes on after the cut, where the receiver comes to the cut message: it is contained
exactly if nothing of it was written. -/
theorem contained_iff_nothing_written {h : List (World × Label)} (he : clients.Execution h w)
    (hC : System.EachStep Met h) (hr : r.Typed) (hn : n < r.message.length)
    (hcut : vanish c n r w = some w') (ρ : clients.Path w')
    (hmet : ∀ i, Met (ρ.state i) (ρ.label i))
    (hcall : 0 < n → ∃ i, Calling w.put n (ρ.state i)) : Contained w.put n ρ.state ↔ n = 0 := by
  rcases begun_of_met he hC with ⟨hw, hbegun⟩
  constructor
  · intro hcontained
    by_contra hne
    have hpos : 0 < n := Nat.pos_of_ne_zero hne
    have hphase : ∀ i, Before r n w.put (ρ.state i) ∨ (ClosedOpening (ρ.state i) ∧ Stuck n w.put (ρ.state i)) := by
      intro i
      refine ρ.from_of_step (I := fun v => Before r n w.put v ∨ (ClosedOpening v ∧ Stuck n w.put v)) ?_
        (i := 0) ?_ i (Nat.zero_le i)
      · rintro j (hbefore | ⟨hclosed, hstuck⟩)
        · have hclosed' := hbefore.closed.step (ρ.step j)
          exact (hbefore.step hr hpos hn (hmet j) (ρ.step j)).imp id fun hstuck => ⟨hclosed', hstuck⟩
        · exact Or.inr ⟨hclosed.step (ρ.step j), hstuck.step hclosed (hmet j) (ρ.step j)⟩
      · rw [ρ.start]
        exact Or.inl (before_of_vanish hw hbegun hcut)
    rcases hcall hpos with ⟨i, hcalling⟩
    -- the call of the cut message returns, and then it has stored bytes of others
    rcases hphase i with hbefore | ⟨hclosed, hstuck⟩
    · rcases hcalling with ⟨⟨program, buffer, hhandling⟩, hfirst⟩
      exact absurd (hbefore.begun program buffer hhandling) (Nat.not_lt.2 hfirst.1)
    · rcases hcontained.returns i hcalling with ⟨j, hij, hbetween⟩
      have hstuck' : ClosedOpening (ρ.state j) ∧ Stuck n w.put (ρ.state j) :=
        ρ.from_of_step (I := fun v => ClosedOpening v ∧ Stuck n w.put v)
          (fun m hm => ⟨hm.1.step (ρ.step m), hm.2.step hm.1 (hmet m) (ρ.step m)⟩) ⟨hclosed, hstuck⟩ j hij.le
      cases hstuck'.2 with
      | waiting program buffer left lost tail x hhandling =>
          rw [hhandling] at hbetween
          exact hbetween
      | beyond program buffer hhandling =>
          rw [hhandling] at hbetween
          exact hbetween
      | returned x hx hfirst hlast =>
          have hown := hcontained.ownBytes j x hx ⟨hfirst.ge, by rw [hfirst]; omega⟩
          exact absurd hown (Nat.not_le.2 hlast)
      | exited why hexited =>
          rw [hexited] at hbetween
          exact hbetween
  · rintro rfl
    exact contained_of_nothing_written (hw.vanish_zero hcut) ρ hmet

end Cut

/-! ## One byte of an unmount -/

/-- Client 1 has opened the pipe, and the receiver is about to read an opcode. -/
def attached : World :=
  { World.start with
    fifo := ⟨[], [1], .opened⟩
    position := .head }

/-- It wrote the opcode of an unmount and disappeared. -/
def cutUnmount : World :=
  { attached with
    fifo := ⟨[tfsOpCodeUnmount], [], .opened⟩
    put := 1 }

/-- The receiver is in `read_unmount`, at the end of file. -/
def inUnmount : World :=
  { cutUnmount with
    fifo := ⟨[], [], .opened⟩
    position := .handling readUnmount []
    dispatched := [tfsOpCodeUnmount] }

/-- Each read gives 0 from then on. -/
def stalled : clients.Path cutUnmount where
  state
    | 0 => cutUnmount
    | _ + 1 => inUnmount
  label _ := .receive 0 0
  start := rfl
  step
    | 0 => ⟨trivial, rfl⟩
    | _ + 1 => ⟨trivial, rfl⟩

theorem vanish_attached : vanish 1 1 (.unmount 0) attached = some cutUnmount :=
  rfl

theorem execution_attached : ∃ h, clients.Execution h attached ∧ System.EachStep Met h := by
  have hstart : clients.Execution [] World.start := .start rfl
  have hopening : clients.step World.start (.receive 0 0) { World.start with fifo := ⟨[], [], .opening⟩ } :=
    ⟨trivial, rfl⟩
  have hattach : clients.step { World.start with fifo := ⟨[], [], .opening⟩ } (.attach 1)
      { World.start with fifo := ⟨[], [1], .opened⟩ } := ⟨trivial, rfl⟩
  have hopened : clients.step { World.start with fifo := ⟨[], [1], .opened⟩ } (.receive 0 0) attached :=
    ⟨trivial, rfl⟩
  refine ⟨_, ((hstart.next hopening).next hattach).next hopened, ?_⟩
  simp [System.EachStep, Met, World.start]

theorem met_stalled (i : ℕ) : Met (stalled.state i) (stalled.label i) := by
  cases i with
  | zero => simp [stalled, cutUnmount, attached, Met]
  | succ i => simp [stalled, inUnmount, Met]

theorem calling_stalled (i : ℕ) : Calling 0 1 (stalled.state (i + 1)) :=
  ⟨⟨readUnmount, [], rfl⟩, Nat.le_refl 0, Nat.one_pos⟩

theorem contained_iff_nothing_written_stalled : Contained 0 1 stalled.state ↔ 1 = 0 := by
  rcases execution_attached with ⟨h, he, hC⟩
  exact contained_iff_nothing_written he hC (by decide) (by decide) vanish_attached stalled met_stalled
    fun _ => ⟨1, calling_stalled 0⟩

/-- A client wrote one byte of an unmount, and `read_unmount` never returns. -/
theorem stalled_never_returns : ∃ h w w' c n r, clients.Execution h w ∧ System.EachStep Met h ∧
    Request.Typed r ∧ n < r.message.length ∧ vanish c n r w = some w' ∧
      ∃ ρ : clients.Path w', (∀ i, Met (ρ.state i) (ρ.label i)) ∧ ¬ Contained w.put n ρ.state := by
  rcases execution_attached with ⟨h, he, hC⟩
  refine ⟨h, attached, cutUnmount, 1, 1, .unmount 0, he, hC, by decide, by decide, vanish_attached,
    stalled, met_stalled, ?_⟩
  intro hcontained
  rcases hcontained.returns 1 (calling_stalled 0) with ⟨j, hlt, hbetween⟩
  obtain ⟨j, rfl⟩ : ∃ j', j = j' + 1 := ⟨j - 1, by omega⟩
  exact hbetween

end ServerPipe
end Wire
end TecnicoFs
