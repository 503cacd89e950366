import TecnicoFs.Sessions.Slots

/-!
# Slot order — the slots of a session are a queue

As long as no more requests of the session are sent and unanswered than it has slots, the receiver finds
every slot empty that it stores into and the worker executes the requests in the order in which they were
stored. The invariant counts the requests whose slots were cleared: both counters are such numbers modulo the
number of slots.
-/

namespace TecnicoFs
namespace Sessions
namespace Slots

open Lib Wire

/-! ## The law -/

/-- At most `n` requests are sent and unanswered. -/
def FewOutstanding (n : ℕ) (w : World) : Prop :=
  w.sent ≤ w.answered + n

instance (n : ℕ) (w : World) : Decidable (FewOutstanding n w) :=
  inferInstanceAs (Decidable (_ ≤ _))

namespace World

def Full (w : World) (k : ℕ) : Prop :=
  (w.bufferEntryTable k).opcode ≠ tfsOpCodeNull

/-- Slot `k` is the one of the full slots that was stored first. -/
def Oldest (n : ℕ) (w : World) (k : ℕ) : Prop :=
  k < n ∧ w.Full k ∧ ∀ j < n, w.Full j → w.number k ≤ w.number j

instance (w : World) (k : ℕ) : Decidable (w.Full k) :=
  inferInstanceAs (Decidable (_ ≠ _))

instance (n : ℕ) (w : World) (k : ℕ) : Decidable (w.Oldest n k) :=
  inferInstanceAs (Decidable (_ ∧ _ ∧ _))

end World

/-- The receiver can only store into an empty slot; the requests are executed in the order in which they
were stored, each at most once; and the worker's counter names the oldest full slot, or names it as soon as
the worker has counted on. -/
structure InOrder (n : ℕ) (w : World) : Prop where
  empty : w.receiver.isSome → w.worker.locked = false → ¬ w.Full w.buffersCounter
  executed : w.executed <+: w.stored.map requestTask
  oldest : w.worker ≠ .advancing → ∀ k, w.Oldest n k → w.bufferCounter = k
  advancing : w.worker = .advancing → ∀ k, w.Oldest n k → incrementBufferCounter n w.bufferCounter = k

/-- A bound on the steps that the worker can take before it waits. -/
def work (w : World) : ℕ :=
  5 * (w.stored.length - w.executed.length) +
    match w.worker with
    | .waiting => 0
    | .handling => 0
    | .ready => 1
    | .advancing => 2
    | .clearing => 3
    | .replying => 4

/-! ## The invariant -/

/-- What is in slot `k`, with its number. -/
def World.content (w : World) (k : ℕ) : Option (Option Task × ℕ) :=
  if (w.bufferEntryTable k).opcode = tfsOpCodeNull then
    none
  else
    some (entryTask (w.bufferEntryTable k), w.number k)

/-- All that was stored so far, with its numbers. -/
def World.queue (w : World) : List (Option Task × ℕ) :=
  (w.stored.map fun r => some (requestTask r)).zipIdx

/-- The request in the worker's slot has been executed. -/
def Worker.performed : Worker → ℕ
  | replying => 1
  | clearing => 1
  | _ => 0

/-- The request in the worker's slot has been answered. -/
def Worker.replied : Worker → ℕ
  | clearing => 1
  | _ => 0

theorem Worker.performed_of_free {q : Worker} (h : q.locked = false) : q.performed = 0 := by
  cases q <;> first | rfl | cases h

theorem Worker.replied_of_free {q : Worker} (h : q.locked = false) : q.replied = 0 := by
  cases q <;> first | rfl | cases h

@[simp] theorem Worker.locked_signal (q : Worker) : q.signal.locked = q.locked := by
  cases q <;> rfl

@[simp] theorem Worker.performed_signal (q : Worker) : q.signal.performed = q.performed := by
  cases q <;> rfl

@[simp] theorem Worker.replied_signal (q : Worker) : q.signal.replied = q.replied := by
  cases q <;> rfl

@[simp] theorem Worker.signal_eq_advancing_iff (q : Worker) : q.signal = advancing ↔ q = advancing := by
  cases q <;> simp [signal]

theorem Worker.signal_ne_waiting (q : Worker) : q.signal ≠ waiting := by
  cases q <;> simp [signal]

/-- The slot that the worker looks at, or is about to look at. -/
def World.front (n : ℕ) (w : World) : ℕ :=
  if w.worker = .advancing then incrementBufferCounter n w.bufferCounter else w.bufferCounter

/-- `a` requests have been executed and answered, and their slots cleared. -/
structure Inv (n : ℕ) (w : World) (a : ℕ) : Prop where
  ring : Ring.Holds n w.content w.queue a
  buffersCounter : w.buffersCounter = w.stored.length % n
  front : w.front n = a % n
  executed : w.executed = (w.stored.map requestTask).take (a + w.worker.performed)
  locked : w.worker.locked = true → a < w.stored.length
  waiting : w.worker = .waiting → a = w.stored.length
  answered : w.answered = a + w.worker.replied
  sent : w.sent = w.inbox.length + w.receiver.toList.length + w.stored.length

section Steps

variable {n a : ℕ} {w w' : World}

@[simp] theorem length_queue (w : World) : w.queue.length = w.stored.length := by
  simp [World.queue]

theorem queue_getElem {i : ℕ} (hi : i < w.stored.length) :
    w.queue[i]? = some (some (requestTask w.stored[i]), i) := by
  simp [World.queue, List.getElem?_eq_getElem hi]

theorem content_eq_none_iff {k : ℕ} : w.content k = none ↔ ¬ w.Full k := by
  unfold World.content World.Full
  split_ifs with h
  · simp [h]
  · simp [h]

theorem content_of_full {k : ℕ} (h : w.Full k) :
    w.content k = some (entryTask (w.bufferEntryTable k), w.number k) :=
  if_neg h

/-- A step changes one slot. -/
theorem content_update {k : ℕ} {e : Option (Option Task × ℕ)} (hself : w'.content k = e)
    (hothers : ∀ j, j ≠ k → w'.bufferEntryTable j = w.bufferEntryTable j ∧ w'.number j = w.number j) :
    w'.content = Function.update w.content k e := by
  funext j
  by_cases hj : j = k
  · rw [hj, Function.update_self, hself]
  · rw [Function.update_of_ne hj, World.content, World.content, (hothers j hj).1, (hothers j hj).2]

theorem incrementBufferCounter_mod (hn : 0 < n) (i : ℕ) : incrementBufferCounter n (i % n) = (i + 1) % n :=
  Ring.wrap_eq_mod hn

theorem inv_start (n : ℕ) : Inv n World.start 0 := by
  refine ⟨Ring.holds_nil fun k _ => rfl, ?_, ?_, rfl, ?_, ?_, rfl, rfl⟩
  · exact (Nat.zero_mod n).symm
  · exact (Nat.zero_mod n).symm
  · intro hlocked
    cases hlocked
  · intro hwaiting
    cases hwaiting

/-- The oldest request that is still in a slot, where the worker is not between two slots. -/
theorem Inv.first (hw : Inv n w a) (ha : a < w.stored.length) :
    w.Full (a % n) ∧ entryTask (w.bufferEntryTable (a % n)) = some (requestTask w.stored[a]) ∧
      w.number (a % n) = a := by
  have hslot := hw.ring.full a (Nat.le_refl a) (by simpa using ha)
  rw [queue_getElem ha] at hslot
  have hfull : w.Full (a % n) := by
    by_contra hempty
    rw [content_eq_none_iff.2 hempty] at hslot
    cases hslot
  rw [content_of_full hfull] at hslot
  have hpair := Option.some.inj hslot
  exact ⟨hfull, congrArg Prod.fst hpair, congrArg Prod.snd hpair⟩

/-- Only the request that was stored first of those in the slots is the oldest. -/
theorem Inv.oldest (hw : Inv n w a) {k : ℕ} (hk : w.Oldest n k) : k = a % n := by
  rcases hk with ⟨hlt, hfull, hmin⟩
  rcases hw.ring.number_of_some hlt (content_of_full hfull) with ⟨i, hai, hi, hmod, hqueue⟩
  rw [length_queue] at hi
  have hnumber : w.number k = i := by
    rw [queue_getElem hi] at hqueue
    exact (congrArg Prod.snd (Option.some.inj hqueue)).symm
  have hfirst := hw.first (Nat.lt_of_le_of_lt hai hi)
  have hle : w.number k ≤ w.number (a % n) := hmin _ (Nat.mod_lt a (by omega)) hfirst.1
  have hsame : i = a := by
    rw [hnumber, hfirst.2.2] at hle
    exact Nat.le_antisymm hle hai
  rw [← hmod, hsame]

/-- With a request at hand, the receiver has a slot for it. -/
theorem Inv.room (hw : Inv n w a) (hfew : FewOutstanding n w) (hreceiver : w.receiver.isSome)
    (hfree : w.worker.locked = false) : w.queue.length < a + n := by
  rcases Option.isSome_iff_exists.1 hreceiver with ⟨r, hr⟩
  have hanswered : w.answered = a := by
    rw [hw.answered, Worker.replied_of_free hfree, Nat.add_zero]
  have hsent := hw.sent
  have hfew : w.sent ≤ w.answered + n := hfew
  rw [hr, Option.toList_some, List.length_singleton] at hsent
  rw [length_queue]
  omega

theorem Inv.inOrder (hw : Inv n w a) (hfew : FewOutstanding n w) : InOrder n w := by
  refine ⟨?_, ?_, ?_, ?_⟩
  · intro hreceiver hfree
    have hnext := hw.ring.next_empty (hw.room hfew hreceiver hfree)
    rw [hw.buffersCounter, ← content_eq_none_iff, ← length_queue]
    exact hnext
  · rw [hw.executed]
    exact List.take_prefix _ _
  · intro hworker k hk
    rw [hw.oldest hk, ← hw.front, World.front, if_neg hworker]
  · intro hworker k hk
    rw [hw.oldest hk, ← hw.front, World.front, if_pos hworker]

/-! ## Steps -/

theorem Inv.send (hw : Inv n w a) {r : Request CString} (h : Slots.send r w = some w') : Inv n w' a := by
  cases h
  refine { hw with sent := ?_ }
  have hsent := hw.sent
  simp only [List.length_append, List.length_singleton]
  omega

theorem Inv.take (hw : Inv n w a) (h : Slots.take w = some w') : Inv n w' a := by
  unfold Slots.take at h
  split at h
  · next r rest hreceiver hinbox =>
      cases h
      refine { hw with sent := ?_ }
      have hsent := hw.sent
      rw [hreceiver, hinbox] at hsent
      simp only [Option.toList_none, Option.toList_some, List.length_cons, List.length_nil] at hsent ⊢
      omega
  · cases h

/-- The critical section of the receiver: the ring takes one more. -/
theorem Inv.store (hn : 0 < n) (hw : Inv n w a) (hfew : FewOutstanding n w)
    (h : Slots.store n w = some w') : Inv n w' a := by
  unfold Slots.store at h
  split at h
  · next r hreceiver =>
      split at h
      · cases h
      · next hunlocked =>
          cases h
          have hfree : w.worker.locked = false := Bool.eq_false_iff.2 hunlocked
          have hroom := hw.room hfew (by rw [hreceiver]; rfl) hfree
          have hpush := hw.ring.push (x := (some (requestTask r), w.stored.length)) hroom
          refine ⟨?_, ?_, ?_, ?_, ?_, ?_, ?_, ?_⟩
          · rw [content_update (w := w) (k := w.buffersCounter)
              (e := some (some (requestTask r), w.stored.length)), hw.buffersCounter]
            · simpa [World.queue, List.zipIdx_append] using hpush
            · simp [World.content, opcode_store_ne, entryTask_store]
            · intro j hj
              exact ⟨Function.update_of_ne hj _ _, Function.update_of_ne hj _ _⟩
          · simp only [hw.buffersCounter, List.length_append, List.length_singleton]
            exact incrementBufferCounter_mod hn _
          · simpa [World.front] using hw.front
          · -- what was executed is a part of what was stored before
            have hle : a + w.worker.performed ≤ (w.stored.map requestTask).length := by
              have hle := hw.ring.le
              simp only [length_queue] at hle
              rw [Worker.performed_of_free hfree]
              simpa using hle
            simp only [Worker.performed_signal, List.map_append]
            rw [List.take_append_of_le_length hle]
            exact hw.executed
          · intro hlocked
            rw [Worker.locked_signal, hfree] at hlocked
            cases hlocked
          · intro hwaiting
            exact absurd hwaiting (Worker.signal_ne_waiting _)
          · simpa using hw.answered
          · have hsent := hw.sent
            rw [hreceiver] at hsent
            simp only [Option.toList_none, Option.toList_some, List.length_append, List.length_singleton,
              List.length_nil] at hsent ⊢
            omega
  · cases h

/-- The worker goes on to look at its slot, or to wait. -/
theorem Inv.turn (hw : Inv n w a) {q : Worker} (hworker : w.worker ≠ .advancing ∧ w.worker.locked = false)
    (hq : q ≠ .advancing ∧ q.performed = 0 ∧ q.replied = 0)
    (hlocked : q.locked = true → a < w.stored.length) (hwaiting : q = .waiting → a = w.stored.length) :
    Inv n { w with worker := q } a := by
  refine ⟨hw.ring, hw.buffersCounter, ?_, ?_, hlocked, hwaiting, ?_, hw.sent⟩
  · simpa [World.front, hworker.1, hq.1] using hw.front
  · simpa [Worker.performed_of_free hworker.2, hq.2.1] using hw.executed
  · simpa [Worker.replied_of_free hworker.2, hq.2.2] using hw.answered

theorem Inv.wake (hw : Inv n w a) (h : Slots.wake w = some w') : Inv n w' a := by
  unfold Slots.wake at h
  split at h
  · next hworker =>
      cases h
      exact hw.turn (by rw [hworker]; exact ⟨by simp, rfl⟩) ⟨by simp, rfl, rfl⟩ (by simp [Worker.locked])
        (by simp)
  · cases h

/-- The worker's slot is full exactly where a request is left. -/
theorem Inv.full_front (hn : 0 < n) (hw : Inv n w a) (hworker : w.worker ≠ .advancing) :
    w.Full w.bufferCounter ↔ a < w.stored.length := by
  have hfront : w.bufferCounter = a % n := by
    rw [← hw.front, World.front, if_neg hworker]
  have hle := hw.ring.le
  have hnone := hw.ring.first_eq_none_iff hn
  rw [content_eq_none_iff] at hnone
  rw [length_queue] at hle hnone
  rw [hfront, ← not_iff_not, hnone]
  omega

theorem Inv.lock (hn : 0 < n) (hw : Inv n w a) (h : Slots.lock w = some w') : Inv n w' a := by
  unfold Slots.lock at h
  split at h
  · next hworker =>
      have hready : w.worker ≠ .advancing ∧ w.worker.locked = false := by
        rw [hworker]
        exact ⟨by simp, rfl⟩
      have hfull := hw.full_front hn hready.1
      split at h
      · next hopcode =>
          cases h
          refine hw.turn hready ⟨by simp, rfl, rfl⟩ ?_ (by simp)
          exact fun _ => hfull.1 (UInt8.pos_iff_ne_zero.1 hopcode)
      · next hopcode =>
          cases h
          refine hw.turn hready ⟨by simp, rfl, rfl⟩ (by simp [Worker.locked]) ?_
          -- the slot is empty, so nothing is left
          intro _
          have hle := hw.ring.le
          rw [length_queue] at hle
          by_contra hne
          exact hopcode (UInt8.pos_iff_ne_zero.2 (hfull.2 (Nat.lt_of_le_of_ne hle hne)))
  · cases h

/-- The request in the worker's slot is the oldest one that is left. -/
theorem Inv.handling (hw : Inv n w a) (hworker : w.worker = .handling) :
    ∃ ha : a < w.stored.length,
      entryTask (w.bufferEntryTable w.bufferCounter) = some (requestTask w.stored[a]) ∧
        w.executed = (w.stored.map requestTask).take a := by
  have ha : a < w.stored.length := hw.locked (by rw [hworker]; rfl)
  have hfront : w.bufferCounter = a % n := by
    simpa [World.front, hworker] using hw.front
  refine ⟨ha, ?_, ?_⟩
  · rw [hfront]
    exact (hw.first ha).2.1
  · simpa [Worker.performed, hworker] using hw.executed

theorem Inv.execute (hw : Inv n w a) (h : Slots.execute w = some w') : Inv n w' a := by
  unfold Slots.execute at h
  split at h
  · next t hworker htask =>
      cases h
      rcases hw.handling hworker with ⟨ha, htask', hexecuted⟩
      rw [htask] at htask'
      refine ⟨hw.ring, hw.buffersCounter, ?_, ?_, fun _ => ha, ?_, ?_, hw.sent⟩
      · simpa [World.front, hworker] using hw.front
      · simp [Worker.performed, hexecuted, Option.some.inj htask', List.take_add_one, ha]
      · intro hwaiting
        cases hwaiting
      · simpa [Worker.replied, hworker] using hw.answered
  · next hworker htask =>
      -- what is in the slot is a request that the `switch` knows
      rcases hw.handling hworker with ⟨_, htask', _⟩
      rw [htask] at htask'
      cases htask'
  · cases h

theorem Inv.write (hw : Inv n w a) (h : Slots.write w = some w') : Inv n w' a := by
  unfold Slots.write at h
  split at h
  · next hworker =>
      cases h
      have ha : a < w.stored.length := hw.locked (by rw [hworker]; rfl)
      refine ⟨hw.ring, hw.buffersCounter, ?_, ?_, fun _ => ha, ?_, ?_, hw.sent⟩
      · simpa [World.front, hworker] using hw.front
      · simpa [Worker.performed, hworker] using hw.executed
      · intro hwaiting
        cases hwaiting
      · simpa [Worker.replied, hworker] using hw.answered
  · cases h

/-- The worker clears its slot: the ring has one less. -/
theorem Inv.clear (hn : 0 < n) (hw : Inv n w a) (h : Slots.clear w = some w') : Inv n w' (a + 1) := by
  unfold Slots.clear at h
  split at h
  · next hworker =>
      cases h
      have ha : a < w.stored.length := hw.locked (by rw [hworker]; rfl)
      have hfront : w.bufferCounter = a % n := by
        simpa [World.front, hworker] using hw.front
      have hpop := hw.ring.pop (by simpa using ha)
      refine ⟨?_, hw.buffersCounter, ?_, ?_, ?_, ?_, ?_, hw.sent⟩
      · -- the slot that is cleared is the first of the ring
        rw [content_update (w := w) (k := w.bufferCounter) (e := none), hfront]
        · exact hpop
        · simp [World.content]
        · intro j hj
          exact ⟨Function.update_of_ne hj _ _, rfl⟩
      · -- the counter is one behind until the worker counts on
        simp only [World.front, if_true, hfront]
        exact incrementBufferCounter_mod hn a
      · simpa [Worker.performed, hworker] using hw.executed
      · intro hlocked
        cases hlocked
      · intro hwaiting
        cases hwaiting
      · simpa [Worker.replied, hworker] using hw.answered
  · cases h

theorem Inv.advance (hw : Inv n w a) (h : Slots.advance n w = some w') : Inv n w' a := by
  unfold Slots.advance at h
  split at h
  · next hworker =>
      cases h
      refine ⟨hw.ring, hw.buffersCounter, ?_, ?_, ?_, ?_, ?_, hw.sent⟩
      · simpa [World.front, hworker] using hw.front
      · simpa [Worker.performed, hworker] using hw.executed
      · intro hlocked
        cases hlocked
      · intro hwaiting
        cases hwaiting
      · simpa [Worker.replied, hworker] using hw.answered
  · cases h

/-- Only `clear` moves a request out of the slots. -/
theorem Inv.step (hn : 0 < n) (hw : Inv n w a) (hfew : FewOutstanding n w) {l : Label}
    (h : perform n l w = some w') : ∃ b, Inv n w' b := by
  cases l with
  | send r => exact ⟨a, hw.send h⟩
  | take => exact ⟨a, hw.take h⟩
  | store => exact ⟨a, hw.store hn hfew h⟩
  | wake => exact ⟨a, hw.wake h⟩
  | lock => exact ⟨a, hw.lock hn h⟩
  | execute => exact ⟨a, hw.execute h⟩
  | write => exact ⟨a, hw.write h⟩
  | clear => exact ⟨a + 1, hw.clear hn h⟩
  | advance => exact ⟨a, hw.advance h⟩

/-! ## The worker's progress -/

theorem Inv.work_lt (hw : Inv n w a) {l : Label} (hworker : l.isWorker = true)
    (h : perform n l w = some w') : work w' < work w := by
  cases l with
  | send r => cases hworker
  | take => cases hworker
  | store => cases hworker
  | wake => cases hworker
  | lock =>
      simp only [perform, Slots.lock] at h
      split at h
      · next hready =>
          split at h
          all_goals
            cases h
            simp [work, hready]
      · cases h
  | execute =>
      simp only [perform, Slots.execute] at h
      split at h
      · next t hhandling _ =>
          cases h
          -- one request fewer is left
          rcases hw.handling hhandling with ⟨ha, _, hexecuted⟩
          simp only [work, hhandling, hexecuted, List.length_append, List.length_take, List.length_map,
            List.length_singleton]
          omega
      · next hhandling htask =>
          rcases hw.handling hhandling with ⟨_, htask', _⟩
          rw [htask] at htask'
          cases htask'
      · cases h
  | write =>
      simp only [perform, Slots.write] at h
      split at h
      · next hreplying =>
          cases h
          simp [work, hreplying]
      · cases h
  | clear =>
      simp only [perform, Slots.clear] at h
      split at h
      · next hclearing =>
          cases h
          simp [work, hclearing]
      · cases h
  | advance =>
      simp only [perform, Slots.advance] at h
      split at h
      · next hadvancing =>
          cases h
          simp [work, hadvancing]
      · cases h

/-- A worker that cannot go on waits. -/
theorem waiting_of_stuck (hstuck : ∀ l : Label, l.isWorker = true → perform n l w = none) :
    w.worker = .waiting := by
  rcases hworker : w.worker with _ | _ | _ | _ | _ | _
  · have hlock := hstuck .lock rfl
    simp only [perform, Slots.lock, hworker] at hlock
    split at hlock
    · cases hlock
    · cases hlock
  · rfl
  · have hexecute := hstuck .execute rfl
    rcases htask : entryTask (w.bufferEntryTable w.bufferCounter) with _ | t
    · simp [perform, Slots.execute, hworker, htask] at hexecute
    · simp [perform, Slots.execute, hworker, htask] at hexecute
  · have hwrite := hstuck .write rfl
    simp [perform, Slots.write, hworker] at hwrite
  · have hclear := hstuck .clear rfl
    simp [perform, Slots.clear, hworker] at hclear
  · have hadvance := hstuck .advance rfl
    simp [perform, Slots.advance, hworker] at hadvance

/-- A worker that waits has executed all that was stored. -/
theorem Inv.executed_of_waiting (hw : Inv n w a) (hwaiting : w.worker = .waiting) :
    w.executed = w.stored.map requestTask := by
  rw [hw.executed, hwaiting, hw.waiting hwaiting]
  exact List.take_of_length_le (by simp)

end Steps

/-! ## The theorem -/

/-- For any number of slots, along every run with no more requests outstanding than slots: the receiver finds
its slot empty and the worker executes in order, with its counter at the oldest full slot, or one before it
where the worker has cleared a slot and not yet counted on; the worker can only take so many steps before it
waits; and where it waits, it has executed all that was stored. -/
theorem inOrder_of_fewOutstanding {n : ℕ} (hn : 0 < n) {h : List (World × Label)} {w : World}
    (he : (slots n).Execution h w) (hfew : System.Always (FewOutstanding n) h w) :
    System.Always (InOrder n) h w ∧
      (∀ l w', Label.isWorker l = true → perform n l w = some w' → work w' < work w) ∧
      ((∀ l, Label.isWorker l = true → perform n l w = none) → w.executed = w.stored.map requestTask) := by
  have hinv : System.Always (fun w => ∃ a, Inv n w a) h w := by
    refine he.always_of_eachStep (C := fun w _ => FewOutstanding n w) ?_ ?_ hfew.2
    · rintro w rfl
      exact ⟨0, inv_start n⟩
    · rintro w l w' ⟨a, hw⟩ hfew hstep
      exact hw.step hn hfew hstep
  rcases hinv.1 with ⟨a, hw⟩
  refine ⟨⟨hw.inOrder hfew.1, ?_⟩, fun l w' hl hstep => hw.work_lt hl hstep, ?_⟩
  · intro p hp
    rcases hinv.2 p hp with ⟨b, hp'⟩
    exact hp'.inOrder (hfew.2 p hp)
  · intro hstuck
    exact hw.executed_of_waiting (waiting_of_stuck hstuck)

/-! ## Two slots -/

theorem noNul_clientPipe : ∀ b ∈ ([0x63] : List Byte), b ≠ 0 := by
  simp

/-- After the mount, two requests at once in two slots; the first is executed and answered, the client sends
one more, and the receiver has it in hand when the worker releases the mutex. -/
def oneMore : List Label :=
  [.send (.mount ⟨[0x63], noNul_clientPipe⟩), .take, .store, .lock, .execute, .write, .clear, .advance,
    .send (.close 0 0), .send (.read 0 1 4), .take, .store, .take, .store, .lock, .execute, .write,
    .send (.close 0 1), .take, .clear]

theorem performAll_oneMore :
    (System.performAll (System.record (perform 2)) oneMore ([], World.start)).any
      (fun x => (FewOutstanding 2 x.2 ∧ ∀ p ∈ x.1, FewOutstanding 2 p.1) ∧ x.2.Oldest 2 0 ∧
        x.2.bufferCounter = 1) = true := by
  decide +kernel

/-- The mutex is free, slot 0 is full, and the worker's counter still names slot 1, which it has cleared. -/
theorem counter_behind_oneMore : ∃ h w, (slots 2).Execution h w ∧
    System.Always (FewOutstanding 2) h w ∧ w.Oldest 2 0 ∧ w.bufferCounter ≠ 0 := by
  rcases System.execution_of_any (M := slots 2) (perform 2) (fun _ _ _ hstep => hstep) rfl
      performAll_oneMore with ⟨h, w, he, _, hfew, holdest, hcounter⟩
  refine ⟨h, w, he, hfew, holdest, ?_⟩
  rw [hcounter]
  exact Nat.one_ne_zero

/-- The last request goes into slot 1, and the worker executes all of them in order. -/
def fourRequests : List Label :=
  oneMore ++ [.store, .advance, .lock, .execute, .write, .clear, .advance, .lock, .execute]

theorem performAll_fourRequests :
    (System.performAll (System.record (perform 2)) fourRequests ([], World.start)).any
      (fun x => (FewOutstanding 2 x.2 ∧ ∀ p ∈ x.1, FewOutstanding 2 p.1) ∧
        x.2.executed = [.mount, .call (.close 0), .call (.read 1 4), .call (.close 1)]) = true := by
  decide +kernel

theorem inOrder_of_fewOutstanding_fourRequests : ∃ h w, (slots 2).Execution h w ∧
    w.executed = [.mount, .call (.close 0), .call (.read 1 4), .call (.close 1)] ∧
      (System.Always (InOrder 2) h w ∧
        (∀ l w', Label.isWorker l = true → perform 2 l w = some w' → work w' < work w) ∧
        ((∀ l, Label.isWorker l = true → perform 2 l w = none) →
          w.executed = w.stored.map requestTask)) := by
  rcases System.execution_of_any (M := slots 2) (perform 2) (fun _ _ _ hstep => hstep) rfl
      performAll_fourRequests with ⟨h, w, he, _, hfew, hexecuted⟩
  exact ⟨h, w, he, hexecuted, inOrder_of_fewOutstanding (by decide) he hfew⟩

end Slots
end Sessions
end TecnicoFs
