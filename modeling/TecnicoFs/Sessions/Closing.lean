import Mathlib.Algebra.BigOperators.Group.Finset.Basic
import Mathlib.Algebra.Order.BigOperators.Group.Finset
import TecnicoFs.Sessions.Draining

/-!
# Closing — the server ends once a worker has closed it

From the moment when `server_open` is false, `main` and the workers take a bounded number of steps, and they
come to a stop before the end of `main` only where something outside holds one of them up: the answer of
a worker to a request, or the bytes of a request that the receiver reads with a mutex in hand.  The one
wait inside that can hold up the end is that of a second shutdown request in
`tfs_destroy_after_all_closed`.
-/

namespace TecnicoFs
namespace Sessions
namespace LifeCycle

open Lib Wire Intake Server

/-! ## The way that is left -/

/-- The steps a worker of a closed server takes at most. -/
def Worker.remaining : Worker → ℕ
  | ended => 0
  | outer => 1
  | clearing => 2
  | answering => 3
  | opening => 4
  | draining => 4
  | resumed => 4
  | handling => 5
  | testing => 6
  | locking => 7
  | woken => 7
  | waiting => 8
  | parking => 9

/-- The steps `main` takes at most, once the server is closed. -/
def Main.remaining : Main → ℕ
  | finished => 0
  | destroying => 1
  | joiningReceiver => 2
  | cancelling => 3
  | joining k => 4 + (maxSessionsAmount - k)
  | signalling k => 25 + 3 * (maxSessionsAmount - k)
  | holding k => 24 + 3 * (maxSessionsAmount - k)
  | signalled k => 23 + 3 * (maxSessionsAmount - k)
  | testing => 86
  | woken => 87
  | waiting => 88

def World.workersRemaining (w : World) : ℕ :=
  ∑ s ∈ Finset.range maxSessionsAmount, (w.worker s).remaining

/-- All the steps that are left; an open server has its whole end before it. -/
def World.remaining (w : World) : ℕ :=
  if w.serverOpen then 268 else w.main.remaining + w.workersRemaining

/-- The steps of `main` and of the workers, but not those with which a worker stays in the loop of
`tfs_destroy_after_all_closed`: its wake-ups without a signal, and its tests that find a file open. -/
def ofWorkers (w : World) : Label → Bool
  | .main => true
  | .wakeMain => true
  | .hear _ _ => false
  | .receiver => false
  | .cancel => false
  | .worker s => w.worker s ≠ .resumed ∨ getOpenFilesNumber w.lib = 0
  | .wake _ => true
  | .resume _ => false
  | .library _ _ _ => true
  | .writeShutdown _ => true

/-- Such a step after the server was closed. -/
def closing (w : World) (a : Label) : Bool :=
  !w.serverOpen && ofWorkers w a

section Measure

variable {w w' : World} {s : ℕ} {q : Worker}

theorem remaining_setWorker_le (hq : q.remaining ≤ (w.worker s).remaining) :
    (w.setWorker s q).workersRemaining ≤ w.workersRemaining := by
  refine Finset.sum_le_sum ?_
  intro t _
  change (Function.update w.worker s q t).remaining ≤ _
  rw [Function.update_apply]
  split
  · next ht => rw [ht]; exact hq
  · exact le_rfl

theorem remaining_setWorker_lt (hs : s < maxSessionsAmount) (hq : q.remaining < (w.worker s).remaining) :
    (w.setWorker s q).workersRemaining < w.workersRemaining := by
  refine Finset.sum_lt_sum ?_ ⟨s, Finset.mem_range.2 hs, ?_⟩
  · intro t _
    change (Function.update w.worker s q t).remaining ≤ _
    rw [Function.update_apply]
    split
    · next ht => rw [ht]; exact hq.le
    · exact le_rfl
  · change (Function.update w.worker s q s).remaining < _
    rw [Function.update_self]
    exact hq

theorem remaining_signal_le : (w.signal s).workersRemaining ≤ w.workersRemaining := by
  unfold World.signal
  split
  · next hwaiting =>
      refine remaining_setWorker_le ?_
      rw [hwaiting]
      decide
  · exact le_rfl

theorem remaining_of_closed (h : w.serverOpen = false) : w.remaining = w.main.remaining + w.workersRemaining := by
  simp [World.remaining, h]

theorem Worker.remaining_le (q : Worker) : q.remaining ≤ 9 := by
  cases q <;> decide

theorem Main.remaining_le (m : Main) : m.remaining ≤ 88 := by
  cases m <;> simp only [Main.remaining, maxSessionsAmount] <;> omega

theorem remaining_le (w : World) : w.remaining ≤ 268 := by
  unfold World.remaining
  split
  · exact le_rfl
  · have hworkers : w.workersRemaining ≤ 20 * 9 := by
      calc w.workersRemaining
          ≤ ∑ _ ∈ Finset.range maxSessionsAmount, 9 :=
            Finset.sum_le_sum fun s _ => (w.worker s).remaining_le
        _ = 20 * 9 := rfl
    have hmain := w.main.remaining_le
    omega

theorem remaining_lt (hclosed : w.serverOpen = false) (hclosed' : w'.serverOpen = false)
    (hlt : w'.main.remaining + w'.workersRemaining < w.main.remaining + w.workersRemaining) :
    w'.remaining < w.remaining := by
  rw [remaining_of_closed hclosed, remaining_of_closed hclosed']
  exact hlt

/-- `main` goes on at `m`. -/
theorem remaining_main_lt {m : Main} {cancelled : Bool} {owner : ℕ → Option Party}
    (hclosed : w.serverOpen = false) (hm : m.remaining < w.main.remaining) :
    ({ w with main := m, owner := owner, cancelled := cancelled } : World).remaining < w.remaining :=
  remaining_lt hclosed hclosed (Nat.add_lt_add_right hm _)

theorem mainStep_lt (hw : Sound w) (hclosed : w.serverOpen = false)
    (hstep : mainStep w = some w') : w'.remaining < w.remaining := by
  unfold mainStep at hstep
  cases hm : w.main with
  | testing =>
      simp only [hm] at hstep
      cases hstep
      refine remaining_main_lt hclosed ?_
      rw [hm, hclosed]
      decide
  | waiting =>
      simp only [hm] at hstep
      cases hstep
  | woken =>
      simp only [hm] at hstep
      cases hstep
      exact remaining_main_lt hclosed (by rw [hm]; decide)
  | signalling k =>
      simp only [hm] at hstep
      split at hstep
      · split at hstep
        · cases hstep
          refine remaining_main_lt (w := w) hclosed ?_
          rw [hm]
          simp only [Main.remaining]
          omega
        · cases hstep
      · cases hstep
        refine remaining_main_lt hclosed ?_
        rw [hm]
        simp only [Main.remaining, maxSessionsAmount]
        omega
  | holding k =>
      simp only [hm] at hstep
      cases hstep
      -- the worker that is woken has no more steps left than before
      have hopen : (w.signal k).serverOpen = false := (signal_serverOpen w k).trans hclosed
      refine remaining_lt hclosed hopen ?_
      refine Nat.add_lt_add_of_lt_of_le ?_ remaining_signal_le
      rw [hm]
      simp only [Main.remaining]
      omega
  | signalled k =>
      have hk : k < 20 := hw.index k (by rw [hm]; rfl)
      simp only [hm] at hstep
      cases hstep
      refine remaining_main_lt (w := w) hclosed ?_
      rw [hm]
      simp only [Main.remaining, maxSessionsAmount]
      omega
  | joining k =>
      simp only [hm] at hstep
      split at hstep
      · next hk =>
          split at hstep
          · cases hstep
            refine remaining_main_lt hclosed ?_
            rw [hm]
            simp only [Main.remaining]
            omega
          · cases hstep
      · cases hstep
        refine remaining_main_lt hclosed ?_
        rw [hm]
        simp only [Main.remaining]
        omega
  | cancelling =>
      simp only [hm] at hstep
      cases hstep
      exact remaining_main_lt hclosed (by rw [hm]; decide)
  | joiningReceiver =>
      simp only [hm] at hstep
      split at hstep
      · cases hstep
        exact remaining_main_lt hclosed (by rw [hm]; decide)
      · cases hstep
  | destroying =>
      simp only [hm] at hstep
      cases hstep
      exact remaining_main_lt hclosed (by rw [hm]; decide)
  | finished =>
      simp only [hm] at hstep
      cases hstep

/-- Worker `s` goes on at `q`. -/
theorem remaining_worker_lt {lib : Server.State} {owner : ℕ → Option Party} {opcode : ℕ → Byte}
    (hs : s < maxSessionsAmount) (hclosed : w.serverOpen = false)
    (hq : q.remaining < (w.worker s).remaining) :
    ({ w.setWorker s q with lib := lib, owner := owner, opcode := opcode } : World).remaining < w.remaining :=
  remaining_lt hclosed hclosed (Nat.add_lt_add_left (remaining_setWorker_lt hs hq) _)

theorem takeBuffer_lt (hs : s < maxSessionsAmount) (hclosed : w.serverOpen = false)
    (hq : 6 < (w.worker s).remaining) (hstep : takeBuffer s w = some w') : w'.remaining < w.remaining := by
  unfold takeBuffer at hstep
  split at hstep
  · cases hstep
    exact remaining_worker_lt hs hclosed hq
  · cases hstep

theorem handle_lt (hs : s < maxSessionsAmount) (hclosed : w.serverOpen = false) (hq : w.worker s = .handling)
    (hstep : handle s w = some w') : w'.remaining < w.remaining := by
  unfold handle at hstep
  split at hstep
  · cases hstep
    refine remaining_worker_lt (w := w) hs hclosed ?_
    rw [hq]
    split
    · decide
    · decide
  · split at hstep
    · cases hstep
      refine remaining_worker_lt hs hclosed ?_
      rw [hq]
      split
      · decide
      · decide
    · split at hstep
      · cases hstep
      · cases hstep
        exact remaining_worker_lt hs hclosed (by rw [hq]; decide)

theorem workerStep_lt (hs : s < maxSessionsAmount) (hclosed : w.serverOpen = false)
    (hleaves : w.worker s ≠ .resumed ∨ getOpenFilesNumber w.lib = 0)
    (hstep : workerStep s w = some w') : w'.remaining < w.remaining := by
  unfold workerStep at hstep
  cases hq : w.worker s with
  | outer =>
      simp only [hq] at hstep
      cases hstep
      refine remaining_worker_lt hs hclosed ?_
      rw [hq, hclosed]
      decide
  | locking =>
      simp only [hq] at hstep
      exact takeBuffer_lt hs hclosed (by rw [hq]; decide) hstep
  | testing =>
      simp only [hq] at hstep
      split at hstep
      · cases hstep
        exact remaining_worker_lt hs hclosed (by rw [hq]; decide)
      · rw [if_neg (by simp [hclosed])] at hstep
        cases hstep
        exact remaining_worker_lt hs hclosed (by rw [hq]; decide)
  | parking =>
      simp only [hq] at hstep
      cases hstep
      exact remaining_worker_lt (w := w) hs hclosed (by rw [hq]; decide)
  | waiting =>
      simp only [hq] at hstep
      cases hstep
  | woken =>
      simp only [hq] at hstep
      exact takeBuffer_lt hs hclosed (by rw [hq]; decide) hstep
  | handling =>
      simp only [hq] at hstep
      exact handle_lt hs hclosed hq hstep
  | opening =>
      simp only [hq] at hstep
      cases hstep
  | draining =>
      simp only [hq] at hstep
      cases hstep
  | resumed =>
      simp only [hq] at hstep
      cases hstep
      have hzero := hleaves.resolve_left fun h => h hq
      refine remaining_worker_lt hs hclosed ?_
      rw [hq, if_pos hzero]
      decide
  | answering =>
      simp only [hq] at hstep
      cases hstep
      exact remaining_worker_lt hs hclosed (by rw [hq]; decide)
  | clearing =>
      simp only [hq] at hstep
      cases hstep
      exact remaining_worker_lt (w := w) hs hclosed (by rw [hq]; decide)
  | ended =>
      simp only [hq] at hstep
      cases hstep

/-- A worker that is woken in its wait has as many steps left as before. -/
theorem remaining_resumed_le (hclosed : w.serverOpen = false) (hq : w.worker s = .draining) :
    (w.setWorker s .resumed).remaining ≤ w.remaining := by
  have hopen : (w.setWorker s .resumed).serverOpen = false := hclosed
  rw [remaining_of_closed hclosed, remaining_of_closed hopen]
  refine Nat.add_le_add_left (remaining_setWorker_le ?_) _
  rw [hq]
  decide

theorem library_lt {c : Server.Call} {t : ℕ} (hs : s < maxSessionsAmount) (hclosed : w.serverOpen = false)
    (hstep : library s c t w = some w') : w'.remaining < w.remaining := by
  rcases library_cases hstep with ⟨hcalls, lib, _, hcases⟩
  have hanswered : ({ w.setWorker s .answering with lib := lib } : World).remaining < w.remaining := by
    refine remaining_worker_lt (w := w) hs hclosed ?_
    cases hq : w.worker s with
    | handling => decide
    | opening => decide
    | _ =>
        rw [hq] at hcalls
        exact False.elim hcalls
  rcases hcases with ⟨_, rfl⟩ | ⟨_, hsignal⟩
  · exact hanswered
  · rcases signalDestroy_cases hsignal with ⟨_, hdraining, rfl⟩ | ⟨_, rfl⟩
    · exact lt_of_le_of_lt (remaining_resumed_le hclosed hdraining) hanswered
    · exact hanswered

theorem writeShutdown_lt (hs : s < maxSessionsAmount) (hclosed : w.serverOpen = false)
    (hstep : writeShutdown s w = some w') : w'.remaining < w.remaining := by
  unfold writeShutdown at hstep
  split at hstep
  · next h =>
      cases hstep
      refine remaining_lt hclosed rfl ?_
      have hworkers : (w.signalServer.setWorker s .clearing).workersRemaining < w.workersRemaining := by
        have hsame : w.signalServer.workersRemaining = w.workersRemaining := by
          rw [World.workersRemaining, signalServer_worker, World.workersRemaining]
        rw [← hsame]
        refine remaining_setWorker_lt hs ?_
        rw [signalServer_worker, h.1]
        decide
      have hmain : w.signalServer.main.remaining ≤ w.main.remaining := by
        unfold World.signalServer
        split
        · next hm =>
            rw [hm]
            exact show Main.woken.remaining ≤ Main.waiting.remaining by decide
        · exact le_rfl
      exact Nat.add_lt_add_of_le_of_lt hmain hworkers
  · cases hstep

/-- Every such step of a closed server brings it nearer to its end. -/
theorem perform_lt {a : Label} (hw : Sound w) (ha : closing w a = true) (hstep : perform a w = some w') :
    w'.remaining < w.remaining := by
  have hclosed : w.serverOpen = false := by
    have hboth := Bool.and_eq_true_iff.1 ha
    simpa using hboth.1
  cases a with
  | main => exact mainStep_lt hw hclosed hstep
  | wakeMain =>
      simp only [perform, wakeMain] at hstep
      split at hstep
      · next hm =>
          cases hstep
          exact remaining_main_lt hclosed (by rw [hm]; decide)
      · cases hstep
  | worker s =>
      simp only [perform] at hstep
      have hleaves : w.worker s ≠ .resumed ∨ getOpenFilesNumber w.lib = 0 := by
        simpa [closing, ofWorkers, hclosed] using ha
      split at hstep
      · next hs => exact workerStep_lt hs hclosed hleaves hstep
      · cases hstep
  | wake s =>
      simp only [perform, wake] at hstep
      split at hstep
      · next hs =>
          split at hstep
          · next hq =>
              cases hstep
              exact remaining_worker_lt hs hclosed (by rw [hq]; decide)
          · cases hstep
      · cases hstep
  | library s c u =>
      simp only [perform] at hstep
      split at hstep
      · next hs => exact library_lt hs hclosed hstep
      · cases hstep
  | writeShutdown s =>
      simp only [perform] at hstep
      split at hstep
      · next hs => exact writeShutdown_lt hs hclosed hstep
      · cases hstep
  | hear opcode s => simp [closing, ofWorkers] at ha
  | receiver => simp [closing, ofWorkers] at ha
  | cancel => simp [closing, ofWorkers] at ha
  | resume s => simp [closing, ofWorkers] at ha

/-- The receiver adds nothing. -/
theorem receiverStep_le (hclosed : w.serverOpen = false) (hstep : receiverStep w = some w') :
    w'.remaining ≤ w.remaining := by
  unfold receiverStep at hstep
  split at hstep
  · split at hstep
    · cases hstep
      exact le_rfl
    · cases hstep
  · next opcode s hq =>
      cases hstep
      have hopen : (w.signal s).serverOpen = false := (signal_serverOpen w s).trans hclosed
      have hsignal : (w.signal s).remaining ≤ w.remaining := by
        rw [remaining_of_closed hclosed, remaining_of_closed hopen, signal_main]
        exact Nat.add_le_add_left remaining_signal_le _
      exact hsignal
  · cases hstep

/-- In its loop a worker that finds a file open has as many steps left as before. -/
theorem drainOrWait_le (hclosed : w.serverOpen = false) (hq : w.worker s = .resumed)
    (hopen : getOpenFilesNumber w.lib ≠ 0) : (w.drainOrWait s).remaining ≤ w.remaining := by
  have hopen' : (w.drainOrWait s).serverOpen = false := hclosed
  rw [remaining_of_closed hclosed, remaining_of_closed hopen']
  refine Nat.add_le_add_left (remaining_setWorker_le ?_) _
  rw [hq, if_neg hopen]
  decide

theorem perform_le {a : Label} (ha : closing w a = false) (hstep : perform a w = some w') :
    w'.remaining ≤ w.remaining := by
  -- before the server is closed nothing is counted, and the whole end is left
  by_cases hopen : w.serverOpen = true
  · rw [World.remaining, World.remaining, if_pos hopen]
    exact remaining_le w'
  · have hclosed : w.serverOpen = false := by simpa using hopen
    cases a with
    | hear opcode s =>
        simp only [perform, hear] at hstep
        split at hstep
        · cases hstep
          exact le_rfl
        · cases hstep
    | receiver => exact receiverStep_le hclosed hstep
    | cancel =>
        simp only [perform, cancel] at hstep
        split at hstep
        · split at hstep
          · cases hstep
            exact le_rfl
          · split at hstep
            · cases hstep
              exact le_rfl
            · cases hstep
          · cases hstep
        · cases hstep
    | worker s =>
        -- the one step of a worker that is not counted
        have hstays : w.worker s = .resumed ∧ getOpenFilesNumber w.lib ≠ 0 := by
          simpa [closing, ofWorkers, hclosed] using ha
        simp only [perform, workerStep, hstays.1] at hstep
        split at hstep
        · cases hstep
          exact drainOrWait_le hclosed hstays.1 hstays.2
        · cases hstep
    | resume s =>
        simp only [perform, resume] at hstep
        split at hstep
        · split at hstep
          · next hq =>
              cases hstep
              exact remaining_resumed_le hclosed hq
          · cases hstep
        · cases hstep
    | main => simp [closing, ofWorkers, hclosed] at ha
    | wakeMain => simp [closing, ofWorkers, hclosed] at ha
    | wake s => simp [closing, ofWorkers, hclosed] at ha
    | library s c u => simp [closing, ofWorkers, hclosed] at ha
    | writeShutdown s => simp [closing, ofWorkers, hclosed] at ha

end Measure

/-! ## Nothing inside of the server holds it up -/

/-- Worker `s` is before the section of the library of a request, or before the end of its answer. -/
def World.Answers (w : World) (s : ℕ) : Prop :=
  w.worker s = .handling ∧ CallsLibrary (w.opcode s) ∨ w.worker s = .opening ∨ w.worker s = .answering

instance (w : World) (s : ℕ) : Decidable (w.Answers s) := inferInstanceAs (Decidable (_ ∨ _))

/-- The step waits for nothing from outside. -/
def Unaided (w : World) : Label → Prop
  | .main => True
  | .receiver => ∀ opcode s, w.receiver = .storing opcode s → ¬ ReadsFields opcode
  | .cancel => True
  | .worker s => ¬ w.Answers s
  | _ => False

/-- Some thread can go on by itself. -/
def GoesOn (w : World) : Prop :=
  ∃ a w', Unaided w a ∧ perform a w = some w'

/-- A worker is about to answer a request, or the receiver reads the fields of one with the mutex of its
slot in hand. -/
def HeldUp (w : World) : Prop :=
  (∃ s < maxSessionsAmount, w.Answers s) ∨
    ∃ opcode s, w.receiver = .storing opcode s ∧ ReadsFields opcode ∧ w.cancelled = false

section Progress

variable {w : World} {s : ℕ}

theorem World.Answers.locked (h : w.Answers s) : (w.worker s).Locked := by
  rcases h with ⟨hq, _⟩ | hq | hq
  · rw [hq]; trivial
  · rw [hq]; trivial
  · rw [hq]; trivial

/-- A receiver with a mutex gives it up. -/
theorem storing_goesOn {opcode : Byte} (hq : w.receiver = .storing opcode s) : GoesOn w ∨ HeldUp w ∨ Waits w := by
  -- with a mutex in hand it waits for bytes, and can be cancelled, only while it reads fields
  by_cases hreads : ReadsFields opcode
  · by_cases hcancelled : w.cancelled = true
    · left
      refine ⟨.cancel, { w with receiver := .ended (some s) }, trivial, ?_⟩
      simp [perform, cancel, hcancelled, hq, hreads]
    · exact Or.inr (Or.inl (Or.inr ⟨opcode, s, hq, hreads, by simpa using hcancelled⟩))
  · left
    refine ⟨.receiver, _, ?_, by simp only [perform, receiverStep, hq]; rfl⟩
    intro opcode' s' hq'
    rw [hq] at hq'
    cases hq'
    exact hreads

theorem holdsBuffer_goesOn (hin : w.Inside s .receiver) (hreceiver : ∀ held, w.receiver ≠ .ended held) :
    GoesOn w ∨ HeldUp w ∨ Waits w := by
  cases hq : w.receiver with
  | storing opcode t => exact storing_goesOn hq
  | ended held => exact absurd hq (hreceiver held)
  | reading =>
      rw [World.Inside, hq] at hin
      cases hin
  | locking opcode t =>
      rw [World.Inside, hq] at hin
      cases hin

/-- A worker with a request goes on, is held up, or waits for the files to be closed. -/
theorem handling_goesOn (hs : s < maxSessionsAmount) (hq : w.worker s = .handling) :
    GoesOn w ∨ HeldUp w ∨ Waits w := by
  by_cases hcalls : CallsLibrary (w.opcode s)
  · exact Or.inr (Or.inl (Or.inl ⟨s, hs, Or.inl ⟨hq, hcalls⟩⟩))
  · left
    have hunaided : Unaided w (.worker s) := by
      simp [Unaided, World.Answers, hq, hcalls]
    have hhandle : ∃ w', handle s w = some w' := by
      unfold handle
      split
      · exact ⟨_, rfl⟩
      · split
        · exact ⟨_, rfl⟩
        · exact ⟨_, rfl⟩
    rcases hhandle with ⟨w', hstep⟩
    exact ⟨.worker s, w', hunaided, by simp only [perform, if_pos hs, workerStep, hq, hstep]⟩

/-- A worker that is neither waiting nor ended goes on, or something outside of it is awaited. -/
theorem worker_goesOn (hw : Sound w) (hs : s < maxSessionsAmount) (hended : w.worker s ≠ .ended)
    (hwaiting : w.worker s ≠ .waiting) (hmain : w.main.slot ≠ some s)
    (hreceiver : ∀ held, w.receiver ≠ .ended held) : GoesOn w ∨ HeldUp w ∨ Waits w := by
  have hstep : ∀ w', workerStep s w = some w' → ¬ w.Answers s → GoesOn w := by
    intro w' hstep hanswers
    exact ⟨.worker s, w', hanswers, by simp only [perform, if_pos hs, hstep]⟩
  -- before the mutex of its slot
  have htake : ¬ (w.worker s).Locked → workerStep s w = takeBuffer s w → GoesOn w ∨ HeldUp w ∨ Waits w := by
    intro hout htake
    rcases howner : w.owner s with _ | p
    · left
      refine hstep _ (by rw [htake, takeBuffer, if_pos howner]) ?_
      intro hanswers
      exact hout hanswers.locked
    · have hin := (hw.owned s p).1 howner
      cases p with
      | worker => exact absurd hin hout
      | main => exact absurd hin hmain
      | receiver => exact holdsBuffer_goesOn hin hreceiver
  cases hq : w.worker s with
  | outer => exact Or.inl (hstep _ (by simp only [workerStep, hq]; rfl) (by simp [World.Answers, hq]))
  | locking => exact htake (by simp [hq, Worker.Locked]) (by simp [workerStep, hq])
  | testing =>
      left
      have hanswers : ¬ w.Answers s := by simp [World.Answers, hq]
      by_cases hrequest : w.opcode s > tfsOpCodeNull
      · exact hstep _ (by simp only [workerStep, hq, if_pos hrequest]; rfl) hanswers
      · by_cases hopen : w.serverOpen = true
        · exact hstep _ (by simp only [workerStep, hq, if_neg hrequest, if_pos hopen]; rfl) hanswers
        · exact hstep _ (by simp only [workerStep, hq, if_neg hrequest, if_neg hopen]; rfl) hanswers
  | parking => exact Or.inl (hstep _ (by simp only [workerStep, hq]; rfl) (by simp [World.Answers, hq]))
  | waiting => exact absurd hq hwaiting
  | woken => exact htake (by simp [hq, Worker.Locked]) (by simp [workerStep, hq])
  | handling => exact handling_goesOn hs hq
  | opening => exact Or.inr (Or.inl (Or.inl ⟨s, hs, Or.inr (Or.inl hq)⟩))
  | draining => exact Or.inr (Or.inr ⟨s, hs, hq⟩)
  | resumed => exact Or.inl (hstep _ (by simp only [workerStep, hq]; rfl) (by simp [World.Answers, hq]))
  | answering => exact Or.inr (Or.inl (Or.inl ⟨s, hs, Or.inr (Or.inr hq)⟩))
  | clearing => exact Or.inl (hstep _ (by simp only [workerStep, hq]; rfl) (by simp [World.Answers, hq]))
  | ended => exact absurd hq hended

/-- The receiver ends only after its cancellation. -/
theorem receiver_ne_ended (hw : Sound w) (hm : ¬ w.main.Cancelled) : ∀ held, w.receiver ≠ .ended held :=
  fun held hended => hm (hw.cancelling.1 (hw.cancelled held hended))

/-- `main` can take its next step. -/
theorem main_goesOn (h : (mainStep w).isSome = true) : GoesOn w ∨ HeldUp w ∨ Waits w := by
  rcases Option.isSome_iff_exists.1 h with ⟨w', hstep⟩
  exact Or.inl ⟨.main, w', trivial, hstep⟩

/-- `server_destroy` locks a mutex. -/
theorem signalling_goesOn (hw : Sound w) {k : ℕ} (hm : w.main = .signalling k) : GoesOn w ∨ HeldUp w ∨ Waits w := by
  have hreceiver := receiver_ne_ended hw (by rw [hm]; exact id)
  have hmain : w.main.slot ≠ some k := by
    rw [hm]
    exact fun h => nomatch h
  by_cases hk : k < maxSessionsAmount
  · rcases howner : w.owner k with _ | p
    · exact main_goesOn (by simp only [mainStep, hm, if_pos hk, if_pos howner]; rfl)
    · have hin := (hw.owned k p).1 howner
      cases p with
      | main => exact absurd hin hmain
      | worker =>
          -- a worker with the mutex has neither ended nor begun to wait
          refine worker_goesOn hw hk ?_ ?_ hmain hreceiver
          · intro hq
            rw [World.Inside, hq] at hin
            exact hin
          · intro hq
            rw [World.Inside, hq] at hin
            exact hin
      | receiver => exact holdsBuffer_goesOn hin hreceiver
  · exact main_goesOn (by simp only [mainStep, hm, if_neg hk]; rfl)

/-- `server_destroy` joins a worker: all of them have been signalled. -/
theorem joining_goesOn (hw : Sound w) {k : ℕ} (hm : w.main = .joining k) : GoesOn w ∨ HeldUp w ∨ Waits w := by
  by_cases hk : k < maxSessionsAmount
  · by_cases hended : w.worker k = .ended
    · exact main_goesOn (by simp only [mainStep, hm, if_pos hk, if_pos hended]; rfl)
    · have hawake := hw.workerWoken k hk (by rw [hm]; trivial)
      refine worker_goesOn hw hk hended ?_ ?_ (receiver_ne_ended hw (by rw [hm]; exact id))
      · intro hwaiting
        exact hawake (by rw [hwaiting]; trivial)
      · rw [hm]
        exact fun h => nomatch h
  · exact main_goesOn (by simp only [mainStep, hm, if_neg hk]; rfl)

/-- `server_destroy` joins the receiver, which is cancelled and has no worker in its way. -/
theorem joiningReceiver_goesOn (hw : Sound w) (hm : w.main = .joiningReceiver) : GoesOn w ∨ HeldUp w ∨ Waits w := by
  have hcancelled : w.cancelled = true := hw.cancelling.2 (by rw [hm]; trivial)
  cases hq : w.receiver with
  | reading =>
      left
      refine ⟨.cancel, { w with receiver := .ended none }, trivial, ?_⟩
      simp [perform, cancel, hcancelled, hq]
  | storing opcode t => exact storing_goesOn hq
  | ended held =>
      exact main_goesOn (by simp only [mainStep, hm, hq]; rfl)
  | locking opcode t =>
      rcases howner : w.owner t with _ | p
      · left
        refine ⟨.receiver, _, ?_, by simp only [perform, receiverStep, hq, if_pos howner]; rfl⟩
        intro opcode' s' hq'
        rw [hq] at hq'
        cases hq'
      · have hin := (hw.owned t p).1 howner
        cases p with
        | main =>
            rw [World.Inside, hm] at hin
            cases hin
        | receiver =>
            rw [World.Inside, hq] at hin
            cases hin
        | worker =>
            -- all workers were joined before
            rw [World.Inside, hw.joined t (hw.session opcode t hq) (by rw [hm]; trivial)] at hin
            exact False.elim hin

/-- In a closed server that has not come to its end some thread goes on, or is held up from outside, or a
worker waits for the files to be closed. -/
theorem progress (hw : Sound w) (hclosed : w.serverOpen = false) (hm : w.main ≠ .finished) :
    GoesOn w ∨ HeldUp w ∨ Waits w := by
  cases hmain : w.main with
  | testing => exact main_goesOn (by simp only [mainStep, hmain]; rfl)
  | waiting => exact absurd hmain (hw.serverWoken hclosed)
  | woken => exact main_goesOn (by simp only [mainStep, hmain]; rfl)
  | signalling k => exact signalling_goesOn hw hmain
  | holding k => exact main_goesOn (by simp only [mainStep, hmain]; rfl)
  | signalled k => exact main_goesOn (by simp only [mainStep, hmain]; rfl)
  | joining k => exact joining_goesOn hw hmain
  | cancelling => exact main_goesOn (by simp only [mainStep, hmain]; rfl)
  | joiningReceiver => exact joiningReceiver_goesOn hw hmain
  | destroying => exact main_goesOn (by simp only [mainStep, hmain]; rfl)
  | finished => exact absurd hmain hm

end Progress

/-! ## The end -/

section Runs

variable {h : List (World × Label)} {w : World}

theorem Main.JoinedReceiver.slot_eq {m : Main} (h : m.JoinedReceiver) : m.slot = none := by
  cases m with
  | destroying => rfl
  | finished => rfl
  | _ => exact False.elim h

theorem Main.JoinedReceiver.joined {m : Main} {s : ℕ} (h : m.JoinedReceiver) : m.Joined s := by
  cases m with
  | destroying => trivial
  | finished => trivial
  | _ => exact False.elim h

/-- When the locks are destroyed every other thread has ended, and no mutex is held but the one with which
the receiver was cancelled. -/
theorem Sound.ended (hw : Sound w) (hm : w.main.JoinedReceiver) :
    (∀ s < maxSessionsAmount, w.worker s = .ended) ∧ ∃ held, w.receiver = .ended held ∧
      ∀ s < maxSessionsAmount, w.owner s = none ∨ held = some s := by
  have hjoined : ∀ s < maxSessionsAmount, w.worker s = .ended :=
    fun s hs => hw.joined s hs hm.joined
  rcases hw.joinedReceiver hm with ⟨held, hreceiver⟩
  refine ⟨hjoined, held, hreceiver, ?_⟩
  intro s hs
  rcases howner : w.owner s with _ | p
  · exact Or.inl rfl
  · right
    have hin := (hw.owned s p).1 howner
    cases p with
    | receiver =>
        rw [World.Inside, hreceiver] at hin
        exact hin
    | worker =>
        rw [World.Inside, hjoined s hs] at hin
        exact False.elim hin
    | main =>
        rw [World.Inside, hm.slot_eq] at hin
        cases hin

/-- **The server ends.** In every run the mutexes are held as the sections of the threads say, no wake-up is
lost, and the locks are destroyed behind all other threads.  Once the server is closed, `main` and the
workers take at most 268 more steps, and until `main` has ended some thread goes on by itself or is held
up from outside; the one other wait is that in `tfs_destroy_after_all_closed`, of a second shutdown request.
A single shutdown request waits there only while a file is open. -/
theorem closes (he : server.Execution h w) :
    Sound w ∧
      (w.main.JoinedReceiver → (∀ s < maxSessionsAmount, w.worker s = .ended) ∧
        ∃ held, w.receiver = .ended held ∧ ∀ s < maxSessionsAmount, w.owner s = none ∨ held = some s) ∧
      System.count closing h ≤ 268 ∧
      (w.serverOpen = false → w.main ≠ .finished →
        GoesOn w ∨ HeldUp w ∨ (Waits w ∧ 2 ≤ System.count hearsShutdown h)) ∧
      (Waits w → FileOpen w ∨ 2 ≤ System.count hearsShutdown h) := by
  have hw : Sound w := sound_of_reachable ⟨h, he⟩
  have hd : Drains (System.count hearsShutdown h) w := drains_of_execution he
  -- a counted step lowers what is left, any other step does not raise it
  have hcount : System.count closing h + w.remaining ≤ 268 := by
    refine he.count_add_le ?_ ?_ ?_
    · intro s _
      exact remaining_le s
    · intro s a t hs hst ha
      exact perform_lt (sound_of_reachable hs) ha hst
    · intro s a t _ hst ha
      exact perform_le ha hst
  refine ⟨hw, hw.ended, by omega, ?_, hd.fileOpen⟩
  intro hclosed hm
  refine (progress hw hclosed hm).imp_right (Or.imp_right ?_)
  rintro ⟨s, hs, hq⟩
  exact ⟨⟨s, hs, hq⟩, hd.two_le_of_closed hs (by rw [hq]; trivial) hclosed⟩

/-- Worker `s` of an open server comes to its wait, from outside of the loops. -/
def toWait (s : ℕ) : List Label :=
  List.replicate 4 (.worker s)

/-- A request comes to the slot of worker `s`, which waits; it stands before its answer then. -/
def toRequest (opcode : Byte) (s : ℕ) : List Label :=
  [.hear opcode s, .receiver, .receiver, .worker s, .worker s]

/-- Worker 1 opens a file; worker 0 takes a shutdown request, waits, and is woken when worker 1 closes the
file; then it closes the server.  Worker 1 waits until `server_destroy` signals it, and the others have not
begun. -/
def wholeLife : List Label :=
  .main :: toWait 0 ++ toWait 1 ++
    toRequest tfsOpCodeOpen 1 ++ [.worker 1, .library 1 (.open (some slashA) tfsOCreat) 0, .worker 1, .worker 1] ++
    toWait 1 ++ toRequest tfsOpCodeShutdownAfterAllClosed 0 ++ [.worker 0] ++
    toRequest tfsOpCodeClose 1 ++ [.library 1 (.close 0) 0, .worker 1, .worker 1] ++ toWait 1 ++
    [.worker 0, .writeShutdown 0, .main, .main, .worker 0, .worker 0] ++ List.replicate 61 .main ++
    [.worker 1, .worker 1, .worker 1, .worker 1] ++ (List.range 18).map (fun s => .worker (s + 2)) ++
    List.replicate 22 .main ++ [.cancel, .main, .main]

theorem performAll_wholeLife : (System.performAll (System.record perform) wholeLife ([], World.start)).any
    (fun x => x.2.main = .finished) = true := by
  decide +kernel

theorem closes_wholeLife : ∃ h w, server.Execution h w ∧ w.main = .finished ∧
    (∀ s < maxSessionsAmount, w.worker s = .ended) ∧ System.count closing h ≤ 268 := by
  rcases System.execution_of_any (M := server) perform (fun _ _ _ hst => hst) rfl performAll_wholeLife with
    ⟨h, w, he, _, hm⟩
  rcases closes he with ⟨_, hended, hcount, _⟩
  exact ⟨h, w, he, hm, (hended (by rw [hm]; trivial)).1, hcount⟩

/-- Workers 0 and 1 wait for the file that worker 2 closes, which wakes worker 0 only; that one closes the
server, and `server_destroy` comes to the slot of worker 1. -/
def twoShutdowns : List Label :=
  .main :: toWait 0 ++ toWait 1 ++ toWait 2 ++
    toRequest tfsOpCodeOpen 2 ++ [.worker 2, .library 2 (.open (some slashA) tfsOCreat) 0, .worker 2, .worker 2] ++
    toWait 2 ++ toRequest tfsOpCodeShutdownAfterAllClosed 0 ++ [.worker 0] ++
    toRequest tfsOpCodeShutdownAfterAllClosed 1 ++ [.worker 1] ++
    toRequest tfsOpCodeClose 2 ++ [.library 2 (.close 0) 0, .worker 2, .worker 2] ++ toWait 2 ++
    [.worker 0, .writeShutdown 0, .main, .main, .worker 0, .worker 0, .main, .main, .main] ++
    (List.range 17).map (fun s => .worker (s + 3))

/-- No thread goes on, and nothing from outside is awaited. -/
def Stands (w : World) : Prop :=
  (perform .main w).isNone ∧ (perform .receiver w).isNone ∧ (perform .cancel w).isNone ∧
    (∀ s < maxSessionsAmount, (perform (.worker s) w).isNone ∧ ¬ w.Answers s) ∧ w.receiver = .reading

instance (w : World) : Decidable (Stands w) := inferInstanceAs (Decidable (_ ∧ _))

theorem Stands.not_goesOn (hw : Stands w) : ¬ GoesOn w := by
  rintro ⟨a, w', hunaided, hstep⟩
  have hnone : (perform a w).isNone = true := by
    cases a with
    | main => exact hw.1
    | receiver => exact hw.2.1
    | cancel => exact hw.2.2.1
    | worker s =>
        by_cases hs : s < maxSessionsAmount
        · exact (hw.2.2.2.1 s hs).1
        · simp [perform, hs]
    | _ => exact False.elim hunaided
  rw [hstep] at hnone
  cases hnone

theorem Stands.not_heldUp (hw : Stands w) : ¬ HeldUp w := by
  rintro (⟨s, hs, hanswers⟩ | ⟨opcode, s, hq, _⟩)
  · exact (hw.2.2.2.1 s hs).2 hanswers
  · rw [hw.2.2.2.2] at hq
    cases hq

theorem performAll_twoShutdowns : (System.performAll perform twoShutdowns World.start).any
    (fun w => Stands w ∧ w.serverOpen = false ∧ w.main = .signalling 1 ∧ getOpenFilesNumber w.lib = 0) = true := by
  decide +kernel

/-- With two shutdown requests the closed server can come to a stop before its end, with no file open. -/
theorem twoShutdowns_stand : ∃ w, server.Reachable w ∧ (¬ GoesOn w ∧ ¬ HeldUp w) ∧ w.serverOpen = false ∧
    w.main = .signalling 1 ∧ getOpenFilesNumber w.lib = 0 := by
  rcases (Option.any_eq_true _ _).1 performAll_twoShutdowns with ⟨w, hrun, hw⟩
  rcases of_decide_eq_true hw with ⟨hstands, hrest⟩
  have hstart : server.Execution [] World.start := .start rfl
  rcases System.Execution.performAll (M := server) (fun _ _ _ _ h => h) hstart hrun with ⟨h, he, _⟩
  exact ⟨w, ⟨h, he⟩, ⟨hstands.not_goesOn, hstands.not_heldUp⟩, hrest⟩

end Runs

end LifeCycle
end Sessions
end TecnicoFs
