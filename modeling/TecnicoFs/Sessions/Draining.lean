import Mathlib.Algebra.BigOperators.Group.Finset.Basic
import Mathlib.Algebra.BigOperators.Group.Finset.Piecewise
import Mathlib.Algebra.Order.BigOperators.Group.Finset
import TecnicoFs.Sessions.LifeCycle

/-!
# Draining — the wait of `tfs_destroy_after_all_closed`

The worker of a shutdown request waits until no file is open.  The `tfs_close` that leaves none wakes one
waiting worker, so that of two such requests one can be left in its wait.  The requests are counted here
from the receiver to the end of their answer: with a single one the wait goes on only while a file is open,
and no worker is in it when the server is closed.
-/

namespace TecnicoFs
namespace Sessions
namespace LifeCycle

open Lib Wire Intake Server

/-! ## Shutdown requests -/

/-- The receiver has the opcode of a shutdown request and no slot for it yet. -/
def Receiver.shutdowns : Receiver → ℕ
  | locking opcode _ => if opcode = tfsOpCodeShutdownAfterAllClosed then 1 else 0
  | _ => 0

/-- A slot has a shutdown request, and its worker is not behind the answer. -/
def shutdownIn (opcode : Byte) (q : Worker) : ℕ :=
  if opcode = tfsOpCodeShutdownAfterAllClosed ∧ q ≠ .clearing then 1 else 0

@[irreducible] def slotShutdowns (opcode : ℕ → Byte) (worker : ℕ → Worker) : ℕ :=
  ∑ s ∈ Finset.range maxSessionsAmount, shutdownIn (opcode s) (worker s)

/-- The shutdown requests on their way, and the one that has closed the server. -/
def World.shutdowns (w : World) : ℕ :=
  w.receiver.shutdowns + slotShutdowns w.opcode w.worker + if w.serverOpen then 0 else 1

/-- The receiver hears a shutdown request. -/
def hearsShutdown (_ : World) : Label → Bool
  | .hear opcode _ => opcode = tfsOpCodeShutdownAfterAllClosed
  | _ => false

/-! ## The law -/

/-- The worker is in the loop of `tfs_destroy_after_all_closed`. -/
def Worker.InLoop : Worker → Prop
  | draining => True
  | resumed => True
  | _ => False

theorem Worker.InLoop.locked {q : Worker} (h : q.InLoop) : q.Locked := by
  cases q with
  | draining => trivial
  | resumed => trivial
  | _ => exact False.elim h

/-- A worker is blocked on `destroy_cond`. -/
def Waits (w : World) : Prop :=
  ∃ s < maxSessionsAmount, w.worker s = .draining

/-- An entry of the table of open files is TAKEN. -/
def FileOpen (w : World) : Prop :=
  ∃ g < maxOpenFiles, w.lib.freeOpenFileEntries g = .taken

/-- What holds of the wait when `n` shutdown requests were heard. -/
structure Drains (n : ℕ) (w : World) : Prop where
  counted : Counted w.lib
  shutdowns : w.shutdowns ≤ n
  requested : ∀ s, (w.worker s).InLoop → w.opcode s = tfsOpCodeShutdownAfterAllClosed
  waits : Waits w → getOpenFilesNumber w.lib ≠ 0 ∨ 2 ≤ n

/-! ## What the steps change -/

section Inversion

variable {w w' : World} {s : ℕ}

/-- `main` goes on by itself, or signals the worker of a slot. -/
theorem mainStep_cases (h : mainStep w = some w') :
    (∃ m owner cancelled, w' = { w with main := m, owner := owner, cancelled := cancelled }) ∨
      ∃ k m, w' = { w.signal k with main := m } := by
  unfold mainStep at h
  cases hm : w.main with
  | holding k =>
      simp only [hm] at h
      cases h
      exact Or.inr ⟨k, _, rfl⟩
  | waiting =>
      simp only [hm] at h
      cases h
  | finished =>
      simp only [hm] at h
      cases h
  | signalling k =>
      simp only [hm] at h
      split at h
      · split at h
        · cases h
          exact Or.inl ⟨_, _, _, rfl⟩
        · cases h
      · cases h
        exact Or.inl ⟨_, _, _, rfl⟩
  | joining k =>
      simp only [hm] at h
      split at h
      · split at h
        · cases h
          exact Or.inl ⟨_, _, _, rfl⟩
        · cases h
      · cases h
        exact Or.inl ⟨_, _, _, rfl⟩
  | joiningReceiver =>
      simp only [hm] at h
      split at h
      · cases h
        exact Or.inl ⟨_, _, _, rfl⟩
      · cases h
  | _ =>
      simp only [hm] at h
      cases h
      exact Or.inl ⟨_, _, _, rfl⟩

theorem takeBuffer_eq (h : takeBuffer s w = some w') :
    w' = (w.setOwner s (some .worker)).setWorker s .testing := by
  unfold takeBuffer at h
  split at h
  · cases h
    rfl
  · cases h

/-- A worker begins a request, tests the condition of the loop, clears its slot, or goes on outside of the
loop with the mutexes as they may be. -/
theorem workerStep_cases (h : workerStep s w = some w') :
    (w.worker s = .handling ∧ handle s w = some w') ∨
      (w.worker s = .resumed ∧ w' = w.drainOrWait s) ∨
      (w.worker s = .clearing ∧ w' = { (w.setOwner s none).setWorker s .outer with
        opcode := Function.update w.opcode s tfsOpCodeNull }) ∨
      (w.worker s ≠ .clearing ∧ ∃ q owner, ¬ q.InLoop ∧ w' = { w.setWorker s q with owner := owner }) := by
  unfold workerStep at h
  cases hq : w.worker s with
  | handling =>
      simp only [hq] at h
      exact Or.inl ⟨rfl, h⟩
  | resumed =>
      simp only [hq] at h
      cases h
      exact Or.inr (Or.inl ⟨rfl, rfl⟩)
  | clearing =>
      simp only [hq] at h
      cases h
      exact Or.inr (Or.inr (Or.inl ⟨rfl, rfl⟩))
  | locking =>
      simp only [hq] at h
      exact Or.inr (Or.inr (Or.inr ⟨Worker.noConfusion, _, _, id, takeBuffer_eq h⟩))
  | woken =>
      simp only [hq] at h
      exact Or.inr (Or.inr (Or.inr ⟨Worker.noConfusion, _, _, id, takeBuffer_eq h⟩))
  | testing =>
      simp only [hq] at h
      split at h
      · cases h
        exact Or.inr (Or.inr (Or.inr ⟨Worker.noConfusion, _, _, id, rfl⟩))
      · split at h
        · cases h
          exact Or.inr (Or.inr (Or.inr ⟨Worker.noConfusion, _, _, id, rfl⟩))
        · cases h
          exact Or.inr (Or.inr (Or.inr ⟨Worker.noConfusion, _, _, id, rfl⟩))
  | outer =>
      simp only [hq] at h
      cases h
      refine Or.inr (Or.inr (Or.inr ⟨Worker.noConfusion, _, _, ?_, rfl⟩))
      split
      · exact id
      · exact id
  | parking =>
      simp only [hq] at h
      cases h
      exact Or.inr (Or.inr (Or.inr ⟨Worker.noConfusion, _, _, id, rfl⟩))
  | answering =>
      simp only [hq] at h
      cases h
      exact Or.inr (Or.inr (Or.inr ⟨Worker.noConfusion, _, _, id, rfl⟩))
  | _ =>
      simp only [hq] at h
      cases h

end Inversion

/-! ## Counting the requests -/

section Counting

variable {w w' : World} {s t : ℕ} {q r : Worker} {opcode opcode' : ℕ → Byte} {worker worker' : ℕ → Worker}

theorem shutdownIn_le_one (opcode : Byte) (q : Worker) : shutdownIn opcode q ≤ 1 := by
  unfold shutdownIn
  split
  · exact le_rfl
  · exact zero_le_one

theorem shutdownIn_of_ne {opcode : Byte} (h : opcode ≠ tfsOpCodeShutdownAfterAllClosed) :
    shutdownIn opcode q = 0 :=
  if_neg fun hboth => h hboth.1

theorem shutdownIn_shutdown (hq : q ≠ .clearing) : shutdownIn tfsOpCodeShutdownAfterAllClosed q = 1 :=
  if_pos ⟨rfl, hq⟩

/-- A worker that goes on adds no request. -/
theorem shutdownIn_le {opcode : Byte} (hq : q ≠ .clearing) : shutdownIn opcode r ≤ shutdownIn opcode q := by
  by_cases hopcode : opcode = tfsOpCodeShutdownAfterAllClosed
  · rw [hopcode, shutdownIn_shutdown hq]
    exact shutdownIn_le_one _ _
  · rw [shutdownIn_of_ne hopcode]
    exact Nat.zero_le _

theorem slotShutdowns_le (h : ∀ t, shutdownIn (opcode' t) (worker' t) ≤ shutdownIn (opcode t) (worker t)) :
    slotShutdowns opcode' worker' ≤ slotShutdowns opcode worker := by
  unfold slotShutdowns
  exact Finset.sum_le_sum fun t _ => h t

theorem slotShutdowns_worker_le (hq : worker s ≠ .clearing) :
    slotShutdowns opcode (Function.update worker s q) ≤ slotShutdowns opcode worker := by
  refine slotShutdowns_le fun t => ?_
  rw [Function.update_apply]
  split
  · next ht =>
      rw [ht]
      exact shutdownIn_le hq
  · exact le_rfl

theorem shutdowns_setWorker_le (hq : w.worker s ≠ .clearing) : (w.setWorker s q).shutdowns ≤ w.shutdowns :=
  Nat.add_le_add_right (Nat.add_le_add_left (slotShutdowns_worker_le hq) _) _

theorem shutdowns_signal_le : (w.signal s).shutdowns ≤ w.shutdowns := by
  unfold World.signal
  split
  · next hwaiting => exact shutdowns_setWorker_le (by simp [hwaiting])
  · exact le_rfl

theorem shutdowns_mainStep_le (h : mainStep w = some w') : w'.shutdowns ≤ w.shutdowns := by
  rcases mainStep_cases h with ⟨m, owner, cancelled, rfl⟩ | ⟨k, m, rfl⟩
  · exact le_rfl
  · exact shutdowns_signal_le

theorem shutdowns_hear_le {opcode : Byte} (h : hear opcode s w = some w') :
    w'.shutdowns ≤ w.shutdowns + if hearsShutdown w (.hear opcode s) then 1 else 0 := by
  unfold hear at h
  split at h
  · next hreading =>
      cases h
      simp only [World.shutdowns, hreading.1, Receiver.shutdowns, hearsShutdown, decide_eq_true_eq]
      omega
  · cases h

/-- The request goes from the receiver to the slot, over what the slot had. -/
theorem slotShutdowns_store_le (code : Byte) :
    slotShutdowns (Function.update opcode s code) worker ≤
      slotShutdowns opcode worker + (Receiver.locking code s).shutdowns := by
  -- slot `s` may have had no request before, the others stay
  have hle : ∀ t, shutdownIn (Function.update opcode s code t) (worker t) ≤
      shutdownIn (opcode t) (worker t) + if t = s then (Receiver.locking code s).shutdowns else 0 := by
    intro t
    rw [Function.update_apply]
    split
    · by_cases hcode : code = tfsOpCodeShutdownAfterAllClosed
      · rw [Receiver.shutdowns, if_pos hcode]
        exact (shutdownIn_le_one _ _).trans (Nat.le_add_left _ _)
      · rw [shutdownIn_of_ne hcode]
        exact Nat.zero_le _
    · exact Nat.le_add_right _ _
  unfold slotShutdowns
  calc ∑ t ∈ Finset.range maxSessionsAmount, shutdownIn (Function.update opcode s code t) (worker t)
      ≤ ∑ t ∈ Finset.range maxSessionsAmount,
          (shutdownIn (opcode t) (worker t) + if t = s then (Receiver.locking code s).shutdowns else 0) :=
        Finset.sum_le_sum fun t _ => hle t
    _ ≤ ∑ t ∈ Finset.range maxSessionsAmount, shutdownIn (opcode t) (worker t) +
          (Receiver.locking code s).shutdowns := by
        rw [Finset.sum_add_distrib, Finset.sum_ite_eq']
        refine Nat.add_le_add_left ?_ _
        split
        · exact le_rfl
        · exact Nat.zero_le _

theorem shutdowns_receiverStep_le (h : receiverStep w = some w') : w'.shutdowns ≤ w.shutdowns := by
  unfold receiverStep at h
  split at h
  · next code s hq =>
      split at h
      · cases h
        have hslots : slotShutdowns (Function.update w.opcode s code) w.worker ≤ _ := slotShutdowns_store_le code
        have hreceiver : (Receiver.storing code s).shutdowns = 0 := rfl
        simp only [World.shutdowns, World.setOwner, hq, hreceiver]
        omega
      · cases h
  · next code s hq =>
      cases h
      refine le_trans ?_ (shutdowns_signal_le (s := s))
      -- the request is in its slot, and the receiver has none
      simp only [World.shutdowns, World.setOwner, signal_receiver, hq, Receiver.shutdowns]
      exact le_rfl
  · cases h

theorem shutdowns_cancel_le (h : cancel w = some w') : w'.shutdowns ≤ w.shutdowns := by
  unfold cancel at h
  split at h
  · split at h
    · next hq =>
        cases h
        simp only [World.shutdowns, hq, Receiver.shutdowns]
        exact le_rfl
    · next opcode s hq =>
        split at h
        · cases h
          simp only [World.shutdowns, hq, Receiver.shutdowns]
          exact le_rfl
        · cases h
    · cases h
  · cases h

theorem shutdowns_handle_le (hq : w.worker s = .handling) (h : handle s w = some w') :
    w'.shutdowns ≤ w.shutdowns := by
  have hrunning : w.worker s ≠ .clearing := by
    rw [hq]
    exact Worker.noConfusion
  unfold handle at h
  split at h
  · cases h
    exact shutdowns_setWorker_le (w := { w with lib := setStateClosing w.lib }) hrunning
  · split at h
    · cases h
      exact shutdowns_setWorker_le hrunning
    · split at h
      · cases h
      · cases h
        exact shutdowns_setWorker_le hrunning

/-- A slot that is cleared has no request any more. -/
theorem shutdowns_clear_le :
    ({ (w.setOwner s none).setWorker s q with
        opcode := Function.update w.opcode s tfsOpCodeNull } : World).shutdowns ≤ w.shutdowns := by
  refine Nat.add_le_add_right (Nat.add_le_add_left (slotShutdowns_le fun t => ?_) _) _
  change shutdownIn (Function.update w.opcode s tfsOpCodeNull t) (Function.update w.worker s q t) ≤ _
  rw [Function.update_apply, Function.update_apply]
  split
  · rw [shutdownIn_of_ne (by decide)]
    exact Nat.zero_le _
  · exact le_rfl

theorem shutdowns_workerStep_le (h : workerStep s w = some w') : w'.shutdowns ≤ w.shutdowns := by
  rcases workerStep_cases h with ⟨hq, h⟩ | ⟨hq, rfl⟩ | ⟨_, rfl⟩ | ⟨hq, q, owner, _, rfl⟩
  · exact shutdowns_handle_le hq h
  · exact shutdowns_setWorker_le (by simp [hq])
  · exact shutdowns_clear_le
  · exact shutdowns_setWorker_le (w := { w with owner := owner }) hq

theorem shutdowns_library_le {c : Server.Call} (h : library s c t w = some w') :
    w'.shutdowns ≤ w.shutdowns := by
  rcases library_cases h with ⟨hcalls, lib, _, hcases⟩
  have hanswered : ({ w.setWorker s .answering with lib := lib } : World).shutdowns ≤ w.shutdowns := by
    refine shutdowns_setWorker_le (w := { w with lib := lib }) ?_
    intro hclearing
    rw [show w.worker s = .clearing from hclearing] at hcalls
    exact hcalls
  rcases hcases with ⟨_, rfl⟩ | ⟨_, hsignal⟩
  · exact hanswered
  · rcases signalDestroy_cases hsignal with ⟨_, hdraining, rfl⟩ | ⟨_, rfl⟩
    · exact (shutdowns_setWorker_le (by rw [hdraining]; exact Worker.noConfusion)).trans hanswered
    · exact hanswered

theorem signalServer_opcode (w : World) : w.signalServer.opcode = w.opcode := by
  unfold World.signalServer
  split
  · rfl
  · rfl

theorem signalServer_lib (w : World) : w.signalServer.lib = w.lib := by
  unfold World.signalServer
  split
  · rfl
  · rfl

theorem signalServer_receiver (w : World) : w.signalServer.receiver = w.receiver := by
  unfold World.signalServer
  split
  · rfl
  · rfl

theorem slotShutdowns_clearing_lt (hs : s < maxSessionsAmount) (hopcode : opcode s = tfsOpCodeShutdownAfterAllClosed)
    (hq : worker s ≠ .clearing) :
    slotShutdowns opcode (Function.update worker s .clearing) < slotShutdowns opcode worker := by
  unfold slotShutdowns
  refine Finset.sum_lt_sum ?_ ⟨s, Finset.mem_range.2 hs, ?_⟩
  · intro t _
    rw [Function.update_apply]
    split
    · next ht => exact shutdownIn_le (by rw [ht]; exact hq)
    · exact le_rfl
  · rw [Function.update_self, hopcode, shutdownIn_shutdown hq]
    exact one_pos

/-- The request that closes the server is counted for the closed server then. -/
theorem shutdowns_writeShutdown_le (hs : s < maxSessionsAmount) (h : writeShutdown s w = some w') :
    w'.shutdowns ≤ w.shutdowns := by
  unfold writeShutdown at h
  split at h
  · next hq =>
      cases h
      -- one less in the slots, one more for the closed server
      have hlt : slotShutdowns w.opcode (Function.update w.worker s .clearing) <
          slotShutdowns w.opcode w.worker := slotShutdowns_clearing_lt hs hq.2 (by simp [hq.1])
      simp only [World.shutdowns, World.setWorker, signalServer_opcode, signalServer_receiver, signalServer_worker,
        Bool.false_eq_true, if_false]
      split
      · omega
      · omega
  · cases h

/-- Only the receiver brings a shutdown request. -/
theorem shutdowns_perform_le {a : Label} (h : perform a w = some w') :
    w'.shutdowns ≤ w.shutdowns + if hearsShutdown w a then 1 else 0 := by
  cases a with
  | main => exact shutdowns_mainStep_le h
  | wakeMain =>
      simp only [perform, wakeMain] at h
      split at h
      · cases h
        exact le_rfl
      · cases h
  | hear opcode s => exact shutdowns_hear_le h
  | receiver => exact shutdowns_receiverStep_le h
  | cancel => exact shutdowns_cancel_le h
  | worker s =>
      simp only [perform] at h
      split at h
      · exact shutdowns_workerStep_le h
      · cases h
  | wake s =>
      simp only [perform, wake] at h
      split at h
      · split at h
        · next hq =>
            cases h
            exact shutdowns_setWorker_le (by simp [hq])
        · cases h
      · cases h
  | resume s =>
      simp only [perform, resume] at h
      split at h
      · split at h
        · next hq =>
            cases h
            exact shutdowns_setWorker_le (by simp [hq])
        · cases h
      · cases h
  | library s c u =>
      simp only [perform] at h
      split at h
      · exact shutdowns_library_le h
      · cases h
  | writeShutdown s =>
      simp only [perform] at h
      split at h
      · next hs => exact shutdowns_writeShutdown_le hs h
      · cases h

end Counting

/-! ## The steps keep it -/

/-- No worker comes into the loop, and nothing happens to the files. -/
structure Aside (w w' : World) : Prop where
  lib : w'.lib = w.lib
  worker : ∀ t, (w'.worker t).InLoop → w'.worker t = w.worker t ∧ w'.opcode t = w.opcode t

section Steps

variable {w w' : World} {s t n m : ℕ} {q : Worker}

theorem Aside.of_same (hlib : w'.lib = w.lib) (hworker : w'.worker = w.worker) (hopcode : w'.opcode = w.opcode) :
    Aside w w' :=
  ⟨hlib, fun _ _ => ⟨by rw [hworker], by rw [hopcode]⟩⟩

/-- A worker goes on outside of the loop. -/
theorem Aside.setWorker (hq : ¬ q.InLoop) (hlib : w'.lib = w.lib)
    (hworker : w'.worker = Function.update w.worker s q) (hopcode : ∀ t, t ≠ s → w'.opcode t = w.opcode t) :
    Aside w w' := by
  refine ⟨hlib, fun t ht => ?_⟩
  rw [hworker] at ht ⊢
  by_cases hts : t = s
  · rw [hts, Function.update_self] at ht
    exact absurd ht hq
  · rw [Function.update_of_ne hts]
    exact ⟨rfl, hopcode t hts⟩

theorem Aside.signal (s : ℕ) : Aside w (w.signal s) := by
  unfold World.signal
  split
  · exact .setWorker id rfl rfl fun _ _ => rfl
  · exact .of_same rfl rfl rfl

theorem Drains.aside (hd : Drains n w) (h : Aside w w') (hn : n ≤ m) (hshutdowns : w'.shutdowns ≤ m) :
    Drains m w' where
  counted := by
    rw [h.lib]
    exact hd.counted
  shutdowns := hshutdowns
  requested t ht := by
    rcases h.worker t ht with ⟨hworker, hopcode⟩
    rw [hopcode]
    exact hd.requested t (hworker ▸ ht)
  waits := by
    rintro ⟨t, ht, hdraining⟩
    have hbefore : w.worker t = .draining := by
      rw [← (h.worker t (by rw [hdraining]; trivial)).1]
      exact hdraining
    rw [h.lib]
    exact (hd.waits ⟨t, ht, hbefore⟩).imp_right hn.trans'

theorem aside_mainStep (h : mainStep w = some w') : Aside w w' := by
  rcases mainStep_cases h with ⟨m, owner, cancelled, rfl⟩ | ⟨k, m, rfl⟩
  · exact .of_same rfl rfl rfl
  · exact ⟨(Aside.signal k).lib, (Aside.signal k).worker⟩

/-- The receiver stores only with the mutex of the slot, whose worker is not in the loop then. -/
theorem aside_receiverStep (hw : Sound w) (h : receiverStep w = some w') : Aside w w' := by
  unfold receiverStep at h
  split at h
  · next opcode s hq =>
      split at h
      · next hfree =>
          cases h
          refine ⟨rfl, fun t ht => ⟨rfl, Function.update_of_ne ?_ _ _⟩⟩
          -- in the loop a worker has the mutex of its slot, so the receiver is not in it
          rintro rfl
          have hlocked : w.Inside t .worker := Worker.InLoop.locked ht
          have howner := (hw.owned t .worker).2 hlocked
          rw [hfree] at howner
          cases howner
      · cases h
  · next opcode s hq =>
      cases h
      exact ⟨(Aside.signal s).lib, (Aside.signal s).worker⟩
  · cases h

/-- The condition of the loop is tested. -/
theorem Drains.drainOrWait (hd : Drains n w) (hopcode : w.opcode s = tfsOpCodeShutdownAfterAllClosed)
    (hq : w.worker s ≠ .clearing) : Drains n (w.drainOrWait s) := by
  have hshutdowns : (w.drainOrWait s).shutdowns ≤ n := (shutdowns_setWorker_le hq).trans hd.shutdowns
  unfold World.drainOrWait at hshutdowns ⊢
  split at hshutdowns
  · next hzero =>
      rw [if_pos hzero]
      exact hd.aside (.setWorker id rfl rfl fun _ _ => rfl) le_rfl hshutdowns
  · next hnot =>
      rw [if_neg hnot]
      refine ⟨hd.counted, hshutdowns, ?_, fun _ => Or.inl hnot⟩
      intro t ht
      change (Function.update w.worker s .draining t).InLoop at ht
      rw [Function.update_apply] at ht
      split at ht
      · next hts => rw [hts]; exact hopcode
      · exact hd.requested t ht

theorem Drains.handle (hd : Drains n w) (hq : w.worker s = .handling) (h : LifeCycle.handle s w = some w') :
    Drains n w' := by
  have hshutdowns := (shutdowns_handle_le hq h).trans hd.shutdowns
  unfold LifeCycle.handle at h
  split at h
  · next hopcode =>
      cases h
      -- the flag is set, and the table stays
      have hclosing : Drains n { w with lib := setStateClosing w.lib } :=
        ⟨hd.counted, hd.shutdowns, hd.requested, hd.waits⟩
      exact hclosing.drainOrWait hopcode (by simp [hq])
  · split at h
    · cases h
      refine hd.aside (.setWorker ?_ rfl rfl fun _ _ => rfl) le_rfl hshutdowns
      split
      · exact id
      · exact id
    · split at h
      · cases h
      · cases h
        exact hd.aside (.setWorker id rfl rfl fun _ _ => rfl) le_rfl hshutdowns

theorem Drains.workerStep (hd : Drains n w) (h : LifeCycle.workerStep s w = some w') : Drains n w' := by
  have hshutdowns := (shutdowns_workerStep_le h).trans hd.shutdowns
  rcases workerStep_cases h with ⟨hq, h⟩ | ⟨hq, rfl⟩ | ⟨_, rfl⟩ | ⟨_, q, owner, hq, rfl⟩
  · exact hd.handle hq h
  · -- only a shutdown request comes into the loop, so the slot has one still
    exact hd.drainOrWait (hd.requested s (by rw [hq]; trivial)) (by simp [hq])
  · exact hd.aside (.setWorker id rfl rfl fun _ ht => Function.update_of_ne ht _ _) le_rfl hshutdowns
  · exact hd.aside (.setWorker hq rfl rfl fun _ _ => rfl) le_rfl hshutdowns

theorem Drains.resume (hd : Drains n w) (h : LifeCycle.resume s w = some w') : Drains n w' := by
  unfold LifeCycle.resume at h
  split at h
  · next hq =>
      cases h
      refine ⟨hd.counted, (shutdowns_setWorker_le (by simp [hq])).trans hd.shutdowns, ?_, ?_⟩
      · intro t ht
        change (Function.update w.worker s .resumed t).InLoop at ht
        rw [Function.update_apply] at ht
        split at ht
        · next hts => rw [hts]; exact hd.requested s (by rw [hq]; trivial)
        · exact hd.requested t ht
      · rintro ⟨t, ht, hdraining⟩
        change Function.update w.worker s .resumed t = .draining at hdraining
        rw [Function.update_apply] at hdraining
        split at hdraining
        · cases hdraining
        · exact hd.waits ⟨t, ht, hdraining⟩
  · cases h

/-- Two workers in the loop have a request each. -/
theorem Drains.two_le (hd : Drains n w) (hs : s < maxSessionsAmount) (ht : t < maxSessionsAmount) (hst : s ≠ t)
    (hqs : (w.worker s).InLoop) (hqt : (w.worker t).InLoop) : 2 ≤ n := by
  have hone : ∀ u, (w.worker u).InLoop → shutdownIn (w.opcode u) (w.worker u) = 1 := by
    intro u hu
    rw [hd.requested u hu]
    refine shutdownIn_shutdown ?_
    intro hclearing
    rw [hclearing] at hu
    exact hu
  have hslots : 2 ≤ slotShutdowns w.opcode w.worker := by
    unfold slotShutdowns
    calc 2 = ∑ u ∈ {s, t}, shutdownIn (w.opcode u) (w.worker u) := by
          rw [Finset.sum_pair hst, hone s hqs, hone t hqt]
      _ ≤ ∑ u ∈ Finset.range maxSessionsAmount, shutdownIn (w.opcode u) (w.worker u) := by
          refine Finset.sum_le_sum_of_subset ?_
          intro u hu
          rcases Finset.mem_insert.1 hu with rfl | hu
          · exact Finset.mem_range.2 hs
          · rw [Finset.mem_singleton.1 hu]
            exact Finset.mem_range.2 ht
  have hall := hd.shutdowns
  unfold World.shutdowns at hall
  omega

/-- A worker that is in the loop while the server is closed has another request before it. -/
theorem Drains.two_le_of_closed (hd : Drains n w) (hs : s < maxSessionsAmount) (hq : (w.worker s).InLoop)
    (hclosed : w.serverOpen = false) : 2 ≤ n := by
  have hslots : 1 ≤ slotShutdowns w.opcode w.worker := by
    unfold slotShutdowns
    have hone : shutdownIn (w.opcode s) (w.worker s) = 1 := by
      rw [hd.requested s hq]
      refine shutdownIn_shutdown ?_
      intro hclearing
      rw [hclearing] at hq
      exact hq
    rw [← hone]
    exact Finset.single_le_sum (f := fun u => shutdownIn (w.opcode u) (w.worker u)) (fun _ _ => Nat.zero_le _)
      (Finset.mem_range.2 hs)
  have hall := hd.shutdowns
  rw [World.shutdowns, hclosed, if_neg Bool.false_ne_true] at hall
  omega

/-- While a worker waits some file is open, or there are two requests. -/
theorem Drains.fileOpen (hd : Drains n w) (hw : Waits w) : FileOpen w ∨ 2 ≤ n := by
  refine (hd.waits hw).imp_left ?_
  intro hnot
  by_contra hnone
  refine hnot (hd.counted.eq_zero_iff.2 fun g hg => ?_)
  exact AllocationState.ne_taken.1 fun htaken => hnone ⟨g, hg, htaken⟩

/-- Behind its section of the library a worker is not in the loop, and the others are where they were. -/
theorem inLoop_answering (h : (Function.update w.worker s .answering t).InLoop) :
    Function.update w.worker s .answering t = w.worker t := by
  refine Function.update_of_ne ?_ _ _
  rintro rfl
  rw [Function.update_self] at h
  exact h

/-- The section leaves a file open, if there was one before or a worker waits. -/
theorem Drains.answering (hd : Drains n w) {lib : Server.State} (hchange : TableChange w.lib lib)
    (hkeeps : TableGrowth w.lib lib ∨ getOpenFilesNumber lib ≠ 0)
    (hshutdowns : ({ w.setWorker s .answering with lib := lib } : World).shutdowns ≤ n) :
    Drains n { w.setWorker s .answering with lib := lib } := by
  refine ⟨hd.counted.change hchange, hshutdowns, ?_, ?_⟩
  · intro t ht
    have hworker := inLoop_answering ht
    exact hd.requested t (hworker ▸ ht)
  · rintro ⟨t, ht, hdraining⟩
    have hbefore : w.worker t = .draining := by
      rw [← hdraining]
      exact (inLoop_answering (by rw [show Function.update _ _ _ t = _ from hdraining]; trivial)).symm
    -- only `tfs_close` makes the number smaller, and it tests the number behind
    rcases hkeeps with hgrowth | hnot
    · refine (hd.waits ⟨t, ht, hbefore⟩).imp_left ?_
      intro hopen hzero
      have hle := hgrowth.number_le
      have hrange := hd.counted.range
      unfold getOpenFilesNumber at hopen hzero
      change lib.openFilesNumber = 0 at hzero
      omega
    · exact Or.inl hnot

/-- A section of the library: where it leaves no file open, a waiting worker is woken, and a second one that
waits has another request. -/
theorem Drains.library (hd : Drains n w) {c : Server.Call} (h : LifeCycle.library s c t w = some w') :
    Drains n w' := by
  have hshutdowns := (shutdowns_library_le h).trans hd.shutdowns
  rcases library_cases h with ⟨_, lib, hchange, ⟨hkeeps, rfl⟩ | ⟨_, hsignal⟩⟩
  · exact hd.answering hchange hkeeps hshutdowns
  · rcases signalDestroy_cases hsignal with ⟨ht, hwoken, rfl⟩ | ⟨hnone, rfl⟩
    · have hbefore : ∀ u, Function.update w.worker s .answering u = .draining → w.worker u = .draining := by
        intro u hu
        rw [← hu]
        exact (inLoop_answering (by rw [hu]; trivial)).symm
      refine ⟨hd.counted.change hchange, hshutdowns, ?_, ?_⟩
      · intro u hu
        change (Function.update (Function.update w.worker s .answering) t .resumed u).InLoop at hu
        rw [Function.update_apply] at hu
        split at hu
        · next hut => exact hd.requested u (by rw [hut, hbefore t hwoken]; trivial)
        · exact hd.requested u (inLoop_answering hu ▸ hu)
      · rintro ⟨u, hu, hdraining⟩
        change Function.update (Function.update w.worker s .answering) t .resumed u = .draining at hdraining
        rw [Function.update_apply] at hdraining
        split at hdraining
        · cases hdraining
        · next hut =>
            -- worker `u` and the woken one have a request each
            exact Or.inr (hd.two_le hu ht hut (by rw [hbefore u hdraining]; trivial)
              (by rw [hbefore t hwoken]; trivial))
    · -- the signal finds nobody
      refine ⟨hd.counted.change hchange, hshutdowns, ?_, ?_⟩
      · intro u hu
        exact hd.requested u (inLoop_answering hu ▸ hu)
      · rintro ⟨u, hu, hdraining⟩
        exact absurd hdraining (hnone u hu)

theorem Drains.perform (hw : Sound w) (hd : Drains n w) {a : Label} (h : LifeCycle.perform a w = some w') :
    Drains (n + if hearsShutdown w a then 1 else 0) w' := by
  have hshutdowns : w'.shutdowns ≤ n + if hearsShutdown w a then 1 else 0 :=
    (shutdowns_perform_le h).trans (Nat.add_le_add_right hd.shutdowns _)
  cases a with
  | main => exact hd.aside (aside_mainStep h) (Nat.le_add_right _ _) hshutdowns
  | wakeMain =>
      simp only [LifeCycle.perform, LifeCycle.wakeMain] at h
      split at h
      · cases h
        exact hd.aside (.of_same rfl rfl rfl) (Nat.le_add_right _ _) hshutdowns
      · cases h
  | hear opcode s =>
      simp only [LifeCycle.perform, LifeCycle.hear] at h
      split at h
      · cases h
        exact hd.aside (.of_same rfl rfl rfl) (Nat.le_add_right _ _) hshutdowns
      · cases h
  | receiver => exact hd.aside (aside_receiverStep hw h) (Nat.le_add_right _ _) hshutdowns
  | cancel =>
      simp only [LifeCycle.perform, LifeCycle.cancel] at h
      split at h
      · split at h
        · cases h
          exact hd.aside (.of_same rfl rfl rfl) (Nat.le_add_right _ _) hshutdowns
        · split at h
          · cases h
            exact hd.aside (.of_same rfl rfl rfl) (Nat.le_add_right _ _) hshutdowns
          · cases h
        · cases h
      · cases h
  | worker s =>
      simp only [LifeCycle.perform] at h
      split at h
      · exact hd.workerStep h
      · cases h
  | wake s =>
      simp only [LifeCycle.perform, LifeCycle.wake] at h
      split at h
      · split at h
        · cases h
          exact hd.aside (.setWorker id rfl rfl fun _ _ => rfl) (Nat.le_add_right _ _) hshutdowns
        · cases h
      · cases h
  | resume s =>
      simp only [LifeCycle.perform] at h
      split at h
      · exact hd.resume h
      · cases h
  | library s c u =>
      simp only [LifeCycle.perform] at h
      split at h
      · exact hd.library h
      · cases h
  | writeShutdown s =>
      simp only [LifeCycle.perform, LifeCycle.writeShutdown] at h
      split at h
      · split at h
        · cases h
          exact hd.aside (.setWorker id (signalServer_lib w) (congrArg (Function.update · s _) (signalServer_worker w))
            fun t _ => congrFun (signalServer_opcode w) t) (Nat.le_add_right _ _) hshutdowns
        · cases h
      · cases h

theorem drains_start : Drains 0 World.start := by
  refine ⟨?_, ?_, fun _ h => False.elim h, ?_⟩
  · simpa only [World.start] using counted_tfsInit
  · have hnone : slotShutdowns World.start.opcode World.start.worker = 0 := by
      unfold slotShutdowns
      have hnull : tfsOpCodeNull ≠ tfsOpCodeShutdownAfterAllClosed := by decide
      exact Finset.sum_eq_zero fun s _ => shutdownIn_of_ne hnull
    rw [World.shutdowns, hnone]
    exact le_rfl
  · rintro ⟨s, _, hdraining⟩
    cases hdraining

/-- What holds of the wait in every run, by the shutdown requests that were heard. -/
theorem drains_of_execution {h : List (World × Label)} (he : server.Execution h w) :
    Drains (System.count hearsShutdown h) w := by
  induction he with
  | start h0 =>
      rw [show _ = World.start from h0]
      exact drains_start
  | @next h s t a he hst ih =>
      have hnext := ih.perform (sound_of_reachable ⟨h, he⟩) hst
      rw [show System.count hearsShutdown ((s, a) :: h) = _ from List.countP_cons]
      exact hnext

end Steps

end LifeCycle
end Sessions
end TecnicoFs
