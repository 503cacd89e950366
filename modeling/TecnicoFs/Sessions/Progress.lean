import Mathlib.Algebra.BigOperators.Group.Finset.Basic
import TecnicoFs.Server.Ownership
import TecnicoFs.Sessions.ExactlyOnce

/-!
# Progress — the server comes to rest with every request settled

Every step of the server's own threads lowers `work`, and as long as some request is not settled one
of them can be taken. So however the threads are scheduled, once the clients pause the server settles
all that was sent.
-/

namespace TecnicoFs
namespace Sessions

open Lib Wire

universe u v

variable {σ : Type u} {ρ : Type v} {exec : Operation → σ → ρ × σ} {paths : ℕ → CString}
variable {lib₀ : σ} {w w' : World σ ρ} {place : ℕ → Place} {c s : ℕ}

/-! ## The invariant over runs -/

/-- Every request has its place, and the histories agree with the places. -/
def Inv (exec : Operation → σ → ρ × σ) (paths : ℕ → CString) (lib₀ : σ) (w : World σ ρ) : Prop :=
  ∃ place, Located paths w place ∧ Logged exec paths lib₀ w place

theorem inv_start : Inv exec paths lib₀ (World.start lib₀) := by
  refine ⟨fun _ => .away, ⟨fun c => ⟨rfl, rfl, fun s hs => by cases hs⟩, ?_, ?_, ?_, ?_, ?_, ?_, ?_⟩,
    ⟨⟨?_, ?_, ?_, ?_, rfl, ?_, ?_, ?_⟩, ?_, ?_, ?_, ?_, ?_, ?_⟩⟩ <;>
    simp [World.start]

theorem ofWorker_eq {step : World σ ρ → Option (World σ ρ)} (h : ofWorker s step w = some w') :
    s < maxSessionsAmount ∧ step w = some w' := by
  unfold ofWorker at h
  split_ifs at h with hlt
  exact ⟨hlt, h⟩

theorem Inv.step (hpaths : Function.Injective paths) (h : Inv exec paths lib₀ w) {a : Label}
    (hstep : perform exec paths a w = some w') : Inv exec paths lib₀ w' := by
  rcases h with ⟨place, hl, hlog⟩
  cases a with
  | send c r =>
      rcases hl.send hstep with ⟨hplace, hl'⟩
      exact ⟨_, hl', hlog.send hplace hstep⟩
  | receive c =>
      rcases hl.receive hpaths hstep with ⟨hplace, hl'⟩
      exact ⟨_, hl', hlog.receive hl hplace hstep⟩
  -- `wake`, `lock` and `clear` touch no record: the logs are as before
  | wake s =>
      rcases ofWorker_eq hstep with ⟨_, hstep⟩
      have hw' := (wake_eq hstep).2
      refine ⟨_, hl.wake hstep, hlog.same ?_ (fun _ => rfl) (fun _ => rfl)⟩
      subst hw'
      exact ⟨rfl, rfl, rfl, rfl, rfl, rfl, rfl⟩
  -- `take` and `store` move one request from place to place
  | take =>
      rcases hl.take hstep with ⟨c, p, hplace, hperformed, hsettled, hl'⟩
      refine ⟨_, hl', hlog.moved ?_ hplace hperformed hsettled⟩
      rcases take_cases hstep with
        ⟨_, _, _, _, ⟨_, _, hw'⟩ | ⟨_, _, _, _, _, hw'⟩ | ⟨_, _, _, hw'⟩⟩
      · subst hw'
        exact ⟨rfl, rfl, rfl, rfl, rfl, rfl, rfl⟩
      · subst hw'
        exact ⟨rfl, rfl, rfl, rfl, rfl, rfl, rfl⟩
      · subst hw'
        exact ⟨rfl, rfl, rfl, rfl, rfl, rfl, rfl⟩
  | refuse =>
      rcases hl.refuse hpaths hstep with ⟨c, hreceiver, hplace, hl'⟩
      exact ⟨_, hl', hlog.refuse hl hreceiver hplace hstep⟩
  | store =>
      rcases hl.store hpaths hstep with ⟨c, s, hplace, hl'⟩
      refine ⟨_, hl', hlog.moved ?_ hplace rfl rfl⟩
      rcases store_eq hstep with ⟨_, _, _, _, hw'⟩
      subst hw'
      exact ⟨rfl, rfl, rfl, rfl, rfl, rfl, rfl⟩
  | lock s =>
      rcases ofWorker_eq hstep with ⟨_, hstep⟩
      have hw' := (lock_eq hstep).2
      refine ⟨_, hl.lock hstep, hlog.same ?_ (fun _ => rfl) (fun _ => rfl)⟩
      subst hw'
      exact ⟨rfl, rfl, rfl, rfl, rfl, rfl, rfl⟩
  | execute s =>
      rcases ofWorker_eq hstep with ⟨hlt, hstep⟩
      rcases hl.execute hpaths hlt hstep with
        ⟨c, r, reply, hplace, hpending, hserved, hanswers, hl'⟩
      exact ⟨_, hl', hlog.execute hplace hpending hserved hanswers hstep⟩
  | write s =>
      rcases ofWorker_eq hstep with ⟨_, hstep⟩
      rcases hl.write hpaths hstep with ⟨c, r, reply, hplace, hpending, hserved, hwritten, hl'⟩
      exact ⟨_, hl', hlog.write hplace hserved hwritten hstep⟩
  | clear s =>
      rcases ofWorker_eq hstep with ⟨_, hstep⟩
      have hw' := (clear_eq hstep).2
      refine ⟨_, hl.clear hstep, hlog.same ?_ (fun _ => rfl) (fun _ => rfl)⟩
      subst hw'
      exact ⟨rfl, rfl, rfl, rfl, rfl, rfl, rfl⟩

theorem inv_of_reachable (hpaths : Function.Injective paths)
    (hr : (sessions exec paths lib₀).Reachable w) : Inv exec paths lib₀ w := by
  refine hr.invariant ?_ ?_
  · rintro w rfl
    exact inv_start
  · intro w a w' h hstep
    exact h.step hpaths hstep

/-! ## A thread that can move -/

/-- One of the server's threads can make progress. -/
def Busy (exec : Operation → σ → ρ × σ) (paths : ℕ → CString) (w : World σ ρ) : Prop :=
  ∃ a, Label.isServer a = true ∧ (perform exec paths a w).isSome

theorem ofWorker_isSome {step : World σ ρ → Option (World σ ρ)} (hlt : s < maxSessionsAmount)
    (h : (step w).isSome) : (ofWorker s step w).isSome := by
  rw [ofWorker, if_pos hlt]
  exact h

/-- A worker that holds its mutex can go on. -/
theorem Located.busy_of_locked (h : Located paths w place) (hlt : s < maxSessionsAmount)
    (hlocked : (w.worker s).locked = true) : Busy exec paths w := by
  rcases hworker : w.worker s with _ | _ | _ | reply | _
  · rw [hworker] at hlocked
    cases hlocked
  · rw [hworker] at hlocked
    cases hlocked
  · refine ⟨.execute s, rfl, ofWorker_isSome hlt ?_⟩
    -- the slot holds a request that the `switch` knows
    rcases h.inSlot hworker with ⟨c, r, _, _, _, _, htable, hrequest, _, _, hissued⟩
    have hof : r = .mount (paths c) ∨ OfSession s r := hissued.imp And.left fun hi => hi.2.2
    unfold Sessions.execute
    rw [hworker]
    dsimp only
    rw [htable, hrequest]
    rcases request_cases hof with rfl | rfl | ⟨op, hop⟩
    · rfl
    · rfl
    · cases r <;> first | rfl | cases hop
  · refine ⟨.write s, rfl, ofWorker_isSome hlt ?_⟩
    have hplace := h.replying s reply hworker
    have hat := h.located (w.slotTag s).1
    rw [hplace] at hat
    rcases hat with ⟨_, _, _, _, _, _, _, hfclient, _⟩
    unfold Sessions.write
    rw [hworker, hfclient]
    rfl
  · refine ⟨.clear s, rfl, ofWorker_isSome hlt ?_⟩
    unfold Sessions.clear
    rw [hworker]
    rfl

/-- A receiver that is busy with a request can go on, or the worker it waits for can. -/
theorem Located.busy_of_storing (h : Located paths w place) {m : Message}
    (hreceiver : w.receiver = .storing s m) : Busy exec paths w := by
  have hat := h.located m.client
  rw [h.storing s m hreceiver] at hat
  rcases hat with ⟨_, _, _, _, hlt, _⟩
  by_cases hlocked : (w.worker s).locked = true
  · exact h.busy_of_locked hlt hlocked
  · refine ⟨.store, rfl, ?_⟩
    simp [perform, Sessions.store, hreceiver, hlocked]

theorem busy_of_refusing {path : CString} {m : Message} (hreceiver : w.receiver = .refusing path m) :
    Busy exec paths w := by
  refine ⟨.refuse, rfl, ?_⟩
  simp [perform, Sessions.refuse, hreceiver]

/-- A server with a request that is not settled is busy. -/
theorem Located.busy (h : Located paths w place) (hplace : (place c).settled = false) :
    Busy exec paths w := by
  have hat := h.located c
  rcases hp : place c with _ | _ | _ | s | s | s | _
  all_goals
    rw [hp] at hat hplace
  · cases hplace
  · rcases hat with ⟨r, _, _, hmem, _⟩
    -- in the server pipe: an idle receiver takes the message at its head
    rcases hreceiver : w.receiver with _ | ⟨path, m⟩ | ⟨s, m⟩
    · rcases hinbox : w.inbox with _ | ⟨m, rest⟩
      · rw [hinbox] at hmem
        cases hmem
      · refine ⟨.take, rfl, ?_⟩
        rcases h.head hinbox with ⟨_, _, r, hm, _, _, hissued⟩
        have hrequest : m.request = r := by rw [hm]; rfl
        simp only [perform, Sessions.take, hreceiver, hinbox]
        rcases hissued with ⟨hr, _⟩ | ⟨s, _, ha, hof⟩
        · rw [hrequest, hr]
          dsimp only
          split <;> rfl
        · have hsession := hof.sessionId
          have hlt := ha.lt
          rw [hrequest]
          split
          · exact absurd hof not_ofSession_mount
          · rw [hsession]
            dsimp only
            rw [if_pos ⟨Int.natCast_nonneg s, by exact_mod_cast hlt⟩]
            rfl
    · exact busy_of_refusing hreceiver
    · exact h.busy_of_storing hreceiver
  · exact busy_of_refusing hat.2.2.2
  · rcases hat with ⟨r, _, _, hreceiver, _⟩
    exact h.busy_of_storing hreceiver
  · rcases hat with ⟨r, _, _, _, hworker, _, hlt, _⟩
    -- in a slot: its worker has been woken
    rcases hworker with hready | hhandling
    · refine ⟨.lock s, rfl, ofWorker_isSome hlt ?_⟩
      simp only [Sessions.lock, hready]
      split_ifs <;> rfl
    · exact h.busy_of_locked hlt (by rw [hhandling]; rfl)
  · rcases hat with ⟨r, reply, _, _, _, hworker, hlt, _⟩
    exact h.busy_of_locked hlt (by rw [hworker]; rfl)
  · cases hplace

/-! ## Work left -/

/-- Steps that the receiver causes before it is idle. -/
def receiverWork : Receiver → ℕ
  | .idle => 0
  | .refusing _ _ => 1
  | .storing _ _ => 6

/-- Steps that worker `s` takes before it waits. -/
def workerWork (w : World σ ρ) (s : ℕ) : ℕ :=
  match w.worker s with
  | .waiting => 0
  | .ready => if (w.bufferEntryTable s).opcode > tfsOpCodeNull then 5 else 1
  | .clearing => 2
  | .replying _ => 3
  | .handling => 4

/-- A bound on the steps that the server can take before it is at rest. -/
def work (w : World σ ρ) : ℕ :=
  7 * w.inbox.length + receiverWork w.receiver +
    ∑ s ∈ Finset.range maxSessionsAmount, workerWork w s

theorem sum_workerWork (hlt : s < maxSessionsAmount)
    (hothers : ∀ t, t ≠ s → workerWork w' t = workerWork w t) :
    (∑ t ∈ Finset.range maxSessionsAmount, workerWork w' t) + workerWork w s =
      (∑ t ∈ Finset.range maxSessionsAmount, workerWork w t) + workerWork w' s := by
  have hmem : s ∈ Finset.range maxSessionsAmount := Finset.mem_range.2 hlt
  have hrest : ∑ t ∈ (Finset.range maxSessionsAmount).erase s, workerWork w' t =
      ∑ t ∈ (Finset.range maxSessionsAmount).erase s, workerWork w t :=
    Finset.sum_congr rfl fun t ht => hothers t (Finset.ne_of_mem_erase ht)
  rw [← Finset.add_sum_erase _ _ hmem, ← Finset.add_sum_erase _ (workerWork w) hmem, hrest]
  omega

/-- A worker's step that lowers its own work lowers the work of the server. -/
theorem work_lt_of_worker (hlt : s < maxSessionsAmount) (hinbox : w'.inbox = w.inbox)
    (hreceiver : w'.receiver = w.receiver)
    (hothers : ∀ t, t ≠ s → workerWork w' t = workerWork w t)
    (hself : workerWork w' s < workerWork w s) : work w' < work w := by
  have hsum := sum_workerWork hlt hothers
  rw [work, work, hinbox, hreceiver]
  omega

theorem workerWork_congr {t : ℕ} (hworker : w'.worker t = w.worker t)
    (htable : w'.bufferEntryTable t = w.bufferEntryTable t) : workerWork w' t = workerWork w t := by
  rw [workerWork, workerWork, hworker, htable]

/-- Every step of the server's own threads lowers the work. -/
theorem Inv.work_lt (h : Inv exec paths lib₀ w) {a : Label} (hserver : a.isServer = true)
    (hstep : perform exec paths a w = some w') : work w' < work w := by
  cases a with
  | send c r => cases hserver
  | receive c => cases hserver
  | wake s => cases hserver
  | take =>
      -- the message was worth 7 in the pipe, and is worth at most 6 with the receiver
      rcases take_cases hstep with ⟨m, rest, hidle, hinbox, hcases⟩
      have hfields : w'.inbox = rest ∧ receiverWork w'.receiver ≤ 6 ∧ w'.worker = w.worker ∧
          w'.bufferEntryTable = w.bufferEntryTable := by
        rcases hcases with ⟨_, _, hw'⟩ | ⟨_, _, _, _, _, hw'⟩ | ⟨_, _, _, hw'⟩ <;>
          (rw [hw']; exact ⟨rfl, by simp [receiverWork], rfl, rfl⟩)
      rcases hfields with ⟨hinbox', hreceiver', hworker, htable⟩
      have hsum : ∑ t ∈ Finset.range maxSessionsAmount, workerWork w' t =
          ∑ t ∈ Finset.range maxSessionsAmount, workerWork w t :=
        Finset.sum_congr rfl fun t _ => workerWork_congr (by rw [hworker]) (by rw [htable])
      rw [work, work, hsum, hinbox', hinbox, hidle, List.length_cons]
      have hzero : receiverWork .idle = 0 := rfl
      omega
  | refuse =>
      rcases refuse_eq hstep with ⟨path, m, hreceiver, hw'⟩
      -- the refusal is written by the receiver: no worker is touched
      have hsum : ∀ t, workerWork w' t = workerWork w t := by
        intro t
        rw [hw']
        rfl
      rw [work, work, Finset.sum_congr rfl fun t _ => hsum t, hreceiver, hw']
      simp [receiverWork]
  | store =>
      rcases store_eq hstep with ⟨s, m, hreceiver, hunlocked, hw'⟩
      -- the message names a session of the table, since its client sent it
      have hlt : s < maxSessionsAmount := by
        rcases h with ⟨place, hl, _⟩
        have hat := hl.located m.client
        rw [hl.storing s m hreceiver] at hat
        rcases hat with ⟨_, _, _, _, hlt, _⟩
        exact hlt
      have hothers : ∀ t, t ≠ s → workerWork w' t = workerWork w t := by
        intro t ht
        rw [hw']
        exact workerWork_congr (Function.update_of_ne ht _ _) (Function.update_of_ne ht _ _)
      -- the receiver gives up 6 and the worker gains at most 5
      have hself : workerWork w' s ≤ 5 := by
        rw [hw', workerWork]
        simp only [Function.update_self]
        split_ifs <;> omega
      have hsum := sum_workerWork hlt hothers
      have hidle : receiverWork w'.receiver = 0 := by
        rw [hw']
        rfl
      have hinbox : w'.inbox = w.inbox := by rw [hw']
      rw [work, work, hinbox, hidle, hreceiver, receiverWork]
      omega
  | lock s =>
      rcases ofWorker_eq hstep with ⟨hlt, hstep⟩
      rcases lock_eq hstep with ⟨hready, hw'⟩
      refine work_lt_of_worker hlt (by rw [hw']) (by rw [hw']) ?_ ?_
      · intro t ht
        rw [hw']
        exact workerWork_congr (Function.update_of_ne ht _ _) rfl
      · rw [hw', workerWork, workerWork, hready]
        simp only [Function.update_self]
        -- a worker that finds a request starts on it, otherwise it goes to sleep
        by_cases hop : (w.bufferEntryTable s).opcode > tfsOpCodeNull
        · simp only [if_pos hop]
          omega
        · simp only [if_neg hop]
          omega
  | execute s =>
      rcases ofWorker_eq hstep with ⟨hlt, hstep⟩
      rcases execute_cases hstep with ⟨r, hhandling, _, hcases⟩
      -- a mount, an unmount and a library call differ only in the reply and the tables
      have hfields : ∃ reply, w'.inbox = w.inbox ∧ w'.receiver = w.receiver ∧
          w'.bufferEntryTable = w.bufferEntryTable ∧
          w'.worker = Function.update w.worker s (.replying reply) := by
        rcases hcases with ⟨_, _, hw'⟩ | ⟨_, _, hw'⟩ | ⟨_, _, hw'⟩ <;>
          (rw [hw']; exact ⟨_, rfl, rfl, rfl, rfl⟩)
      rcases hfields with ⟨reply, hinbox, hreceiver, htable, hworker⟩
      refine work_lt_of_worker hlt hinbox hreceiver ?_ ?_
      · intro t ht
        exact workerWork_congr (by rw [hworker, Function.update_of_ne ht]) (by rw [htable])
      · rw [workerWork, workerWork, hworker, hhandling, Function.update_self]
        show 3 < 4
        omega
  | write s =>
      rcases ofWorker_eq hstep with ⟨hlt, hstep⟩
      rcases write_eq hstep with ⟨reply, path, hworker, _, hw'⟩
      refine work_lt_of_worker hlt (by rw [hw']) (by rw [hw']) ?_ ?_
      · intro t ht
        rw [hw']
        exact workerWork_congr (Function.update_of_ne ht _ _) rfl
      · rw [hw', workerWork, workerWork, hworker]
        simp only [Function.update_self]
        omega
  | clear s =>
      rcases ofWorker_eq hstep with ⟨hlt, hstep⟩
      rcases clear_eq hstep with ⟨hworker, hw'⟩
      refine work_lt_of_worker hlt (by rw [hw']) (by rw [hw']) ?_ ?_
      · intro t ht
        rw [hw']
        exact workerWork_congr (Function.update_of_ne ht _ _) (Function.update_of_ne ht _ _)
      · rw [hw', workerWork, workerWork, hworker]
        simp only [Function.update_self]
        split_ifs <;> simp_all

/-! ## The theorem -/

/-- In every state that the clients and the server can reach, the requests performed so far were
performed once, as they were sent and by the worker of their session, and answered once on the pipe
of their client; the server's threads can only take so many steps before they are at rest; and where
they are at rest, every request that was sent has been answered. -/
theorem exactlyOnce (hpaths : Function.Injective paths)
    (hr : (sessions exec paths lib₀).Reachable w) :
    Law exec paths lib₀ w ∧
      (∀ a w', Label.isServer a = true → perform exec paths a w = some w' → work w' < work w) ∧
      (¬ Busy exec paths w → ∀ m ∈ w.sent, Settled w m) := by
  have hinv := inv_of_reachable hpaths hr
  refine ⟨?_, fun a w' hserver hstep => hinv.work_lt hserver hstep, ?_⟩
  · rcases hinv with ⟨_, _, hlog⟩
    exact hlog.law
  · intro hrest m hm
    rcases hinv with ⟨place, hl, hlog⟩
    refine hlog.settled m hm (Or.inr ?_)
    by_contra hunsettled
    exact hrest (hl.busy (Bool.eq_false_iff.2 hunsettled))

/-! ## The server over its library -/

/-- The call that a worker makes for an operation. -/
def libraryCall : Operation → Server.Call
  | .open name flags => .open (some name) flags
  | .close fhandle => .close fhandle
  | .write fhandle buffer len => .write fhandle (fun i => buffer.getD i 0) len
  | .read fhandle len => .read fhandle len

/-- The file system library of the server; after a call with undefined behaviour nothing is known. -/
def serverExec (op : Operation) :
    Option Server.State → Option Server.Reply × Option Server.State
  | none => (none, none)
  | some s =>
      match Server.exec (libraryCall op) s with
      | none => (none, none)
      | some (r, t) => (some r, some t)

/-- The pipe of client `c` has a name of `c + 1` ones. -/
def onesPath (c : ℕ) : CString :=
  ⟨List.replicate (c + 1) 0x31, by intro b hb; rw [List.eq_of_mem_replicate hb]; decide⟩

theorem onesPath_injective : Function.Injective onesPath := by
  intro c d h
  have hbytes := congrArg (fun p : CString => p.bytes.length) h
  simpa [onesPath] using hbytes

theorem noNul_a : ∀ b ∈ ([0x2f, 0x61] : List Byte), b ≠ 0 := by
  simp

/-- Client 0 mounts and opens the file `/a`, while client 1 mounts. -/
def twoClients : List Label :=
  let a : CString := ⟨[0x2f, 0x61], noNul_a⟩
  [.send 0 (.mount (onesPath 0)), .send 1 (.mount (onesPath 1)), .take, .store, .lock 0,
    .execute 0, .write 0, .receive 0, .send 0 (.open 0 a 1), .take, .clear 0, .store, .take,
    .lock 0, .store, .lock 0, .execute 0, .lock 1, .execute 1, .write 1, .write 0]

end Sessions
end TecnicoFs
