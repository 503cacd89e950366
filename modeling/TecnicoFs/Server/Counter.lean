import TecnicoFs.Server.Effects
import TecnicoFs.Server.Shutdown

/-!
# Server counter — the lock, the condition variable and `open_files_number`

The calls of the library with each operation on `single_global_lock` and `destroy_cond` a step of its own.
`tfs_close` removes its entry, tests the counter and may signal, and unlocks, all in its critical section;
`tfs_destroy_after_all_closed` gives the lock up while it waits, and tests the counter again with the lock
held.
-/

namespace TecnicoFs
namespace Server
namespace Counter

open Lib Shutdown

/-! ## Threads and steps -/

/-- Where a thread stands in its call. From `«section»` to `testing` it has taken the lock and not yet
given it up; `removed` is between the two lines of `tfs_close`, with the counter that its removal left. -/
inductive Pc
  | idle
  | called (c : ApiCall)
  | openTested (name : Path) (flags : ℤ)
  | «section» (c : ApiCall)
  | removed (number : ℤ)
  | leaving
  | testing
  | drained
  | waiting
  | woken
  | destroying

/-- The thread is in a critical section. -/
def Pc.InSection : Pc → Prop
  | «section» _ => True
  | removed _ => True
  | leaving => True
  | testing => True
  | drained => True
  | _ => False

/-- `waiters` are the threads blocked on `destroy_cond`; `signals` lists the threads that have signalled it,
latest last. -/
structure World where
  lib : State
  holder : Option ℕ
  pc : ℕ → Pc
  waiters : List ℕ
  signals : List ℕ

/-- Every thread is idle. -/
def World.start (s : State) : World where
  lib := s
  holder := none
  pc := fun _ => .idle
  waiters := []
  signals := []

namespace World

variable (w : World)

def goto (t : ℕ) (pc : Pc) : World :=
  { w with pc := Function.update w.pc t pc }

/-- `pthread_mutex_lock` of a thread that goes on at `pc`; `none` where it waits. -/
def acquire (t : ℕ) (pc : Pc) : Option World :=
  match w.holder with
  | none => some { w.goto t pc with holder := some t }
  | some _ => none

/-- Thread `u` is unblocked. -/
def unblock (u : ℕ) : World :=
  { w.goto u .woken with waiters := w.waiters.filter (· ≠ u) }

/-- `pthread_cond_signal` by thread `t`, which wakes the thread `u`; any of those that are blocked may be the
one, and it has no effect if none is. -/
def signal (t u : ℕ) : Option World :=
  let w := { w with signals := w.signals ++ [t] }
  if w.waiters = [] then some w
  else if u ∈ w.waiters then some (w.unblock u)
  else none

end World

/-- The steps of thread `t`. -/
inductive Label
  | call (t : ℕ) (c : ApiCall)
  | testClosing (t : ℕ)
  | lock (t : ℕ)
  | body (t : ℕ)
  | testNumber (t u : ℕ)
  | loop (t : ℕ)
  | wake (t : ℕ)
  | unlock (t : ℕ)
  | destroy (t : ℕ)

/-- What a step does; `none` where thread `t` is not at that step, or the library's behaviour there is
undefined. -/
def perform : Label → World → Option World
  | .call t c, w =>
      match w.pc t with
      | .idle => some (w.goto t (.called c))
      | _ => none
  | .testClosing t, w =>
      match w.pc t with
      | .called (.library (.open name flags)) =>
          if stateClosingStatus w.lib then some (w.goto t .idle)
          else some (w.goto t (.openTested name flags))
      | _ => none
  | .lock t, w =>
      match w.pc t with
      | .called (.library (.open _ _)) => none
      | .called c => w.acquire t (.section c)
      | .openTested name flags => w.acquire t (.section (.library (.open name flags)))
      -- `pthread_cond_wait` takes the lock again before it returns
      | .woken => w.acquire t .testing
      | _ => none
  | .body t, w =>
      match w.pc t with
      | .section (.library (.open name flags)) =>
          (tfsOpenUnsynchronized name flags w.lib).map fun x => { w.goto t .leaving with lib := x.2 }
      | .section (.library (.close fhandle)) =>
          let s := (removeFromOpenFileTable fhandle w.lib).2
          some { w.goto t (.removed (getOpenFilesNumber s)) with lib := s }
      | .section (.library c) =>
          (exec c w.lib).map fun x => { w.goto t .leaving with lib := x.2 }
      | .section .destroyAfterAllClosed =>
          some { w.goto t .testing with lib := setStateClosing w.lib }
      | _ => none
  | .testNumber t u, w =>
      match w.pc t with
      | .removed _ =>
          if getOpenFilesNumber w.lib = 0 then (w.signal t u).map fun w => w.goto t .leaving
          else some (w.goto t .leaving)
      | _ => none
  | .loop t, w =>
      match w.pc t with
      | .testing =>
          if getOpenFilesNumber w.lib = 0 then some (w.goto t .drained)
          else some { w.goto t .waiting with holder := none, waiters := t :: w.waiters }
      | _ => none
  | .wake t, w =>
      -- `pthread_cond_wait` may return without a signal
      match w.pc t with
      | .waiting => some (w.unblock t)
      | _ => none
  | .unlock t, w =>
      match w.pc t with
      | .leaving => some { w.goto t .idle with holder := none }
      | .drained => some { w.goto t .destroying with holder := none }
      | _ => none
  | .destroy t, w =>
      match w.pc t with
      | .destroying => some (w.goto t .idle)
      | _ => none

/-- Any number of threads, any calls, any interleaving. -/
def threads : System World Label where
  init w := w = World.start tfsInit.2
  step w a w' := perform a w = some w'

/-! ## The law -/

/-- From `w` to `w'` thread `t` signals `destroy_cond` with the lock held: if threads are waiting, one of them
is woken. -/
structure Signals (t : ℕ) (w w' : World) : Prop where
  locked : w.holder = some t ∧ w'.holder = some t
  signalled : w'.signals = w.signals ++ [t]
  woken : (∃ u, w.pc u = .waiting) → ∃ u, w.pc u = .waiting ∧ w'.pc u = .woken

/-- The counter is the number of TAKEN entries; a `tfs_close` whose removal left it at 0 holds the lock, can
go on, and signals when it does; and at the end of the loop of `tfs_destroy_after_all_closed` no entry is
TAKEN. -/
structure CountsRight (w : World) : Prop where
  counted : Counted w.lib
  range : 0 ≤ w.lib.openFilesNumber ∧ w.lib.openFilesNumber ≤ maxOpenFiles
  removed : ∀ t number, w.pc t = .removed number →
    w.holder = some t ∧ w.lib.openFilesNumber = number
  signals : ∀ t, w.pc t = .removed 0 → (∃ a w', threads.step w a w' ∧ w'.pc t = .leaving) ∧
    ∀ a w', threads.step w a w' → w'.pc t = .removed 0 ∨ Signals t w w'
  drained : ∀ t, w.pc t = .drained →
    w.holder = some t ∧ ∀ h < maxOpenFiles, w.lib.freeOpenFileEntries h = .free

/-! ## The invariant -/

/-- A thread in a critical section has the lock, so that the counter stays what it has seen. -/
structure Inv (w : World) : Prop where
  counted : Counted w.lib
  holds : ∀ t, (w.pc t).InSection → w.holder = some t
  removed : ∀ t number, w.pc t = .removed number → w.lib.openFilesNumber = number
  drained : ∀ t, w.pc t = .drained → w.lib.openFilesNumber = 0
  waiters : ∀ t, t ∈ w.waiters ↔ w.pc t = .waiting

section Steps

variable {w w' : World} {t u : ℕ} {q : Pc}

/-- Nobody else is in a critical section. -/
theorem Inv.alone (hw : Inv w) (ht : (w.pc t).InSection) (hu : u ≠ t) : ¬ (w.pc u).InSection := by
  intro hin
  have hsame := (hw.holds u hin).symm.trans (hw.holds t ht)
  exact hu (Option.some.inj hsame)

/-- Thread `t` goes on at `q`. It changes the counter or gives the lock up only where the others are in no
critical section. -/
theorem Inv.move (hw : Inv w) {s : State} {holder : Option ℕ} {waiters signals : List ℕ}
    (hs : Counted s)
    (hothers : ∀ u, u ≠ t → (w.pc u).InSection →
      holder = some u ∧ s.openFilesNumber = w.lib.openFilesNumber)
    (hself : q.InSection → holder = some t)
    (hremoved : ∀ number, q = .removed number → s.openFilesNumber = number)
    (hdrained : q = .drained → s.openFilesNumber = 0)
    (hwaiters : ∀ u, u ∈ waiters ↔ Function.update w.pc t q u = .waiting) :
    Inv ⟨s, holder, Function.update w.pc t q, waiters, signals⟩ := by
  refine ⟨hs, ?_, ?_, ?_, hwaiters⟩
  · exact (Function.forall_update_iff w.pc fun u r => r.InSection → holder = some u).2
      ⟨hself, fun u hu hin => (hothers u hu hin).1⟩
  · -- nobody is between removal and test while the counter changes
    refine (Function.forall_update_iff w.pc fun _ r => ∀ number, r = .removed number →
      s.openFilesNumber = number).2 ⟨hremoved, ?_⟩
    intro u hu number hpc
    rw [(hothers u hu (by rw [hpc]; trivial)).2]
    exact hw.removed u number hpc
  · refine (Function.forall_update_iff w.pc fun _ r => r = .drained → s.openFilesNumber = 0).2
      ⟨hdrained, ?_⟩
    intro u hu hpc
    rw [(hothers u hu (by rw [hpc]; trivial)).2]
    exact hw.drained u hpc

/-- The blocked threads stay the same where `t` was not one of them and does not become one. -/
theorem Inv.waiters_update (hw : Inv w) (hpc : w.pc t ≠ .waiting) (hq : q ≠ .waiting) :
    ∀ u, u ∈ w.waiters ↔ Function.update w.pc t q u = .waiting := by
  refine (Function.forall_update_iff w.pc fun u r => u ∈ w.waiters ↔ r = .waiting).2 ⟨?_, ?_⟩
  · rw [hw.waiters t]
    exact iff_of_false hpc hq
  · exact fun u _ => hw.waiters u

/-- A thread goes on outside of the critical sections. -/
theorem Inv.outside (hw : Inv w) (hpc : w.pc t ≠ .waiting) (hq : ¬ q.InSection) (hwait : q ≠ .waiting) :
    Inv (w.goto t q) := by
  refine hw.move hw.counted (fun u _ hin => ⟨hw.holds u hin, rfl⟩) (fun hin => absurd hin hq) ?_ ?_
    (hw.waiters_update hpc hwait)
  · rintro number rfl
    exact absurd trivial hq
  · rintro rfl
    exact absurd trivial hq

/-- A blocked thread is woken. -/
theorem Inv.unblock (hw : Inv w) (t : ℕ) : Inv (w.unblock t) := by
  refine hw.move hw.counted (fun u _ hin => ⟨hw.holds u hin, rfl⟩) (fun hin => hin.elim) (by simp) (by simp) ?_
  refine (Function.forall_update_iff w.pc fun u r => u ∈ w.waiters.filter (· ≠ t) ↔ r = .waiting).2 ⟨by simp, ?_⟩
  intro u hu
  rw [List.mem_filter, hw.waiters u]
  simp [hu]

theorem Inv.acquire (hw : Inv w) (hpc : w.pc t ≠ .waiting) (hremoved : ∀ number, q ≠ .removed number)
    (hdrained : q ≠ .drained) (hwait : q ≠ .waiting) (h : w.acquire t q = some w') : Inv w' := by
  unfold World.acquire at h
  split at h
  · next hfree =>
      cases h
      refine hw.move hw.counted ?_ (fun _ => rfl) (fun number hq => absurd hq (hremoved number))
        (fun hq => absurd hq hdrained) (hw.waiters_update hpc hwait)
      intro u _ hin
      have hholds := hw.holds u hin
      rw [hfree] at hholds
      cases hholds
  · cases h

/-- A thread in its critical section changes the table. -/
theorem Inv.change (hw : Inv w) (ht : (w.pc t).InSection) {s : State} (hs : Counted s)
    (hremoved : ∀ number, q = .removed number → s.openFilesNumber = number) (hdrained : q ≠ .drained)
    (hwait : q ≠ .waiting) : Inv { w.goto t q with lib := s } := by
  refine hw.move hs ?_ (fun _ => hw.holds t ht) hremoved (fun hq => absurd hq hdrained)
    (hw.waiters_update (fun hpc => by rw [hpc] at ht; exact ht) hwait)
  intro u hu hin
  exact absurd hin (hw.alone ht hu)

/-- What the signal does: it is logged, and it wakes a waiting thread, if there is one. -/
theorem Inv.signal (hw : Inv w) (h : w.signal t u = some w') :
    (Inv w' ∧ w'.lib = w.lib ∧ w'.holder = w.holder) ∧ w'.signals = w.signals ++ [t] ∧
      (w'.pc = w.pc ∧ (∀ v, w.pc v ≠ .waiting) ∨
        w'.pc = Function.update w.pc u .woken ∧ w.pc u = .waiting) := by
  have hlogged : Inv { w with signals := w.signals ++ [t] } :=
    ⟨hw.counted, hw.holds, hw.removed, hw.drained, hw.waiters⟩
  unfold World.signal at h
  dsimp only at h
  split at h
  · next hnone =>
      cases h
      refine ⟨⟨hlogged, rfl, rfl⟩, rfl, Or.inl ⟨rfl, ?_⟩⟩
      intro v hv
      have hmem := (hw.waiters v).2 hv
      rw [hnone] at hmem
      cases hmem
  · split at h
    · next hmem =>
        cases h
        exact ⟨⟨hlogged.unblock u, rfl, rfl⟩, rfl, Or.inr ⟨rfl, (hw.waiters u).1 hmem⟩⟩
    · cases h

/-- The test of `tfs_close`, with the lock held and the counter as the removal left it. -/
theorem Inv.testNumber (hw : Inv w) (h : Counter.perform (.testNumber t u) w = some w') : Inv w' := by
  simp only [Counter.perform] at h
  split at h
  · next number hpc =>
      have hin : (w.pc t).InSection := by
        rw [hpc]
        trivial
      split at h
      · rcases Option.map_eq_some_iff.1 h with ⟨v, hsignal, rfl⟩
        rcases hw.signal hsignal with ⟨⟨hv, _, hholder⟩, _, hpcs⟩
        -- the thread that signals is in its section, so it is not the one that is woken
        have hstill : (v.pc t).InSection := by
          rcases hpcs with ⟨hEq, _⟩ | ⟨hEq, hwaits⟩
          · rw [hEq]
            exact hin
          · have htu : t ≠ u := by
              rintro rfl
              rw [hpc] at hwaits
              cases hwaits
            rw [hEq, Function.update_of_ne htu]
            exact hin
        exact hv.change hstill hv.counted (by simp) (by simp) (by simp)
      · cases h
        exact hw.change hin hw.counted (by simp) (by simp) (by simp)
  · cases h

/-- A critical section changes the table only as a call of the library does. -/
theorem Inv.body (hw : Inv w) (h : Counter.perform (.body t) w = some w') : Inv w' := by
  simp only [Counter.perform] at h
  split at h
  · next name flags hpc =>
      rcases Option.map_eq_some_iff.1 h with ⟨⟨r, s⟩, hopen, rfl⟩
      exact hw.change (by rw [hpc]; trivial) (hw.counted.growth (tfsOpenUnsynchronized_growth hopen))
        (by simp) (by simp) (by simp)
  · next fhandle hpc =>
      -- the counter is read in the same section that has lowered it
      cases h
      refine hw.change (by rw [hpc]; trivial)
        (hw.counted.change (removeFromOpenFileTable_change fhandle w.lib)) ?_ (by simp) (by simp)
      intro number hq
      cases hq
      rfl
  · next c hnotOpen hnotClose hpc =>
      rcases Option.map_eq_some_iff.1 h with ⟨⟨r, s⟩, hexec, rfl⟩
      exact hw.change (by rw [hpc]; trivial) (hw.counted.change (exec_change hexec)) (by simp) (by simp)
        (by simp)
  · next hpc =>
      -- `tfs_destroy_after_all_closed` only sets the flag
      cases h
      exact hw.change (by rw [hpc]; trivial) hw.counted (by simp) (by simp) (by simp)
  · cases h

/-- The loop is left with the counter at 0 and the lock held, or it gives the lock up and waits. -/
theorem Inv.loop (hw : Inv w) (h : Counter.perform (.loop t) w = some w') : Inv w' := by
  simp only [Counter.perform] at h
  split at h
  · next hpc =>
      have hin : (w.pc t).InSection := by
        rw [hpc]
        trivial
      have hnot : w.pc t ≠ .waiting := by simp [hpc]
      split at h
      · next hzero =>
          cases h
          exact hw.move hw.counted (fun u _ hu => ⟨hw.holds u hu, rfl⟩) (fun _ => hw.holds t hin)
            (by simp) (fun _ => hzero) (hw.waiters_update hnot (by simp))
      · cases h
        refine hw.move hw.counted (fun u hu hin' => absurd hin' (hw.alone hin hu)) (fun hq => hq.elim)
          (by simp) (by simp) ?_
        refine (Function.forall_update_iff w.pc fun u r => u ∈ t :: w.waiters ↔ r = .waiting).2 ⟨by simp, ?_⟩
        intro u hu
        rw [List.mem_cons, hw.waiters u]
        simp [hu]
  · cases h

theorem Inv.unlock (hw : Inv w) (h : Counter.perform (.unlock t) w = some w') : Inv w' := by
  simp only [Counter.perform] at h
  split at h
  · next hpc =>
      cases h
      exact hw.move hw.counted (fun u hu hin => absurd hin (hw.alone (by rw [hpc]; trivial) hu))
        (fun hq => hq.elim) (by simp) (by simp) (hw.waiters_update (by simp [hpc]) (by simp))
  · next hpc =>
      cases h
      exact hw.move hw.counted (fun u hu hin => absurd hin (hw.alone (by rw [hpc]; trivial) hu))
        (fun hq => hq.elim) (by simp) (by simp) (hw.waiters_update (by simp [hpc]) (by simp))
  · cases h

theorem Inv.step {a : Label} (hw : Inv w) (h : perform a w = some w') : Inv w' := by
  cases a with
  | call t c =>
      simp only [Counter.perform] at h
      split at h
      · next hpc =>
          cases h
          exact hw.outside (by simp [hpc]) id (by simp)
      · cases h
  | testClosing t =>
      -- without the lock, whatever the flag says
      simp only [Counter.perform] at h
      split at h
      · next hpc =>
          split at h
          · cases h
            exact hw.outside (by simp [hpc]) id (by simp)
          · cases h
            exact hw.outside (by simp [hpc]) id (by simp)
      · cases h
  | lock t =>
      simp only [Counter.perform] at h
      split at h
      · cases h
      · next hpc => exact hw.acquire (by simp [hpc]) (by simp) (by simp) (by simp) h
      · next hpc => exact hw.acquire (by simp [hpc]) (by simp) (by simp) (by simp) h
      · next hpc => exact hw.acquire (by simp [hpc]) (by simp) (by simp) (by simp) h
      · cases h
  | body t => exact hw.body h
  | testNumber t u => exact hw.testNumber h
  | loop t => exact hw.loop h
  | wake t =>
      simp only [Counter.perform] at h
      split at h
      · cases h
        exact hw.unblock t
      · cases h
  | unlock t => exact hw.unlock h
  | destroy t =>
      simp only [Counter.perform] at h
      split at h
      · next hpc =>
          cases h
          exact hw.outside (by simp [hpc]) id (by simp)
      · cases h

theorem inv_start {s : State} (hs : Counted s) : Inv (World.start s) := by
  refine ⟨hs, fun _ hin => hin.elim, ?_, ?_, by simp [World.start]⟩
  · intro t number hpc
    cases hpc
  · intro t hpc
    cases hpc

/-! ## The last close -/

/-- A signal that wakes some thread can be given. -/
theorem exists_signal (w : World) (t : ℕ) : ∃ u v, w.signal t u = some v := by
  by_cases hnone : w.waiters = []
  · exact ⟨0, { w with signals := w.signals ++ [t] }, by simp [World.signal, hnone]⟩
  · rcases List.exists_mem_of_ne_nil _ hnone with ⟨u, hu⟩
    exact ⟨u, { w with signals := w.signals ++ [t] }.unblock u, by simp [World.signal, hnone, hu]⟩

/-- The thread that takes the step. -/
def Label.thread : Label → ℕ
  | call t _ => t
  | testClosing t => t
  | lock t => t
  | body t => t
  | testNumber t _ => t
  | loop t => t
  | wake t => t
  | unlock t => t
  | destroy t => t

theorem acquire_pc_of_ne (hu : u ≠ t) (h : w.acquire t q = some w') : w'.pc u = w.pc u := by
  unfold World.acquire at h
  split at h
  · cases h
    exact Function.update_of_ne hu _ _
  · cases h

/-- A step of another thread moves thread `u` only by waking it. -/
theorem Inv.pc_of_perform {a : Label} (hw : Inv w) (h : perform a w = some w') (hu : u ≠ a.thread)
    (hpc : w.pc u ≠ .waiting) : w'.pc u = w.pc u := by
  cases a with
  | testNumber t v =>
      simp only [Counter.perform] at h
      split at h
      · split at h
        · rcases Option.map_eq_some_iff.1 h with ⟨x, hsignal, rfl⟩
          rw [show (x.goto t .leaving).pc u = x.pc u from Function.update_of_ne hu _ _]
          rcases (hw.signal hsignal).2.2 with ⟨hEq, _⟩ | ⟨hEq, hwaits⟩
          · rw [hEq]
          · have huv : u ≠ v := by
              rintro rfl
              exact hpc hwaits
            rw [hEq, Function.update_of_ne huv]
        · cases h
          exact Function.update_of_ne hu _ _
      · cases h
  | lock t =>
      simp only [Counter.perform] at h
      split at h
      · cases h
      · exact acquire_pc_of_ne hu h
      · exact acquire_pc_of_ne hu h
      · exact acquire_pc_of_ne hu h
      · cases h
  | body t =>
      simp only [Counter.perform] at h
      split at h
      · rcases Option.map_eq_some_iff.1 h with ⟨x, _, rfl⟩
        exact Function.update_of_ne hu _ _
      · cases h
        exact Function.update_of_ne hu _ _
      · rcases Option.map_eq_some_iff.1 h with ⟨x, _, rfl⟩
        exact Function.update_of_ne hu _ _
      · cases h
        exact Function.update_of_ne hu _ _
      · cases h
  | _ =>
      simp only [Counter.perform] at h
      split at h <;> (try split at h) <;> cases h <;> exact Function.update_of_ne hu _ _

/-- A thread between the two lines of `tfs_close` is moved by its own test only. -/
theorem Inv.removed_or_testNumber {a : Label} {number : ℤ} (hw : Inv w) (hpc : w.pc t = .removed number)
    (h : perform a w = some w') : w'.pc t = .removed number ∨ ∃ u, a = .testNumber t u := by
  by_cases hthread : t = a.thread
  · right
    cases a <;> simp only [Label.thread] at hthread <;> subst hthread <;>
      simp only [Counter.perform, hpc, reduceCtorEq] at h
    exact ⟨_, rfl⟩
  · left
    rw [hw.pc_of_perform h hthread (by simp [hpc]), hpc]

/-- The test of a `tfs_close` that has left the counter at 0. -/
theorem Inv.signals (hw : Inv w) (hpc : w.pc t = .removed 0)
    (h : perform (.testNumber t u) w = some w') : Signals t w w' := by
  have hzero : getOpenFilesNumber w.lib = 0 := hw.removed t 0 hpc
  have hholder := hw.holds t (by rw [hpc]; trivial)
  simp only [Counter.perform, hpc, if_pos hzero] at h
  rcases Option.map_eq_some_iff.1 h with ⟨v, hsignal, rfl⟩
  rcases hw.signal hsignal with ⟨⟨_, _, hsame⟩, hlogged, hpcs⟩
  refine ⟨⟨hholder, hsame.trans hholder⟩, hlogged, ?_⟩
  rintro ⟨x, hx⟩
  rcases hpcs with ⟨_, hnone⟩ | ⟨hEq, hwaits⟩
  · exact absurd hx (hnone x)
  · have hut : u ≠ t := by
      rintro rfl
      rw [hpc] at hwaits
      cases hwaits
    refine ⟨u, hwaits, ?_⟩
    change Function.update v.pc t .leaving u = .woken
    rw [Function.update_of_ne hut, hEq, Function.update_self]

theorem Inv.countsRight (hw : Inv w) : CountsRight w := by
  refine ⟨hw.counted, hw.counted.range, ?_, ?_, ?_⟩
  · intro t number hpc
    exact ⟨hw.holds t (by rw [hpc]; trivial), hw.removed t number hpc⟩
  · intro t hpc
    have hzero : getOpenFilesNumber w.lib = 0 := hw.removed t 0 hpc
    refine ⟨?_, ?_⟩
    · rcases exists_signal w t with ⟨u, v, hsignal⟩
      refine ⟨.testNumber t u, v.goto t .leaving, ?_, by simp [World.goto]⟩
      simp only [threads, perform, hpc, if_pos hzero, hsignal, Option.map_some]
    · intro a w' hst
      rcases hw.removed_or_testNumber hpc hst with hstays | ⟨u, rfl⟩
      · exact Or.inl hstays
      · exact Or.inr (hw.signals hpc hst)
  · intro t hpc
    exact ⟨hw.holds t (by rw [hpc]; trivial), hw.counted.eq_zero_iff.1 (hw.drained t hpc)⟩

end Steps

/-- The counter is right in every state that any interleaving can reach, and the last close signals. -/
theorem shutdownWait_countsRight {w : World} (hr : threads.Reachable w) : CountsRight w := by
  have hinv : Inv w :=
    hr.invariant (fun w hw => by rw [show w = World.start tfsInit.2 from hw]; exact inv_start counted_tfsInit)
      (fun _ _ _ hw hstep => hw.step hstep)
  exact hinv.countsRight

/-! ## A close that ends a wait -/

/-- Thread 0 opens a file; thread 1 waits for it to be closed; thread 0 removes its entry. -/
def closeUnderWait : List Label :=
  [.call 0 (.library (.open (some slashA) tfsOCreat)), .testClosing 0, .lock 0, .body 0,
    .unlock 0, .call 1 .destroyAfterAllClosed, .lock 1, .body 1, .loop 1, .call 0 (.library (.close 0)),
    .lock 0, .body 0]

/-- Thread 0 wakes thread 1, which leaves the loop. -/
def endOfWait : List Label :=
  [.testNumber 0 1, .unlock 0, .lock 1, .loop 1]

/-- Thread `t` has removed the last entry. -/
def removedLast (w : World) (t : ℕ) : Bool :=
  match w.pc t with
  | .removed number => decide (number = 0)
  | _ => false

/-- Thread `t` has left the loop. -/
def leftLoop (w : World) (t : ℕ) : Bool :=
  match w.pc t with
  | .drained => true
  | _ => false

theorem removedLast_iff {w : World} {t : ℕ} : removedLast w t = true ↔ w.pc t = .removed 0 := by
  unfold removedLast
  split
  · next number hpc => simp [hpc]
  · next hnot =>
      refine iff_of_false (by simp) ?_
      intro hpc
      exact hnot 0 hpc

theorem performAll_closeUnderWait :
    (System.performAll perform closeUnderWait (World.start tfsInit.2)).any
      (fun w => (removedLast w 0 = true ∧ w.waiters = [1]) ∧
        (perform (.testNumber 0 1) w).any (fun w' => !removedLast w' 0) = true ∧
        (System.performAll perform endOfWait w).any (leftLoop · 1) = true) = true := by
  decide +kernel

theorem shutdownWait_countsRight_closeUnderWait : ∃ w w', threads.Reachable w ∧ w.waiters = [1] ∧
    threads.step w (.testNumber 0 1) w' ∧ Signals 0 w w' ∧
    (System.performAll perform endOfWait w).any (leftLoop · 1) = true := by
  rcases (Option.any_eq_true _ _).1 performAll_closeUnderWait with ⟨w, hrun, hw⟩
  rcases of_decide_eq_true hw with ⟨⟨hremoved, hwaiters⟩, htest, hleft⟩
  rcases (Option.any_eq_true _ _).1 htest with ⟨w', hst, hgone⟩
  have hstart : threads.Execution [] (World.start tfsInit.2) := .start rfl
  rcases System.Execution.performAll (M := threads) (fun _ _ _ _ h => h) hstart hrun with ⟨h, he, _⟩
  have hsignals := (shutdownWait_countsRight ⟨h, he⟩).signals 0 (removedLast_iff.1 hremoved)
  refine ⟨w, w', ⟨h, he⟩, hwaiters, hst, ?_, hleft⟩
  refine (hsignals.2 _ w' hst).resolve_left ?_
  intro hstays
  simp [removedLast_iff.2 hstays] at hgone

end Counter
end Server
end TecnicoFs
