import TecnicoFs.Server.OpenFiles

/-!
# Server shutdown — concurrent calls and the drain

The threads of the server call the library at the same time.  A call is a sequence of atomic steps: the
test of `state_closing` that `tfs_open` makes before it takes the lock, the critical sections, and the
destruction of the lock.  The *drain* is the moment when a `tfs_destroy_after_all_closed` leaves its
critical section with no file open.  The state counts what happens after the drain.
-/

namespace TecnicoFs
namespace Server
namespace Shutdown

open Lib

/-! ## Threads and steps -/

/-- A call of the public interface of `operations.h`. -/
inductive ApiCall
  | library (c : Call)
  | destroyAfterAllClosed

/-- Where a thread stands in its call. -/
inductive Pc
  | idle
  | called (c : ApiCall)
  | openTested (name : Path) (flags : ℤ)
  | waiting
  | destroying

structure World where
  lib : State
  pc : ℕ → Pc
  drained : Bool
  locksAfter : ℕ
  entriesAfter : ℕ
  destroyed : ℕ

/-- Every thread is idle. -/
def World.start (s : State) : World where
  lib := s
  pc := fun _ => .idle
  drained := false
  locksAfter := 0
  entriesAfter := 0
  destroyed := 0

namespace World

variable (w : World) (t : ℕ) (pc : Pc)

def goto : World :=
  { w with pc := Function.update w.pc t pc }

/-- Taking `single_global_lock` to run a critical section that leaves the library in state `s`. -/
def acquire (s : State) : World :=
  { w with
    lib := s
    locksAfter := if w.drained then w.locksAfter + 1 else w.locksAfter }

/-- The return value of a critical section of `tfs_open`: a handle is a new entry. -/
def entryAdded (r : ℤ) : World :=
  { w with entriesAfter := if w.drained ∧ r ≥ 0 then w.entriesAfter + 1 else w.entriesAfter }

/-- The `while` loop of `tfs_destroy_after_all_closed`, entered with the lock held. -/
def drainOrWait : World :=
  if getOpenFilesNumber w.lib = 0 then
    { w.goto t .destroying with drained := true }
  else
    w.goto t .waiting

end World

/-- The steps of thread `t`. -/
inductive Label
  | call (t : ℕ) (c : ApiCall)
  | testClosing (t : ℕ)
  | openSection (t : ℕ)
  | section (t : ℕ)
  | destroySection (t : ℕ)
  | wake (t : ℕ)
  | destroy (t : ℕ)

/-- What a step does; `none` where thread `t` is not at that step, or the library's behaviour there is
undefined. -/
def perform : Label → World → Option World
  | .call t c, w =>
      match w.pc t with
      | .idle => some (w.goto t (.called c))
      | _ => none
  | .testClosing t, w =>
      match w.pc t with
      | .called (.library (.open name flags)) =>
          if stateClosingStatus w.lib then some (w.goto t .idle)
          else some (w.goto t (.openTested name flags))
      | _ => none
  | .openSection t, w =>
      match w.pc t with
      | .openTested name flags =>
          (tfsOpenUnsynchronized name flags w.lib).map fun x =>
            ((w.acquire x.2).entryAdded x.1).goto t .idle
      | _ => none
  | .section t, w =>
      match w.pc t with
      | .called (.library (.open _ _)) => none
      | .called (.library c) => (exec c w.lib).map fun x => (w.acquire x.2).goto t .idle
      | _ => none
  | .destroySection t, w =>
      match w.pc t with
      | .called .destroyAfterAllClosed => some ((w.acquire (setStateClosing w.lib)).drainOrWait t)
      | _ => none
  | .wake t, w =>
      -- `pthread_cond_wait` returns with the lock taken again, also without a signal
      match w.pc t with
      | .waiting => some ((w.acquire w.lib).drainOrWait t)
      | _ => none
  | .destroy t, w =>
      match w.pc t with
      | .destroying => some ({ w with destroyed := w.destroyed + 1 }.goto t .idle)
      | _ => none

/-- Any number of threads, any calls, any interleaving. -/
def threads : System World Label where
  init w := w = World.start tfsInit.2
  step w a w' := perform a w = some w'

/-! ## The law, and the condition under which it holds -/

/-- Nothing happened after the drain: no lock was taken, no entry added, no lock destroyed twice. -/
def Quiet (w : World) : Prop :=
  w.locksAfter = 0 ∧ w.entriesAfter = 0 ∧ w.destroyed ≤ 1

/-- The thread is in no call, or in a `tfs_open` that did not test the flag yet. -/
def AtRest : Pc → Prop
  | .idle => True
  | .called (.library (.open _ _)) => True
  | _ => False

/-- The calls come in an order that the code is safe for: a destroy call leaves its critical section only
while every other thread is at rest, and after that only `tfs_open` is called. -/
def Orderly (w : World) : Label → Prop
  | .call _ (.library (.open _ _)) => True
  | .call _ _ => w.drained = false
  | .destroySection t => w.lib.openFilesNumber = 0 → ∀ u, u ≠ t → AtRest (w.pc u)
  | .wake t => w.lib.openFilesNumber = 0 → ∀ u, u ≠ t → AtRest (w.pc u)
  | _ => True

/-! ## Orderly runs are quiet -/

/-- Before the drain nothing was counted, and a waiting thread has set the flag.  After the drain the flag
is set, every thread is at rest but perhaps the one that destroys the lock, and it does so once. -/
structure Inv (w : World) : Prop where
  quiet : w.locksAfter = 0 ∧ w.entriesAfter = 0
  closing : ∀ u, w.pc u = .waiting → w.lib.stateClosing = true
  before : w.drained = false → w.destroyed = 0 ∧ ∀ u, w.pc u ≠ .destroying
  after : w.drained = true → w.lib.stateClosing = true ∧ w.destroyed ≤ 1 ∧
    (∀ u, AtRest (w.pc u) ∨ w.pc u = .destroying) ∧
    ∀ u, w.pc u = .destroying → w.destroyed = 0 ∧ ∀ v, v ≠ u → w.pc v ≠ .destroying

section Steps

variable {w w' : World} {t : ℕ} {pc : Pc}

theorem goto_pc_self : (w.goto t pc).pc t = pc := by
  simp [World.goto]

theorem goto_pc_of_ne {u : ℕ} (hu : u ≠ t) : (w.goto t pc).pc u = w.pc u := by
  simp [World.goto, hu]

theorem forall_goto (P : ℕ → Pc → Prop) (ht : P t pc) (hothers : ∀ u, u ≠ t → P u (w.pc u)) :
    ∀ u, P u ((w.goto t pc).pc u) :=
  (Function.forall_update_iff w.pc P).2 ⟨ht, hothers⟩

theorem Inv.not_drained (hw : Inv w) (hrest : ¬ AtRest (w.pc t)) (hpc : w.pc t ≠ .destroying) :
    w.drained = false := by
  by_contra h
  have hd : w.drained = true := by simpa using h
  rcases (hw.after hd).2.2.1 t with hr | hr
  · exact hrest hr
  · exact hpc hr

/-- A thread moves to a step of its own, and the rest of the state stays. -/
theorem Inv.goto (hw : Inv w) (hwait : pc = .waiting → w.lib.stateClosing = true)
    (hne : pc ≠ .destroying) (hrest : w.drained = true → AtRest pc) : Inv (w.goto t pc) := by
  constructor
  · exact hw.quiet
  · exact forall_goto (fun _ q => q = .waiting → w.lib.stateClosing = true) hwait
      (fun u _ => hw.closing u)
  · intro hd
    rcases hw.before hd with ⟨hdestroyed, hnone⟩
    exact ⟨hdestroyed, forall_goto (fun _ q => q ≠ .destroying) hne (fun u _ => hnone u)⟩
  · intro hd
    rcases hw.after hd with ⟨hclosing, hdestroyed, hothers, hunique⟩
    refine ⟨hclosing, hdestroyed, ?_, ?_⟩
    · exact forall_goto (fun _ q => AtRest q ∨ q = .destroying) (Or.inl (hrest hd)) (fun u _ => hothers u)
    · intro u hu
      -- the thread that destroys the lock is another one
      have hut : u ≠ t := by
        rintro rfl
        rw [goto_pc_self] at hu
        exact hne hu
      rw [goto_pc_of_ne hut] at hu
      rcases hunique u hu with ⟨hzero, halone⟩
      exact ⟨hzero, forall_goto (fun v q => v ≠ u → q ≠ .destroying) (fun _ => hne)
        (fun v _ => halone v)⟩

/-- A critical section before the drain. -/
theorem Inv.acquire (hw : Inv w) (hd : w.drained = false) {s : State}
    (hclosing : w.lib.stateClosing = true → s.stateClosing = true) : Inv (w.acquire s) := by
  constructor
  · simpa [World.acquire, hd] using hw.quiet
  · intro u hu
    exact hclosing (hw.closing u hu)
  · intro _
    exact hw.before hd
  · intro h
    have hdrained : w.drained = true := h
    rw [hd] at hdrained
    cases hdrained

theorem Inv.entryAdded (hw : Inv w) (hd : w.drained = false) (r : ℤ) : Inv (w.entryAdded r) := by
  have hsame : w.entryAdded r = w := by
    cases w
    cases hd
    simp [World.entryAdded]
  rw [hsame]
  exact hw

/-- The end of the loop of `tfs_destroy_after_all_closed`: the drain, or another wait. -/
theorem Inv.drainOrWait (hw : Inv w) (hd : w.drained = false) (hclosing : w.lib.stateClosing = true)
    (hrest : w.lib.openFilesNumber = 0 → ∀ u, u ≠ t → AtRest (w.pc u)) : Inv (w.drainOrWait t) := by
  unfold World.drainOrWait getOpenFilesNumber
  split
  · -- no file is open: this thread has drained, and the others are at rest
    rename_i hzero
    have hnone := (hw.before hd).2
    constructor
    · exact hw.quiet
    · intro u _
      exact hclosing
    · intro h
      cases h
    · intro _
      refine ⟨hclosing, ?_, ?_, ?_⟩
      · change w.destroyed ≤ 1
        rw [(hw.before hd).1]
        exact Nat.zero_le _
      · exact forall_goto (fun _ q => AtRest q ∨ q = .destroying) (Or.inr rfl)
          (fun u hut => Or.inl (hrest hzero u hut))
      · intro u hu
        have hut : u = t := by
          by_contra hut
          have hu' : (w.goto t .destroying).pc u = .destroying := hu
          rw [goto_pc_of_ne hut] at hu'
          exact hnone u hu'
        subst hut
        refine ⟨(hw.before hd).1, ?_⟩
        intro v hv
        change (w.goto u .destroying).pc v ≠ .destroying
        rw [goto_pc_of_ne hv]
        exact hnone v
  · exact hw.goto (fun _ => hclosing) (by simp) (by simp [hd])

/-- The one thread that drained destroys the lock. -/
theorem Inv.destroy (hw : Inv w) (hpc : w.pc t = .destroying) :
    Inv ({ w with destroyed := w.destroyed + 1 }.goto t .idle) := by
  have hd : w.drained = true := by
    by_contra hnot
    exact (hw.before (by simpa using hnot)).2 t hpc
  rcases hw.after hd with ⟨hclosing, _, hothers, hunique⟩
  rcases hunique t hpc with ⟨hzero, hnone⟩
  -- no second thread is about to destroy it
  have hafter : ∀ u, ({ w with destroyed := w.destroyed + 1 }.goto t .idle).pc u ≠ .destroying :=
    forall_goto (fun _ q => q ≠ .destroying) (by simp) hnone
  constructor
  · exact hw.quiet
  · intro u _
    exact hclosing
  · intro hnot
    have hdrained : w.drained = false := hnot
    rw [hd] at hdrained
    cases hdrained
  · intro _
    refine ⟨hclosing, ?_, ?_, ?_⟩
    · change w.destroyed + 1 ≤ 1
      omega
    · exact forall_goto (fun _ q => AtRest q ∨ q = .destroying) (Or.inl trivial) (fun u _ => hothers u)
    · intro u hu
      exact absurd hu (hafter u)

theorem Inv.perform {a : Label} (hw : Inv w) (hok : Orderly w a) (h : perform a w = some w') :
    Inv w' := by
  cases a with
  | call t c =>
      simp only [Shutdown.perform] at h
      split at h
      · cases h
        apply hw.goto (by simp) (by simp)
        intro hd
        rcases c with (_ | _ | _ | _) | _
        · trivial
        all_goals
          have hnot : w.drained = false := hok
          rw [hd] at hnot
          cases hnot
      · cases h
  | testClosing t =>
      simp only [Shutdown.perform] at h
      split at h
      · split at h
        · cases h
          exact hw.goto (by simp) (by simp) (fun _ => trivial)
        · rename_i hopen
          cases h
          apply hw.goto (by simp) (by simp)
          -- after the drain the flag is set, so the test fails
          intro hd
          exact absurd (hw.after hd).1 hopen
      · cases h
  | openSection t =>
      simp only [Shutdown.perform] at h
      split at h
      · rename_i name flags hpc
        rcases Option.map_eq_some_iff.1 h with ⟨⟨r, s⟩, hopen, rfl⟩
        have hd := hw.not_drained (t := t) (by simp [hpc, AtRest]) (by simp [hpc])
        have hkeep := (tfsOpenUnsynchronized_growth hopen).closing
        have hsection := hw.acquire hd (s := s) (fun hclosing => hkeep.trans hclosing)
        exact (hsection.entryAdded hd r).goto (by simp) (by simp) (fun _ => trivial)
      · cases h
  | «section» t =>
      simp only [Shutdown.perform] at h
      split at h
      · cases h
      · rename_i c hnotOpen hpc
        rcases Option.map_eq_some_iff.1 h with ⟨⟨r, s⟩, hexec, rfl⟩
        have hd : w.drained = false := by
          apply hw.not_drained (t := t)
          · rw [hpc]
            rcases c with _ | _ | _ | _
            · exact absurd rfl (hnotOpen _ _)
            all_goals exact id
          · simp [hpc]
        have hkeep := (exec_change hexec).closing
        have hsection := hw.acquire hd (s := s) (fun hclosing => hkeep.trans hclosing)
        exact hsection.goto (by simp) (by simp) (fun _ => trivial)
      · cases h
  | destroySection t =>
      simp only [Shutdown.perform] at h
      split at h
      · rename_i hpc
        cases h
        have hd := hw.not_drained (t := t) (by simp [hpc, AtRest]) (by simp [hpc])
        have hsection := hw.acquire hd (s := setStateClosing w.lib) (fun _ => rfl)
        exact hsection.drainOrWait hd rfl hok
      · cases h
  | wake t =>
      simp only [Shutdown.perform] at h
      split at h
      · rename_i hpc
        cases h
        have hd := hw.not_drained (t := t) (by simp [hpc, AtRest]) (by simp [hpc])
        have hsection := hw.acquire hd (s := w.lib) id
        exact hsection.drainOrWait hd (hw.closing t hpc) hok
      · cases h
  | destroy t =>
      simp only [Shutdown.perform] at h
      split at h
      · rename_i hpc
        cases h
        exact hw.destroy hpc
      · cases h

theorem inv_start (s : State) : Inv (World.start s) := by
  constructor
  · exact ⟨rfl, rfl⟩
  · intro u hu
    cases hu
  · intro _
    exact ⟨rfl, fun u hu => by cases hu⟩
  · intro hd
    cases hd

theorem Inv.isQuiet (hw : Inv w) : Quiet w := by
  refine ⟨hw.quiet.1, hw.quiet.2, ?_⟩
  by_cases hd : w.drained = true
  · exact (hw.after hd).2.1
  · rw [(hw.before (by simpa using hd)).1]
    exact Nat.zero_le _

end Steps

/-- In a run whose steps are all orderly, nothing happens after the drain. -/
theorem quiet_of_orderly {h : List (World × Label)} {w : World} (he : threads.Execution h w)
    (hok : System.EachStep Orderly h) : System.Always Quiet h w := by
  have halways : System.Always Inv h w := by
    refine he.always_of_eachStep (C := Orderly) ?_ ?_ hok
    · intro s hinit
      rw [show s = World.start tfsInit.2 from hinit]
      exact inv_start _
    · intro s a t hs horderly hstep
      exact hs.perform horderly hstep
  exact ⟨halways.1.isQuiet, fun p hp => (halways.2 p hp).isQuiet⟩

/-! ## Two shutdown requests -/

section TwoShutdowns

theorem openFilesNumber_tfsInit : tfsInit.2.openFilesNumber = 0 := by
  rw [tfsInit_eq]
  rfl

/-- The critical section of a destroy call that finds no file open. -/
def drain (w : World) (t : ℕ) : World :=
  { (w.acquire (setStateClosing w.lib)).goto t .destroying with drained := true }

theorem perform_call {w : World} {t : ℕ} (c : ApiCall) (hpc : w.pc t = .idle) :
    threads.step w (.call t c) (w.goto t (.called c)) := by
  simp only [threads, perform, hpc]

theorem perform_destroySection {w : World} {t : ℕ} (hzero : w.lib.openFilesNumber = 0)
    (hpc : w.pc t = .called .destroyAfterAllClosed) :
    threads.step w (.destroySection t) (drain w t) := by
  have hloop : getOpenFilesNumber (w.acquire (setStateClosing w.lib)).lib = 0 := hzero
  simp only [threads, perform, hpc, World.drainOrWait, hloop, if_true]
  rfl

theorem perform_destroy {w : World} {t : ℕ} (hpc : w.pc t = .destroying) :
    threads.step w (.destroy t) ({ w with destroyed := w.destroyed + 1 }.goto t .idle) := by
  simp only [threads, perform, hpc]

theorem perform_testClosing {w : World} {t : ℕ} {name : Path} {flags : ℤ}
    (hpc : w.pc t = .called (.library (.open name flags))) (hclosing : w.lib.stateClosing = true) :
    threads.step w (.testClosing t) (w.goto t .idle) := by
  simp only [threads, perform, hpc, stateClosingStatus, hclosing, if_true]

/-- With no file open, the first request drains and the second one takes the lock again; both then
destroy it. -/
theorem two_shutdowns_not_quiet :
    ∃ h w, threads.Execution h w ∧
      h.map Prod.snd = [.destroy 1, .destroy 0, .destroySection 1, .destroySection 0,
        .call 1 .destroyAfterAllClosed, .call 0 .destroyAfterAllClosed] ∧
      w.locksAfter = 1 ∧ w.destroyed = 2 ∧ ¬ Quiet w := by
  have e₀ : threads.Execution [] (World.start tfsInit.2) := .start rfl
  have hzero := openFilesNumber_tfsInit
  generalize tfsInit.2 = s at e₀ hzero
  have e₁ := e₀.next (perform_call (t := 0) .destroyAfterAllClosed rfl)
  have e₂ := e₁.next (perform_call (t := 1) .destroyAfterAllClosed rfl)
  have e₃ := e₂.next (perform_destroySection (t := 0) hzero rfl)
  have e₄ := e₃.next (perform_destroySection (t := 1) hzero rfl)
  have e₅ := e₄.next (perform_destroy (t := 0) rfl)
  have e₆ := e₅.next (perform_destroy (t := 1) rfl)
  refine ⟨_, _, e₆, rfl, rfl, rfl, ?_⟩
  rintro ⟨_, _, hdestroyed⟩
  exact absurd (show 2 ≤ 1 from hdestroyed) (by decide)

/-- One request with no file open, then a `tfs_open`, which is refused. -/
theorem quiet_of_orderly_oneShutdown :
    ∃ h w, threads.Execution h w ∧ w.destroyed = 1 ∧ System.Always Quiet h w := by
  have e₀ : threads.Execution [] (World.start tfsInit.2) := .start rfl
  have hzero := openFilesNumber_tfsInit
  generalize tfsInit.2 = s at e₀ hzero
  have e₁ := e₀.next (perform_call (t := 0) .destroyAfterAllClosed rfl)
  have e₂ := e₁.next (perform_destroySection (t := 0) hzero rfl)
  have e₃ := e₂.next (perform_call (t := 1) (.library (.open none 0)) rfl)
  have e₄ := e₃.next (perform_testClosing (t := 1) rfl rfl)
  have e₅ := e₄.next (perform_destroy (t := 0) rfl)
  refine ⟨_, _, e₅, rfl, quiet_of_orderly e₅ ?_⟩
  simp only [System.eachStep_cons]
  refine ⟨trivial, trivial, trivial, ?_, rfl, by simp [System.EachStep]⟩
  intro _ u hu
  rw [goto_pc_of_ne hu]
  trivial

end TwoShutdowns

end Shutdown
end Server
end TecnicoFs
