import TecnicoFs.Tfs.Operations
import TecnicoFs.Tfs.Tables

/-!
# Multi-block exhaustion — a scan that returns -1 and a table that is full

A scan sees each entry at another moment. It can return -1 although the table was never full: an entry that
it has passed is released, and another thread takes the entry in front of it. Where nothing is released
behind a scan that has not met a full table, every -1 comes from a full table.
-/

namespace TecnicoFs
namespace Tfs
namespace Allocators

open Lib

/-! ## The law, and the condition under which it holds -/

/-- Every entry is TAKEN. -/
def Table.Full (T : Table) (s : State) : Prop :=
  ∀ k < T.size, T.marks s k = .taken

/-- The table is full in `w`, or was in an earlier state of the run since the scan of thread `t` began. -/
def FullSince (T : Table) (t : ℕ) : List (World × Label) → World → Prop
  | [], w => T.Full w.lib
  | (v, _) :: h, w => T.Full w.lib ∨ (T.position (v.pc t) ≠ none ∧ FullSince T t h v)

/-- A step that returns -1 at the end of a scan: the table was full between the start of the scan and its
return. -/
def NotSpurious (T : Table) (h : List (World × Label)) (w : World) (a : Label) : Prop :=
  ∀ t, a = .step t → event w a = some (.exhausted T) → FullSince T t h w

/-- A step that releases an entry: each scan that has passed the entry has met a full table. -/
def ReleasesAhead (T : Table) (h : List (World × Label)) (w : World) (a : Label) : Prop :=
  ∀ k, event w a = some (.released T k) →
    ∀ t p, T.position (w.pc t) = some p → k < p → FullSince T t h w

section Law

variable {T : Table} {s₀ : State} {h : List (World × Label)} {w : World} {t : ℕ} {a : Label}

/-- The history of the table. -/
def viewHistory (T : Table) (h : List (World × Label)) : List (Board ℕ × Scan.Label ℕ) :=
  h.map fun p => (view T p.1, scanLabel T p.1 p.2)

theorem fullSince_view : FullSince T t h w ↔ Scan.FullSince T.size t (viewHistory T h) (view T w) := by
  induction h generalizing w with
  | nil => exact Iff.rfl
  | cons p h ih => exact or_congr Iff.rfl (and_congr Iff.rfl ih)

theorem ReleasesAhead.view (hahead : ReleasesAhead T h w a) :
    Scan.Ahead T.size (viewHistory T h) (view T w) (scanLabel T w a) := by
  unfold Scan.Ahead
  split
  · next k hrelease =>
      intro t p hpos hk
      exact fullSince_view.1 (hahead k (event_of_release hrelease) t p hpos hk)
  · trivial

theorem notSpurious_of_view
    (hmet : Scan.MetFull T.size (viewHistory T h) (Allocators.view T w) (scanLabel T w a)) :
    NotSpurious T h w a := by
  rintro t rfl hexhausted
  rw [scanLabel_of_exhausted hexhausted] at hmet
  exact fullSince_view.2 hmet

/-- If every release of an entry finds no scan behind it that has not met a full table, then every -1 at the
end of a scan comes from a table that was full during the scan. -/
theorem notSpurious_of_releasesAhead (he : (allocators s₀).Execution h w)
    (hC : System.EachStepAfter (ReleasesAhead T) h) : System.EachStepAfter (NotSpurious T) h := by
  have hahead : System.EachStepAfter (Scan.Ahead T.size) (viewHistory T h) :=
    System.eachStepAfter_map.2 (hC.mono fun _ _ _ hstep => hstep.view)
  have hmet := Scan.metFull_of_ahead (view_execution T he) hahead
  exact (System.eachStepAfter_map.1 hmet).mono fun _ _ _ hstep => notSpurious_of_view hstep

end Law

/-! ## A full table, and one that is never full -/

instance (T : Table) (s : State) : Decidable (T.Full s) :=
  inferInstanceAs (Decidable (∀ k < T.size, T.marks s k = .taken))

/-- `FullSince`, as a test. -/
def fullSince (T : Table) (t : ℕ) : List (World × Label) → World → Bool
  | [], w => decide (T.Full w.lib)
  | (v, _) :: h, w => decide (T.Full w.lib) || ((T.position (v.pc t)).isSome && fullSince T t h v)

theorem fullSince_iff {T : Table} {t : ℕ} {h : List (World × Label)} {w : World} :
    fullSince T t h w = true ↔ FullSince T t h w := by
  induction h generalizing w with
  | nil => simp [fullSince, FullSince]
  | cons p h ih => simp [fullSince, FullSince, ih, Option.isSome_iff_ne_none]

/-- Thread `t` adds the first `n` entries to an empty table. -/
def addEntries (t n : ℕ) : List Label :=
  (List.range n).flatMap fun k => .call t (.addToOpenFileTable 0 0 0) :: List.replicate (k + 1) (.step t)

/-- A look at the first `n` entries. -/
def scanEntries (t n : ℕ) : List Label :=
  .call t (.addToOpenFileTable 0 0 0) :: List.replicate n (.step t)

/-- Handles 0 to 18 are open. Threads 1 and 2 look at their entries; handle 0 is closed; thread 2 takes entry
19, and thread 1 finds it taken. -/
def neverFull : List Label :=
  addEntries 0 19 ++ scanEntries 1 19 ++ scanEntries 2 19 ++
    [.call 0 (.removeFromOpenFileTable 0), .step 0, .step 2, .step 1]

theorem performAll_neverFull :
    (System.performAll (System.record perform) neverFull ([], World.start tfsInit.2)).any
      (fun x => event x.2 (.step 1) = some (.exhausted .handles) ∧ fullSince .handles 1 x.1 x.2 = false) =
        true := by
  decide +kernel

/-- Thread 1 gets -1, and at each moment of its call an entry is FREE. -/
theorem neverFull_spurious : ∃ h w, (allocators tfsInit.2).Execution h w ∧
    ¬ System.EachStepAfter (NotSpurious .handles) h := by
  rcases System.execution_of_any (M := allocators tfsInit.2) perform (fun _ _ _ hstep => hstep) rfl
      performAll_neverFull with ⟨h, w, he, _, hexhausted, hnever⟩
  rcases Option.bind_eq_some_iff.1 hexhausted with ⟨o, hadv, _⟩
  have hlast : (allocators tfsInit.2).step w (.step 1) (w.after 1 o) := by
    change (advance (w.pc 1) w.lib).map (w.after 1) = some (w.after 1 o)
    rw [hadv]
    rfl
  refine ⟨_, _, he.next hlast, ?_⟩
  rintro ⟨hmet, _⟩
  have hfull := fullSince_iff.2 (hmet 1 rfl hexhausted)
  rw [hnever] at hfull
  cases hfull

/-- Twenty handles are open. Thread 1 looks at ten entries, handle 0 is closed, and thread 1 looks at the
others. -/
def closedBehind : List Label :=
  addEntries 0 20 ++ scanEntries 1 10 ++ [.call 0 (.removeFromOpenFileTable 0), .step 0] ++
    List.replicate 11 (.step 1)

def Label.thread : Label → ℕ
  | call t _ => t
  | step t => t

/-- A thread that takes no step is idle. -/
theorem pc_of_unused {s₀ : State} {h : List (World × Label)} {w : World} {t : ℕ}
    (he : (allocators s₀).Execution h w) (ht : ∀ p ∈ h, p.2.thread ≠ t) : w.pc t = .idle := by
  induction he with
  | start h0 =>
      rw [show _ = World.start s₀ from h0]
      rfl
  | @next h v w a he hst ih =>
      have hbefore := ih fun p hp => ht p (List.mem_cons_of_mem _ hp)
      have hne : t ≠ a.thread := (ht (v, a) List.mem_cons_self).symm
      rw [← hbefore]
      cases a with
      | call u c =>
          simp only [allocators, perform] at hst
          split at hst
          · cases hst
            exact Function.update_of_ne hne _ _
          · cases hst
      | step u =>
          rcases Option.map_eq_some_iff.1 hst with ⟨o, _, rfl⟩
          exact Function.update_of_ne hne _ _

/-- `ReleasesAhead`, as a test for the threads below `n`. -/
def releasesAhead (T : Table) (n : ℕ) (h : List (World × Label)) (w : World) (a : Label) : Bool :=
  match event w a with
  | some (.released U k) =>
      U ≠ T ∨ ∀ t < n, (T.position (w.pc t)).all (· ≤ k) ∨ fullSince T t h w = true
  | _ => true

/-- The test is enough where only these threads take steps. -/
theorem releasesAhead_of_test {T : Table} {n : ℕ} {s₀ : State} {h : List (World × Label)} {w : World}
    {a : Label} (he : (allocators s₀).Execution h w) (hthreads : ∀ p ∈ h, p.2.thread < n)
    (htest : releasesAhead T n h w a = true) : ReleasesAhead T h w a := by
  intro k hreleased t p hpos hk
  have ht : t < n := by
    by_contra hge
    have hidle : w.pc t = .idle := by
      refine pc_of_unused he fun q hq hEq => hge ?_
      rw [← hEq]
      exact hthreads q hq
    rw [hidle] at hpos
    cases T <;> cases hpos
  simp only [releasesAhead, hreleased, decide_eq_true_eq] at htest
  rcases (htest.resolve_left fun hne => hne rfl) t ht with hbefore | hfull
  · rw [hpos] at hbefore
    exact absurd (of_decide_eq_true hbefore) (Nat.not_le.2 hk)
  · exact fullSince_iff.1 hfull

/-- All the steps of a run meet the test. -/
def allReleasesAhead (T : Table) (n : ℕ) : List (World × Label) → Bool
  | [] => true
  | (w, a) :: h => a.thread < n && releasesAhead T n h w a && allReleasesAhead T n h

theorem eachStep_of_allReleasesAhead {T : Table} {n : ℕ} {s₀ : State} {h : List (World × Label)} {w : World}
    (he : (allocators s₀).Execution h w) (htest : allReleasesAhead T n h = true) :
    (∀ p ∈ h, p.2.thread < n) ∧ System.EachStepAfter (ReleasesAhead T) h := by
  induction he with
  | start _ => exact ⟨by simp, trivial⟩
  | @next h v w a he hst ih =>
      simp only [allReleasesAhead, Bool.and_eq_true, decide_eq_true_eq] at htest
      rcases ih htest.2 with ⟨hthreads, hahead⟩
      exact ⟨List.forall_mem_cons.2 ⟨htest.1.1, hthreads⟩, releasesAhead_of_test he hthreads htest.1.2, hahead⟩

theorem performAll_closedBehind :
    (System.performAll (System.record perform) closedBehind ([], World.start tfsInit.2)).any
      (fun x => allReleasesAhead .handles 2 x.1 = true ∧
        (x.1.any fun p => event p.1 p.2 = some (.released .handles 0)) = true ∧
        (x.1.head?.map fun p => event p.1 p.2) = some (some (.exhausted .handles))) = true := by
  decide +kernel

/-- Thread 1 gets -1 with handle 0 FREE, after it has met a full table. -/
theorem notSpurious_of_releasesAhead_closedBehind : ∃ h w, (allocators tfsInit.2).Execution h w ∧
    (h.any fun p => event p.1 p.2 = some (.released .handles 0)) = true ∧
    (h.head?.map fun p => event p.1 p.2) = some (some (.exhausted .handles)) ∧
      System.EachStepAfter (NotSpurious .handles) h := by
  rcases System.execution_of_any (M := allocators tfsInit.2) perform (fun _ _ _ hstep => hstep) rfl
      performAll_closedBehind with ⟨h, w, he, _, htest, hreleased, hlast⟩
  exact ⟨h, w, he, hreleased, hlast,
    notSpurious_of_releasesAhead he (eachStep_of_allReleasesAhead he htest).2⟩

end Allocators
end Tfs
end TecnicoFs
