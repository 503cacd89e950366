import TecnicoFs.Tfs.Operations
import TecnicoFs.Tfs.Tables

/-!
# Multi-block hand-out — no number has two owners

Between two returns of the same i-node number, block number or handle there is a release of it. For blocks
and handles the step that returns a number takes its entry. An i-node is returned some steps after its entry
was taken; in between it belongs to the thread that creates it, and only that thread can release it.
-/

namespace TecnicoFs
namespace Tfs
namespace Allocators

open Lib

/-! ## The law -/

/-- Each number that was returned before is returned again only after a release. -/
def HandedOutOnce (h : List (World × Label)) : Prop :=
  ∀ h₁ h₂ h₃ w a v b T k, h = h₁ ++ (w, a) :: (h₂ ++ (v, b) :: h₃) →
    event w a = some (.returned T k) → event v b = some (.returned T k) →
      ∃ p ∈ h₂, event p.1 p.2 = some (.released T k)

/-- From its return until its removal, the entry of a handle is TAKEN and has the i-node number that its
own `add_to_open_file_table` passed. -/
def KeepsEntry (h : List (World × Label)) (w : World) : Prop :=
  ∀ h₁ h₂ v t inumber offset appendFlag j k, h = h₁ ++ (v, .step t) :: h₂ →
    v.pc t = .takeEntry inumber offset appendFlag j → event v (.step t) = some (.returned .handles k) →
      (∀ p ∈ h₁, event p.1 p.2 ≠ some (.released .handles k)) →
        w.lib.freeOpenFileEntries k = .taken ∧ (w.lib.openFileTable k).ofInumber = inumber

/-- What is handed out is handed out to one caller. -/
structure Exclusively (h : List (World × Label)) (w : World) : Prop where
  once : HandedOutOnce h
  entry : KeepsEntry h w

/-! ## I-nodes -/

/-- The i-node that the thread is creating. -/
def Pc.creating : Pc → Option ℕ
  | .initInode _ inumber => some inumber
  | .inodeBlock _ inumber _ => some inumber
  | .fillInode _ inumber _ => some inumber
  | _ => none

/-- An i-node in creation is TAKEN and belongs to one thread; an i-node that was returned is TAKEN and
belongs to none. -/
structure Inodes (h : List (World × Label)) (w : World) : Prop where
  taken : ∀ t i, (w.pc t).creating = some i → w.lib.freeinodeTs i = .taken
  apart : Apart Pc.creating w.pc
  returned : ∀ p ∈ h, ∀ i, event p.1 p.2 = some (.returned .inodes i) →
    w.lib.freeinodeTs i = .taken ∧ ∀ t, (w.pc t).creating ≠ some i

section Law

variable {s₀ : State} {h : List (World × Label)} {w w' : World} {a : Label} {t : ℕ} {o : Outcome}

/-- What a step does to the i-nodes: nothing, or it takes one, or it ends a creation. -/
theorem inode_cases (hadv : advance (w.pc t) w.lib = some o) :
    (o.pc.creating = (w.pc t).creating ∧ o.lib.freeinodeTs = w.lib.freeinodeTs ∧
      ∀ i, o.event ≠ some (.returned .inodes i)) ∨
    (∃ i, w.lib.freeinodeTs i = .free ∧ o.pc.creating = some i ∧
      o.lib.freeinodeTs = Function.update w.lib.freeinodeTs i .taken ∧
      ∀ i, o.event ≠ some (.returned .inodes i)) ∨
    (∃ i, (w.pc t).creating = some i ∧ o.pc.creating = none ∧ o.lib.freeinodeTs = w.lib.freeinodeTs ∧
      ∀ j, o.event = some (.returned .inodes j) → j = i) ∨
    (∃ i, (w.pc t).creating = some i ∧ o.pc.creating = none ∧
      o.lib.freeinodeTs = Function.update w.lib.freeinodeTs i .free ∧
      ∀ j, o.event ≠ some (.returned .inodes j)) := by
  have hmoves := moves_of_advance hadv
  generalize w.pc t = pc at hmoves ⊢
  cases hmoves with
  -- a scan that goes on or ends stays outside of a creation, or inside of it
  | pass hscan => exact Or.inl ⟨by cases hscan <;> rfl, rfl, by simp⟩
  | giveUp hscan _ => exact Or.inl ⟨by cases hscan <;> rfl, rfl, by simp⟩
  | takeInode hfree => exact Or.inr (Or.inl ⟨_, hfree, rfl, rfl, by simp⟩)
  | initInode hsame => exact Or.inl ⟨rfl, hsame.marks .inodes, by simp⟩
  | inodeBlock _ _ => exact Or.inl ⟨rfl, rfl, by simp⟩
  -- the end of a creation
  | returned hsame =>
      refine Or.inr (Or.inr (Or.inl ⟨_, rfl, rfl, hsame.marks .inodes, ?_⟩))
      intro j hj
      cases hj
      rfl
  | released hsame =>
      refine Or.inr (Or.inr (Or.inr ⟨_, rfl, rfl, ?_, by simp⟩))
      exact congrArg (fun marks : ℕ → AllocationState => Function.update marks _ .free)
        (hsame.marks .inodes)
  | kept hsame => exact Or.inr (Or.inr (Or.inl ⟨_, rfl, rfl, hsame.marks .inodes, by simp⟩))
  -- blocks and handles
  | takeBlock _ _ => exact Or.inl ⟨rfl, rfl, by simp⟩
  | takeEntry _ _ => exact Or.inl ⟨rfl, rfl, by simp⟩
  | freeBlock => exact Or.inl ⟨rfl, rfl, by simp⟩
  | freeEntry => exact Or.inl ⟨rfl, rfl, by simp⟩
  | refused hfrees => exact Or.inl ⟨by rcases hfrees with ⟨_, rfl⟩ | ⟨_, rfl⟩ <;> rfl, rfl, by simp⟩

/-- A thread goes on with the creations and the marks as they were. -/
theorem Inodes.same (hw : Inodes h w) {s : State} {pc : Pc} (hpc : pc.creating = (w.pc t).creating)
    (hmarks : s.freeinodeTs = w.lib.freeinodeTs) (hevent : ∀ i, event w a ≠ some (.returned .inodes i)) :
    Inodes ((w, a) :: h) ⟨s, Function.update w.pc t pc⟩ := by
  have hsame : ∀ u, (Function.update w.pc t pc u).creating = (w.pc u).creating :=
    (Function.forall_update_iff w.pc fun u q => q.creating = (w.pc u).creating).2
      ⟨hpc, fun _ _ => rfl⟩
  refine ⟨?_, ?_, ?_⟩
  · intro u i hi
    rw [hmarks]
    exact hw.taken u i ((hsame u).symm.trans hi)
  · intro u v i hu hv
    exact hw.apart u v i ((hsame u).symm.trans hu) ((hsame v).symm.trans hv)
  · intro p hp i hi
    rcases List.mem_cons.1 hp with rfl | hp
    · exact absurd hi (hevent i)
    · rcases hw.returned p hp i hi with ⟨htaken, hnone⟩
      refine ⟨by rw [hmarks]; exact htaken, fun u hu => hnone u ((hsame u).symm.trans hu)⟩

/-- A free i-node is taken for a creation. -/
theorem Inodes.take (hw : Inodes h w) {s : State} {pc : Pc} {i : ℕ} (hfree : w.lib.freeinodeTs i = .free)
    (hpc : pc.creating = some i) (hmarks : s.freeinodeTs = Function.update w.lib.freeinodeTs i .taken)
    (hevent : ∀ j, event w a ≠ some (.returned .inodes j)) :
    Inodes ((w, a) :: h) ⟨s, Function.update w.pc t pc⟩ := by
  -- `i` is new: it is neither in a creation nor returned
  have hne : ∀ {j}, w.lib.freeinodeTs j = .taken → i ≠ j := by
    rintro j htaken rfl
    rw [hfree] at htaken
    cases htaken
  have hkept : ∀ {j}, w.lib.freeinodeTs j = .taken → s.freeinodeTs j = .taken := by
    intro j htaken
    rw [hmarks, Function.update_of_ne (hne htaken).symm]
    exact htaken
  refine ⟨?_, ?_, ?_⟩
  · refine (Function.forall_update_iff w.pc fun _ q => ∀ j, q.creating = some j →
      s.freeinodeTs j = .taken).2 ⟨?_, fun u _ j hj => hkept (hw.taken u j hj)⟩
    intro j hj
    rw [hpc] at hj
    cases hj
    rw [hmarks, Function.update_self]
  · apply hw.apart.update
    intro j hj u _ hu
    rw [hpc] at hj
    cases hj
    exact hne (hw.taken u i hu) rfl
  · intro p hp j hj
    rcases List.mem_cons.1 hp with rfl | hp
    · exact absurd hj (hevent j)
    · rcases hw.returned p hp j hj with ⟨htaken, hnone⟩
      refine ⟨hkept htaken, (Function.forall_update_iff w.pc fun _ q => q.creating ≠ some j).2
        ⟨?_, fun u _ => hnone u⟩⟩
      rw [hpc]
      exact fun hij => hne htaken (Option.some.inj hij)

/-- A creation ends, and the i-node is returned or stays taken. -/
theorem Inodes.finish (hw : Inodes h w) {s : State} {pc : Pc} {i : ℕ}
    (hcreating : (w.pc t).creating = some i) (hpc : pc.creating = none)
    (hmarks : s.freeinodeTs = w.lib.freeinodeTs)
    (hevent : ∀ j, event w a = some (.returned .inodes j) → j = i) :
    Inodes ((w, a) :: h) ⟨s, Function.update w.pc t pc⟩ := by
  have hnone : ∀ j, pc.creating ≠ some j := by
    intro j
    rw [hpc]
    exact (Option.some_ne_none j).symm
  refine ⟨?_, ?_, ?_⟩
  · refine (Function.forall_update_iff w.pc fun _ q => ∀ j, q.creating = some j →
      s.freeinodeTs j = .taken).2 ⟨fun j hj => absurd hj (hnone j), ?_⟩
    intro u _ j hj
    rw [hmarks]
    exact hw.taken u j hj
  · exact hw.apart.update fun j hj => absurd hj (hnone j)
  · intro p hp j hj
    rw [hmarks]
    rcases List.mem_cons.1 hp with rfl | hp
    · -- the number that is returned now: its creation is over
      rw [hevent j hj]
      exact ⟨hw.taken t i hcreating, (Function.forall_update_iff w.pc fun _ q => q.creating ≠ some i).2
        ⟨hnone i, hw.apart.others hcreating⟩⟩
    · rcases hw.returned p hp j hj with ⟨htaken, hothers⟩
      exact ⟨htaken, (Function.forall_update_iff w.pc fun _ q => q.creating ≠ some j).2
        ⟨hnone j, fun u _ => hothers u⟩⟩

/-- A creation fails, and its i-node is released: nobody else has it. -/
theorem Inodes.drop (hw : Inodes h w) {s : State} {pc : Pc} {i : ℕ}
    (hcreating : (w.pc t).creating = some i) (hpc : pc.creating = none)
    (hmarks : s.freeinodeTs = Function.update w.lib.freeinodeTs i .free)
    (hevent : ∀ j, event w a ≠ some (.returned .inodes j)) :
    Inodes ((w, a) :: h) ⟨s, Function.update w.pc t pc⟩ := by
  have hnone : ∀ j, pc.creating ≠ some j := by
    intro j
    rw [hpc]
    exact (Option.some_ne_none j).symm
  refine ⟨?_, ?_, ?_⟩
  · refine (Function.forall_update_iff w.pc fun _ q => ∀ j, q.creating = some j →
      s.freeinodeTs j = .taken).2 ⟨fun j hj => absurd hj (hnone j), ?_⟩
    intro u hu j hj
    -- the i-node that is released was the creation of `t` only
    have hji : j ≠ i := by
      rintro rfl
      exact hw.apart.others hcreating u hu hj
    rw [hmarks, Function.update_of_ne hji]
    exact hw.taken u j hj
  · exact hw.apart.update fun j hj => absurd hj (hnone j)
  · intro p hp j hj
    rcases List.mem_cons.1 hp with rfl | hp
    · exact absurd hj (hevent j)
    · rcases hw.returned p hp j hj with ⟨htaken, hothers⟩
      -- nor was it returned, since `t` was still creating it
      have hji : j ≠ i := by
        rintro rfl
        exact hothers t hcreating
      rw [hmarks, Function.update_of_ne hji]
      exact ⟨htaken, (Function.forall_update_iff w.pc fun _ q => q.creating ≠ some j).2
        ⟨hnone j, fun u _ => hothers u⟩⟩

theorem Inodes.step (hw : Inodes h w) (hstep : (allocators s₀).step w a w') : Inodes ((w, a) :: h) w' := by
  cases a with
  | call t c =>
      have hcall : perform (.call t c) w = some w' := hstep
      simp only [perform] at hcall
      split at hcall
      · next hidle =>
          cases hcall
          refine hw.same ?_ rfl (by simp [event])
          rw [hidle]
          cases c <;> rfl
      · cases hcall
  | step t =>
      rcases Option.map_eq_some_iff.1
        (show (advance (w.pc t) w.lib).map (w.after t) = some w' from hstep) with ⟨o, hadv, rfl⟩
      have hevent : event w (.step t) = o.event := by
        simp [event, hadv]
      rcases inode_cases hadv with ⟨hpc, hmarks, hquiet⟩ | ⟨i, hfree, hpc, hmarks, hquiet⟩ |
        ⟨i, hcreating, hpc, hmarks, hown⟩ | ⟨i, hcreating, hpc, hmarks, hquiet⟩
      · exact hw.same hpc hmarks (by rw [hevent]; exact hquiet)
      · exact hw.take hfree hpc hmarks (by rw [hevent]; exact hquiet)
      · exact hw.finish hcreating hpc hmarks (by rw [hevent]; exact hown)
      · exact hw.drop hcreating hpc hmarks (by rw [hevent]; exact hquiet)

theorem inodes_of_execution (he : (allocators s₀).Execution h w) : Inodes h w := by
  induction he with
  | @start w hw =>
      rw [show w = World.start s₀ from hw]
      refine ⟨?_, ?_, by simp⟩
      · intro t i hi
        cases hi
      · intro t u i hi
        cases hi
  | next _ hstep ih => exact ih.step hstep

end Law

/-! ## Every run -/

section Runs

variable {s₀ : State} {h : List (World × Label)} {w w' v : World} {a : Label} {t k : ℕ} {o : Outcome}

/-- `add_to_open_file_table` finds its entry free and sets it, or finds none or goes on. -/
theorem takeEntryStep_cases (inumber : ℤ) (offset : ℕ) (appendFlag : ℤ) (j : ℕ) (s : State) :
    (s.freeOpenFileEntries j = .free ∧ takeEntryStep inumber offset appendFlag j s =
      ⟨.idle, (s.markHandle j .taken).setEntry j ⟨inumber, offset, appendFlag⟩,
        some (.returned .handles j)⟩) ∨
    ((takeEntryStep inumber offset appendFlag j s).lib = s ∧
      ∀ k, (takeEntryStep inumber offset appendFlag j s).event ≠ some (.returned .handles k)) := by
  unfold takeEntryStep
  rcases look_cases .handles j s
    ⟨.idle, (s.markHandle j .taken).setEntry j ⟨inumber, offset, appendFlag⟩, some (.returned .handles j)⟩
    (.takeEntry inumber offset appendFlag (j + 1)) .idle with ⟨_, hfree, hEq⟩ | ⟨_, _, hEq⟩ | ⟨_, hEq⟩
  · exact Or.inl ⟨hfree, hEq⟩
  · right
    rw [hEq]
    exact ⟨rfl, by simp⟩
  · right
    rw [hEq]
    exact ⟨rfl, by simp⟩

/-- Only `add_to_open_file_table` sets entries, and only free ones. -/
theorem entries_cases (hadv : advance (w.pc t) w.lib = some o) :
    o.lib.openFileTable = w.lib.openFileTable ∨
    ∃ j e, w.lib.freeOpenFileEntries j = .free ∧
      o.lib.openFileTable = Function.update w.lib.openFileTable j e := by
  have hmoves := moves_of_advance hadv
  generalize w.pc t = pc at hmoves
  cases hmoves with
  | takeEntry _ hfree => exact Or.inr ⟨_, _, hfree, rfl⟩
  -- the i-node functions leave the open file table alone
  | initInode hsame => exact Or.inl hsame.entries
  | returned hsame => exact Or.inl hsame.entries
  | released hsame => exact Or.inl hsame.entries
  | kept hsame => exact Or.inl hsame.entries
  | _ => exact Or.inl rfl

/-- The entry of a handle that is TAKEN changes only when the handle is removed. -/
theorem entry_step {inumber : ℤ} (hstep : (allocators s₀).step w a w')
    (hevent : event w a ≠ some (.released .handles k))
    (hw : w.lib.freeOpenFileEntries k = .taken ∧ (w.lib.openFileTable k).ofInumber = inumber) :
    w'.lib.freeOpenFileEntries k = .taken ∧ (w'.lib.openFileTable k).ofInumber = inumber := by
  have htaken : k ∈ (view .handles w').taken :=
    (view_step .handles hstep).mem_taken (fun hrelease => hevent (event_of_release hrelease)) hw.1
  refine ⟨htaken, ?_⟩
  cases a with
  | call t c =>
      have hcall : perform (.call t c) w = some w' := hstep
      simp only [perform] at hcall
      split at hcall
      · cases hcall
        exact hw.2
      · cases hcall
  | step t =>
      rcases Option.map_eq_some_iff.1
        (show (advance (w.pc t) w.lib).map (w.after t) = some w' from hstep) with ⟨o, hadv, rfl⟩
      change (o.lib.openFileTable k).ofInumber = inumber
      -- an entry is set only where it was FREE
      rcases entries_cases hadv with hsame | ⟨j, e, hfree, hset⟩
      · rw [hsame]
        exact hw.2
      · have hkj : k ≠ j := by
          rintro rfl
          rw [hw.1] at hfree
          cases hfree
        rw [hset, Function.update_of_ne hkj]
        exact hw.2

/-- The step that returns a handle sets its entry. -/
theorem entry_of_returned {inumber appendFlag : ℤ} {offset j : ℕ}
    (hpc : w.pc t = .takeEntry inumber offset appendFlag j)
    (hreturned : event w (.step t) = some (.returned .handles k))
    (hstep : (allocators s₀).step w (.step t) w') :
    w'.lib.freeOpenFileEntries k = .taken ∧ (w'.lib.openFileTable k).ofInumber = inumber := by
  have hadv : advance (w.pc t) w.lib = some (takeEntryStep inumber offset appendFlag j w.lib) := by
    rw [hpc]
    rfl
  have hw' : w.after t (takeEntryStep inumber offset appendFlag j w.lib) = w' := by
    have hperform : (advance (w.pc t) w.lib).map (w.after t) = some w' := hstep
    rw [hadv] at hperform
    exact Option.some.inj hperform
  have hevent : (takeEntryStep inumber offset appendFlag j w.lib).event = some (.returned .handles k) := by
    simpa [event, hadv] using hreturned
  rcases takeEntryStep_cases inumber offset appendFlag j w.lib with ⟨_, hEq⟩ | ⟨_, hnot⟩
  · rw [hEq] at hevent
    cases hevent
    rw [← hw', hEq]
    simp [World.after]
  · exact absurd hevent (hnot k)

/-- An i-node that was returned is in no creation, so it is not returned again. -/
theorem inode_returned_once {i : ℕ} {p : World × Label} (he : (allocators s₀).Execution h w) (hp : p ∈ h)
    (hfirst : event p.1 p.2 = some (.returned .inodes i)) :
    event w a ≠ some (.returned .inodes i) := by
  intro hsecond
  cases a with
  | call t c => cases hsecond
  | step t =>
      have hnone := ((inodes_of_execution he).returned p hp i hfirst).2 t
      rcases event_cases hsecond with ⟨_, _, _, _, hEq⟩ | ⟨_, _, _, _, _, hT, hEq⟩ |
        ⟨nType, j, b, hpc, hEq | hEq⟩ | ⟨_, _, _, hEq⟩
      · cases hEq
      · cases hEq
        exact hT rfl
      · cases hEq
        exact hnone (by rw [hpc]; rfl)
      · cases hEq
      · cases hEq

/-- Blocks and handles are returned by the step that takes their entry. -/
theorem taken_once {T : Table} (hT : T ≠ .inodes) {h₁ h₂ h₃ : List (World × Label)} {b : Label}
    (he : (allocators s₀).Execution (h₁ ++ (w, a) :: (h₂ ++ (v, b) :: h₃)) w')
    (ha : event w a = some (.returned T k)) (hb : event v b = some (.returned T k)) :
    ∃ p ∈ h₂, event p.1 p.2 = some (.released T k) := by
  cases a with
  | call t c => cases ha
  | step t =>
      cases b with
      | call u c => cases hb
      | step u =>
          have hview := view_execution T he
          simp only [List.map_append, List.map_cons, scanLabel_of_returned hT ha,
            scanLabel_of_returned hT hb] at hview
          rcases Scan.release_between hview with ⟨q, hq, hrelease⟩
          rcases List.mem_map.1 hq with ⟨p, hp, rfl⟩
          exact ⟨p, hp, event_of_release hrelease⟩

/-- Each number is handed out to one caller at a time, and each handle keeps its i-node number. -/
theorem exclusively (he : (allocators s₀).Execution h w) : Exclusively h w := by
  constructor
  · rintro h₁ h₂ h₃ v a u b T k rfl ha hb
    by_cases hT : T = .inodes
    · subst hT
      have hbefore := he.split.1
      exact absurd ha (inode_returned_once hbefore (p := (u, b)) (by simp) hb)
    · exact taken_once hT he ha hb
  · rintro h₁ h₂ v t inumber offset appendFlag j k rfl hpc hreturned hkept
    exact he.since (P := fun w => w.lib.freeOpenFileEntries k = .taken ∧
      (w.lib.openFileTable k).ofInumber = inumber) (fun u hstep => entry_of_returned hpc hreturned hstep)
        fun p hp u hstep => entry_step hstep (hkept p hp)

end Runs

/-! ## A handle that is closed and handed out again -/

/-- Thread 2 creates a file's i-node while thread 0 opens handle 0, and thread 1 closes it and opens it
again. -/
def reopened : List Label :=
  [.call 2 (.inodeCreate .file), .step 2, .step 2, .call 0 (.addToOpenFileTable 5 0 0), .step 0, .step 2,
    .call 1 (.removeFromOpenFileTable 0), .step 1, .step 2, .step 2, .call 1 (.addToOpenFileTable 7 0 0),
    .step 2, .step 1]

theorem performAll_reopened :
    (System.performAll (System.record perform) reopened ([], World.start tfsInit.2)).any
      (fun x => x.1.filterMap (fun p => event p.1 p.2) =
        [.returned .handles 0, .returned .inodes 1, .returned .blocks 1, .released .handles 0,
          .returned .handles 0]) = true := by
  decide +kernel

theorem exclusively_reopened : ∃ h w, (allocators tfsInit.2).Execution h w ∧
    h.filterMap (fun p => event p.1 p.2) =
      [.returned .handles 0, .returned .inodes 1, .returned .blocks 1, .released .handles 0,
        .returned .handles 0] ∧ Exclusively h w := by
  rcases System.execution_of_any (M := allocators tfsInit.2) perform (fun _ _ _ hstep => hstep) rfl
      performAll_reopened with ⟨h, w, he, _, hevents⟩
  exact ⟨h, w, he, hevents, exclusively he⟩

end Allocators
end Tfs
end TecnicoFs
