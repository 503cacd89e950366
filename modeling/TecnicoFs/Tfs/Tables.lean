import TecnicoFs.Lib.Scan
import TecnicoFs.Tfs.Allocators

/-!
# Multi-block tables — each table of the allocators is scanned entry by entry

Seen on one of the three tables, every step of the allocators is a step of a scanned table: the start of a
scan, a look at an entry, the end of a scan, a release, or nothing.
-/

namespace TecnicoFs
namespace Tfs
namespace Allocators

open Lib

/-! ## Each table is scanned entry by entry -/

/-- The entry that the thread looks at next, if it scans the table. -/
def Table.position : Table → Pc → Option ℕ
  | .inodes, .takeInode _ k => some k
  | .blocks, .inodeBlock _ _ k => some k
  | .blocks, .takeBlock k => some k
  | .handles, .takeEntry _ _ _ k => some k
  | _, _ => none

theorem Scans.position {T : Table} {k : ℕ} {pc next full : Pc} (h : Scans T k pc next full) :
    T.position pc = some k := by
  cases h <;> rfl

/-- The table and its scans. -/
def view (T : Table) (w : World) : Board ℕ where
  taken := {k | T.marks w.lib k = .taken}
  position t := T.position (w.pc t)

/-- After this step the thread scans the table: `inode_create` calls `data_block_alloc`. -/
def Table.starts : Table → Pc → Bool
  | .blocks, .initInode _ _ => true
  | _, _ => false

/-- What a step outside of a scan is on the table. -/
def quietLabel (T : Table) : Option Event → Scan.Label ℕ
  | some (.released U k) => if U = T then .release k else .other
  | _ => .other

/-- What a step is on the table. -/
def scanLabel (T : Table) (w : World) : Label → Scan.Label ℕ
  | .call t c => if T.position c.entry = none then .other else .start t
  | .step t =>
      match T.position (w.pc t) with
      | some k =>
          if k < T.size then
            if T.marks w.lib k = .free then .take t k else .pass t
          else
            .giveUp t
      | none => if T.starts (w.pc t) then .start t else quietLabel T (event w (.step t))

section Views

variable {T : Table} {w w' : World} {t k : ℕ} {o : Outcome}

theorem view_after (T : Table) (w : World) (t : ℕ) (o : Outcome) :
    view T (w.after t o) =
      ⟨{k | T.marks o.lib k = .taken}, Function.update (view T w).position t (T.position o.pc)⟩ := by
  unfold view World.after
  congr 1
  exact Function.comp_update T.position w.pc t o.pc

/-- The table and the scans stay. -/
theorem view_same (hmarks : T.marks o.lib = T.marks w.lib) (hpos : T.position o.pc = T.position (w.pc t)) :
    view T (w.after t o) = view T w := by
  rw [view_after, hmarks, hpos]
  unfold view
  congr 1
  exact Function.update_eq_self t _

/-- A look at the table that is scanned. -/
theorem step_look {found : Outcome} {next full : Pc} (hscan : T.position (w.pc t) = some k)
    (hfound : T.marks found.lib = Function.update (T.marks w.lib) k .taken)
    (hfoundPc : T.position found.pc = none) (hnext : T.position next = some (k + 1))
    (hfull : T.position full = none) :
    Scan.Step T.size (view T w) (scanLabel T w (.step t))
      (view T (w.after t (look T k w.lib found next full))) := by
  have hview : (view T w).position t = some k := hscan
  simp only [scanLabel, hscan]
  unfold look
  -- the three ends of a look are the three steps of a scan
  by_cases hlt : k < T.size
  · rw [if_pos hlt, if_pos hlt]
    by_cases hfree : T.marks w.lib k = .free
    · rw [if_pos hfree, if_pos hfree, view_after, hfound, hfoundPc]
      have hnew : k ∉ (view T w).taken := by
        intro htaken
        rw [show T.marks w.lib k = .taken from htaken] at hfree
        cases hfree
      have htaken : {j | Function.update (T.marks w.lib) k .taken j = .taken} = insert k (view T w).taken := by
        ext j
        by_cases hj : j = k
        · simp [hj]
        · simp [hj, view]
      rw [htaken]
      exact .take hview hlt hnew
    · rw [if_neg hfree, if_neg hfree, view_after, hnext]
      exact .pass hview hlt (AllocationState.ne_free.1 hfree)
  · rw [if_neg hlt, if_neg hlt, view_after, hfull]
    exact .giveUp hview (Nat.not_lt.1 hlt)

/-- A released entry. -/
theorem step_release (hmarks : T.marks o.lib = Function.update (T.marks w.lib) k .free)
    (hpos : T.position o.pc = T.position (w.pc t)) :
    Scan.Step T.size (view T w) (.release k) (view T (w.after t o)) := by
  have htaken : {j | T.marks o.lib j = .taken} = (view T w).taken \ {k} := by
    rw [hmarks]
    ext j
    by_cases hj : j = k
    · simp [hj]
    · simp [hj, view]
  have hposition : Function.update (view T w).position t (T.position o.pc) = (view T w).position := by
    rw [hpos]
    exact Function.update_eq_self t _
  rw [view_after, htaken, hposition]
  exact .release

end Views

/-! ## The steps on one table -/

section Refinement

variable {T : Table} {w : World} {t : ℕ}

/-- Outside of a scan a step leaves the table, or releases an entry. -/
theorem step_quiet {o : Outcome} (hadv : advance (w.pc t) w.lib = some o)
    (hscan : T.position (w.pc t) = none) (hstarts : T.starts (w.pc t) = false)
    (hpos : T.position o.pc = none)
    (hmarks : (∃ k, o.event = some (.released T k) ∧
        T.marks o.lib = Function.update (T.marks w.lib) k .free) ∨
      (quietLabel T o.event = .other ∧ T.marks o.lib = T.marks w.lib)) :
    Scan.Step T.size (view T w) (scanLabel T w (.step t)) (view T (w.after t o)) := by
  have hlabel : scanLabel T w (.step t) = quietLabel T o.event := by
    simp [scanLabel, hscan, hstarts, event, hadv]
  rw [hlabel]
  rcases hmarks with ⟨k, hreleased, hfree⟩ | ⟨hother, hsame⟩
  · rw [hreleased, quietLabel, if_pos rfl]
    exact step_release hfree (hpos.trans hscan.symm)
  · rw [hother, view_same hsame (hpos.trans hscan.symm)]
    exact .other

/-- A look at another table. -/
theorem step_look_of_ne {U : Table} {k : ℕ} {found : Outcome} {next full : Pc}
    (hadv : advance (w.pc t) w.lib = some (look U k w.lib found next full))
    (hscan : T.position (w.pc t) = none) (hstarts : T.starts (w.pc t) = false)
    (hfound : T.marks found.lib = T.marks w.lib) (hfoundPc : T.position found.pc = none)
    (hfoundEvent : quietLabel T found.event = .other) (hnext : T.position next = none)
    (hfull : T.position full = none) :
    Scan.Step T.size (view T w) (scanLabel T w (.step t))
      (view T (w.after t (look U k w.lib found next full))) := by
  refine step_quiet hadv hscan hstarts ?_ (Or.inr ?_)
  · unfold look
    split
    · split
      · exact hfoundPc
      · exact hnext
    · exact hfull
  · unfold look
    split
    · split
      · exact ⟨hfoundEvent, hfound⟩
      · exact ⟨rfl, rfl⟩
    · exact ⟨rfl, rfl⟩

/-- The start of a scan. -/
theorem step_start {o : Outcome} (hscan : T.position (w.pc t) = none) (hstarts : T.starts (w.pc t) = true)
    (hpos : T.position o.pc = some 0) (hsame : T.marks o.lib = T.marks w.lib) :
    Scan.Step T.size (view T w) (scanLabel T w (.step t)) (view T (w.after t o)) := by
  have hlabel : scanLabel T w (.step t) = .start t := by
    simp [scanLabel, hscan, hstarts]
  rw [hlabel, view_after, hpos, hsame]
  exact .start hscan

/-- A call begins with a scan of its table, if it scans one. -/
theorem call_step (T : Table) (c : Call) (hidle : w.pc t = .idle) :
    Scan.Step T.size (view T w) (scanLabel T w (.call t c)) (view T (w.goto t c.entry)) := by
  have hscan : (view T w).position t = none := by
    change T.position (w.pc t) = none
    rw [hidle]
    cases T <;> rfl
  have hview : view T (w.goto t c.entry) =
      ⟨(view T w).taken, Function.update (view T w).position t (T.position c.entry)⟩ :=
    view_after T w t ⟨c.entry, w.lib, none⟩
  have hentry : T.position c.entry = none ∨ T.position c.entry = some 0 := by
    cases c <;> cases T <;> simp [Call.entry, Table.position]
  -- a call that scans another table is nothing to this one
  rcases hentry with hnone | hzero
  · rw [hview, hnone, ← hscan, Function.update_eq_self]
    simp only [scanLabel, hnone, if_true]
    exact .other
  · rw [hview, hzero]
    simp only [scanLabel, hzero, reduceCtorEq, if_false]
    exact .start hscan

theorem step_takeInode {nType : InodeType} {k : ℕ} (T : Table) (hpc : w.pc t = .takeInode nType k) :
    Scan.Step T.size (view T w) (scanLabel T w (.step t))
      (view T (w.after t (takeInodeStep nType k w.lib))) := by
  have hadv : advance (w.pc t) w.lib = some (takeInodeStep nType k w.lib) := by rw [hpc]; rfl
  cases T with
  | inodes => exact step_look (by rw [hpc]; rfl) rfl rfl rfl rfl
  | blocks => exact step_look_of_ne hadv (by rw [hpc]; rfl) (by rw [hpc]; rfl) rfl rfl rfl rfl rfl
  | handles => exact step_look_of_ne hadv (by rw [hpc]; rfl) (by rw [hpc]; rfl) rfl rfl rfl rfl rfl

theorem step_initInode {nType : InodeType} {i : ℕ} (T : Table) (hpc : w.pc t = .initInode nType i) :
    Scan.Step T.size (view T w) (scanLabel T w (.step t))
      (view T (w.after t (initInodeStep nType i w.lib))) := by
  have hadv : advance (w.pc t) w.lib = some (initInodeStep nType i w.lib) := by rw [hpc]; rfl
  rcases initInodeStep_cases nType i w.lib with ⟨s', hEq, hsame⟩
  rw [hEq] at hadv ⊢
  cases T with
  | inodes =>
      exact step_quiet hadv (by rw [hpc]; rfl) (by rw [hpc]; rfl) rfl (Or.inr ⟨rfl, hsame.marks .inodes⟩)
  | blocks => exact step_start (by rw [hpc]; rfl) (by rw [hpc]; rfl) rfl (hsame.marks .blocks)
  | handles =>
      exact step_quiet hadv (by rw [hpc]; rfl) (by rw [hpc]; rfl) rfl (Or.inr ⟨rfl, hsame.marks .handles⟩)

theorem step_inodeBlock {nType : InodeType} {i k : ℕ} (T : Table) (hpc : w.pc t = .inodeBlock nType i k) :
    Scan.Step T.size (view T w) (scanLabel T w (.step t))
      (view T (w.after t (inodeBlockStep nType i k w.lib))) := by
  have hadv : advance (w.pc t) w.lib = some (inodeBlockStep nType i k w.lib) := by rw [hpc]; rfl
  cases T with
  | inodes => exact step_look_of_ne hadv (by rw [hpc]; rfl) (by rw [hpc]; rfl) rfl rfl rfl rfl rfl
  | blocks => exact step_look (by rw [hpc]; rfl) rfl rfl rfl rfl
  | handles => exact step_look_of_ne hadv (by rw [hpc]; rfl) (by rw [hpc]; rfl) rfl rfl rfl rfl rfl

theorem step_fillInode {nType : InodeType} {i : ℕ} {b : ℤ} (T : Table)
    (hpc : w.pc t = .fillInode nType i b) :
    Scan.Step T.size (view T w) (scanLabel T w (.step t))
      (view T (w.after t (fillInodeStep nType i b w.lib))) := by
  have hadv : advance (w.pc t) w.lib = some (fillInodeStep nType i b w.lib) := by rw [hpc]; rfl
  have hscan : T.position (w.pc t) = none := by rw [hpc]; cases T <;> rfl
  have hstarts : T.starts (w.pc t) = false := by rw [hpc]; cases T <;> rfl
  rcases fillInodeStep_cases nType i b w.lib with ⟨s', hsame, hEq | hEq | hEq⟩
  · rw [hEq] at hadv ⊢
    exact step_quiet hadv hscan hstarts (by cases T <;> rfl) (Or.inr ⟨rfl, hsame.marks T⟩)
  · rw [hEq] at hadv ⊢
    refine step_quiet hadv hscan hstarts (by cases T <;> rfl) ?_
    -- the release of an i-node is a step of the i-node table only
    cases T with
    | inodes =>
        exact Or.inl ⟨i, rfl, congrArg (fun marks : ℕ → AllocationState => Function.update marks i .free)
          (hsame.marks .inodes)⟩
    | blocks => exact Or.inr ⟨rfl, hsame.marks .blocks⟩
    | handles => exact Or.inr ⟨rfl, hsame.marks .handles⟩
  · rw [hEq] at hadv ⊢
    exact step_quiet hadv hscan hstarts (by cases T <;> rfl) (Or.inr ⟨rfl, hsame.marks T⟩)

theorem step_takeBlock {k : ℕ} (T : Table) (hpc : w.pc t = .takeBlock k) :
    Scan.Step T.size (view T w) (scanLabel T w (.step t)) (view T (w.after t (takeBlockStep k w.lib))) := by
  have hadv : advance (w.pc t) w.lib = some (takeBlockStep k w.lib) := by rw [hpc]; rfl
  cases T with
  | inodes => exact step_look_of_ne hadv (by rw [hpc]; rfl) (by rw [hpc]; rfl) rfl rfl rfl rfl rfl
  | blocks => exact step_look (by rw [hpc]; rfl) rfl rfl rfl rfl
  | handles => exact step_look_of_ne hadv (by rw [hpc]; rfl) (by rw [hpc]; rfl) rfl rfl rfl rfl rfl

theorem step_freeBlock {b : ℤ} (T : Table) (hpc : w.pc t = .freeBlock b) :
    Scan.Step T.size (view T w) (scanLabel T w (.step t)) (view T (w.after t (freeBlockStep b w.lib))) := by
  have hadv : advance (w.pc t) w.lib = some (freeBlockStep b w.lib) := by rw [hpc]; rfl
  have hscan : T.position (w.pc t) = none := by rw [hpc]; cases T <;> rfl
  have hstarts : T.starts (w.pc t) = false := by rw [hpc]; cases T <;> rfl
  rcases freeBlockStep_cases b w.lib with ⟨k, _, hEq⟩ | hEq
  · rw [hEq] at hadv ⊢
    refine step_quiet hadv hscan hstarts (by cases T <;> rfl) ?_
    cases T with
    | inodes => exact Or.inr ⟨rfl, rfl⟩
    | blocks => exact Or.inl ⟨k, rfl, rfl⟩
    | handles => exact Or.inr ⟨rfl, rfl⟩
  · rw [hEq] at hadv ⊢
    exact step_quiet hadv hscan hstarts (by cases T <;> rfl) (Or.inr ⟨rfl, rfl⟩)

theorem step_takeEntry {inumber appendFlag : ℤ} {offset k : ℕ} (T : Table)
    (hpc : w.pc t = .takeEntry inumber offset appendFlag k) :
    Scan.Step T.size (view T w) (scanLabel T w (.step t))
      (view T (w.after t (takeEntryStep inumber offset appendFlag k w.lib))) := by
  have hadv : advance (w.pc t) w.lib = some (takeEntryStep inumber offset appendFlag k w.lib) := by
    rw [hpc]; rfl
  cases T with
  | inodes => exact step_look_of_ne hadv (by rw [hpc]; rfl) (by rw [hpc]; rfl) rfl rfl rfl rfl rfl
  | blocks => exact step_look_of_ne hadv (by rw [hpc]; rfl) (by rw [hpc]; rfl) rfl rfl rfl rfl rfl
  | handles => exact step_look (by rw [hpc]; rfl) rfl rfl rfl rfl

theorem step_freeEntry {fhandle : ℤ} (T : Table) (hpc : w.pc t = .freeEntry fhandle) :
    Scan.Step T.size (view T w) (scanLabel T w (.step t))
      (view T (w.after t (freeEntryStep fhandle w.lib))) := by
  have hadv : advance (w.pc t) w.lib = some (freeEntryStep fhandle w.lib) := by rw [hpc]; rfl
  have hscan : T.position (w.pc t) = none := by rw [hpc]; cases T <;> rfl
  have hstarts : T.starts (w.pc t) = false := by rw [hpc]; cases T <;> rfl
  rcases freeEntryStep_cases fhandle w.lib with ⟨k, _, _, hEq⟩ | hEq
  · rw [hEq] at hadv ⊢
    refine step_quiet hadv hscan hstarts (by cases T <;> rfl) ?_
    cases T with
    | inodes => exact Or.inr ⟨rfl, rfl⟩
    | blocks => exact Or.inr ⟨rfl, rfl⟩
    | handles => exact Or.inl ⟨k, rfl, rfl⟩
  · rw [hEq] at hadv ⊢
    exact step_quiet hadv hscan hstarts (by cases T <;> rfl) (Or.inr ⟨rfl, rfl⟩)

/-- What a step does to a table is a step of a scanned table. -/
theorem view_step {s₀ : State} (T : Table) {w : World} {a : Label} {w' : World}
    (h : (allocators s₀).step w a w') :
    Scan.Step T.size (view T w) (scanLabel T w a) (view T w') := by
  cases a with
  | call t c =>
      have hcall : perform (.call t c) w = some w' := h
      simp only [perform] at hcall
      split at hcall
      · next hidle =>
          cases hcall
          exact call_step T c hidle
      · cases hcall
  | step t =>
      -- one lemma for each place where a thread can be
      rcases Option.map_eq_some_iff.1 (show (advance (w.pc t) w.lib).map (w.after t) = some w' from h) with
        ⟨o, hadv, rfl⟩
      cases hpc : w.pc t with
      | idle =>
          rw [hpc] at hadv
          cases hadv
      | takeInode nType k =>
          rw [hpc] at hadv
          cases hadv
          exact step_takeInode T hpc
      | initInode nType i =>
          rw [hpc] at hadv
          cases hadv
          exact step_initInode T hpc
      | inodeBlock nType i k =>
          rw [hpc] at hadv
          cases hadv
          exact step_inodeBlock T hpc
      | fillInode nType i b =>
          rw [hpc] at hadv
          cases hadv
          exact step_fillInode T hpc
      | takeBlock k =>
          rw [hpc] at hadv
          cases hadv
          exact step_takeBlock T hpc
      | freeBlock b =>
          rw [hpc] at hadv
          cases hadv
          exact step_freeBlock T hpc
      | takeEntry inumber offset appendFlag k =>
          rw [hpc] at hadv
          cases hadv
          exact step_takeEntry T hpc
      | freeEntry fhandle =>
          rw [hpc] at hadv
          cases hadv
          exact step_freeEntry T hpc

/-- A run of the allocators is, on each table, a run of a scanned table. -/
theorem view_execution {s₀ : State} (T : Table) {h : List (World × Label)} {w : World}
    (he : (allocators s₀).Execution h w) :
    (Scan.scanners T.size).Execution (h.map fun p => (view T p.1, scanLabel T p.1 p.2)) (view T w) := by
  refine he.map ?_ fun _ _ _ hstep => view_step T hstep
  intro w hw t
  rw [show w = World.start s₀ from hw]
  cases T <;> rfl

end Refinement

/-! ## What a step makes known -/

section Events

variable {w : World} {t : ℕ} {e : Event}

/-- A scan ends with -1 or with its number, `inode_create` ends with its i-node or releases it, or a call
releases an entry. -/
theorem event_cases (h : event w (.step t) = some e) :
    (∃ T k, T.position (w.pc t) = some k ∧ T.size ≤ k ∧ e = .exhausted T) ∨
    (∃ T k, T.position (w.pc t) = some k ∧ k < T.size ∧ T.marks w.lib k = .free ∧ T ≠ .inodes ∧
      e = .returned T k) ∨
    (∃ nType i b, w.pc t = .fillInode nType i b ∧ (e = .returned .inodes i ∨ e = .released .inodes i)) ∨
    (∃ T k, T ≠ .inodes ∧ e = .released T k) := by
  rcases Option.bind_eq_some_iff.1 h with ⟨o, hadv, hevent⟩
  have hmoves := moves_of_advance hadv
  generalize w.pc t = pc at hmoves ⊢
  cases hmoves with
  -- the steps that make nothing known
  | pass _ => cases hevent
  | takeInode _ => cases hevent
  | initInode _ => cases hevent
  | kept _ => cases hevent
  | refused _ => cases hevent
  -- the end of a scan
  | giveUp hscan hend =>
      cases hevent
      exact Or.inl ⟨_, _, hscan.position, hend, rfl⟩
  | inodeBlock hlt hfree =>
      cases hevent
      exact Or.inr (Or.inl ⟨.blocks, _, rfl, hlt, hfree, by decide, rfl⟩)
  | takeBlock hlt hfree =>
      cases hevent
      exact Or.inr (Or.inl ⟨.blocks, _, rfl, hlt, hfree, by decide, rfl⟩)
  | takeEntry hlt hfree =>
      cases hevent
      exact Or.inr (Or.inl ⟨.handles, _, rfl, hlt, hfree, by decide, rfl⟩)
  -- the end of `inode_create`
  | returned _ =>
      cases hevent
      exact Or.inr (Or.inr (Or.inl ⟨_, _, _, rfl, Or.inl rfl⟩))
  | released _ =>
      cases hevent
      exact Or.inr (Or.inr (Or.inl ⟨_, _, _, rfl, Or.inr rfl⟩))
  -- the calls that release an entry
  | freeBlock =>
      cases hevent
      exact Or.inr (Or.inr (Or.inr ⟨.blocks, _, by decide, rfl⟩))
  | freeEntry =>
      cases hevent
      exact Or.inr (Or.inr (Or.inr ⟨.handles, _, by decide, rfl⟩))

/-- On the table, a release is a step that makes the release known. -/
theorem event_of_release {T : Table} {a : Label} {k : ℕ} (h : scanLabel T w a = .release k) :
    event w a = some (.released T k) := by
  cases a with
  | call t c =>
      simp only [scanLabel] at h
      split at h
      · cases h
      · cases h
  | step t =>
      simp only [scanLabel] at h
      split at h
      · split_ifs at h
      · split at h
        · cases h
        · unfold quietLabel at h
          split at h
          · next U j hevent =>
              split at h
              · next hU =>
                  cases h
                  rw [hevent, hU]
              · cases h
          · cases h

/-- On the table, a scan that returns -1 gives up. -/
theorem scanLabel_of_exhausted {T : Table} (h : event w (.step t) = some (.exhausted T)) :
    scanLabel T w (.step t) = .giveUp t := by
  rcases event_cases h with ⟨U, k, hscan, hend, hEq⟩ | ⟨_, _, _, _, _, _, hEq⟩ | ⟨_, _, _, _, hEq | hEq⟩ |
    ⟨_, _, _, hEq⟩
  · cases hEq
    simp only [scanLabel, hscan, if_neg (Nat.not_lt.2 hend)]
  · cases hEq
  · cases hEq
  · cases hEq
  · cases hEq

/-- On the table, a scan that returns a number takes it. -/
theorem scanLabel_of_returned {T : Table} {k : ℕ} (hT : T ≠ .inodes)
    (h : event w (.step t) = some (.returned T k)) : scanLabel T w (.step t) = .take t k := by
  rcases event_cases h with ⟨_, _, _, _, hEq⟩ | ⟨U, j, hscan, hlt, hfree, _, hEq⟩ | ⟨_, _, _, _, hEq | hEq⟩ |
    ⟨_, _, _, hEq⟩
  · cases hEq
  · cases hEq
    simp only [scanLabel, hscan, if_pos hlt, if_pos hfree]
  · cases hEq
    exact absurd rfl hT
  · cases hEq
  · cases hEq

end Events

end Allocators
end Tfs
end TecnicoFs
