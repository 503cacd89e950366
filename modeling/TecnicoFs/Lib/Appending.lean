import Mathlib

/-!
# Appending — positions that are chosen before they are used

Parties append to one log, each in two steps: it notes the size of the log as its position, and later it
stores its bytes at that position.  The size grows by all that is stored exactly when no party stores bytes
between the two steps of another one that does.

A list of steps is read from its end: its head is the latest step.
-/

namespace TecnicoFs
namespace Lib

universe u

inductive AppendStep (ι : Type u)
  | refresh (i : ι)
  | store (i : ι)
  deriving DecidableEq

variable {ι : Type u} (len : ι → ℕ)

/-! ## Steps -/

/-- The parties that stored, first to last. -/
def stores : List (AppendStep ι) → List ι
  | [] => []
  | .refresh _ :: as => stores as
  | .store i :: as => stores as ++ [i]

theorem mem_stores {i : ι} {as : List (AppendStep ι)} : i ∈ stores as ↔ .store i ∈ as := by
  induction as with
  | nil => simp [stores]
  | cons a as ih =>
      cases a with
      | refresh j => simp [stores, ih]
      | store j => simp [stores, ih, or_comm]

/-- Every store comes after a refresh of the same party. -/
def Refreshed : List (AppendStep ι) → Prop
  | [] => True
  | .refresh _ :: as => Refreshed as
  | .store i :: as => .refresh i ∈ as ∧ Refreshed as

/-- Since the refresh of party `i`, no bytes were stored. -/
def Fresh (i : ι) : List (AppendStep ι) → Prop
  | [] => False
  | .refresh j :: as => j = i ∨ Fresh i as
  | .store j :: as => len j = 0 ∧ Fresh i as

/-- Between the two steps of a party that stores bytes, no other party stores bytes. -/
def Unmixed : List (AppendStep ι) → Prop
  | [] => True
  | .refresh _ :: as => Unmixed as
  | .store i :: as => (len i = 0 ∨ Fresh len i as) ∧ Unmixed as

/-! ## The log -/

/-- The size of the log, and the position each party noted. -/
structure Log (ι : Type u) where
  size : ℕ
  position : ι → ℕ

variable [DecidableEq ι]

namespace Log

def step : AppendStep ι → Log ι → Log ι
  | .refresh i, l => { l with position := Function.update l.position i l.size }
  | .store i, l => { l with size := max l.size (l.position i + len i) }

/-- The log after some steps. -/
def after (l : Log ι) : List (AppendStep ι) → Log ι
  | [] => l
  | a :: as => (l.after as).step len a

end Log

/-- Every store of bytes is at the end of the log. -/
def AtEnd (l : Log ι) : List (AppendStep ι) → Prop
  | [] => True
  | .refresh _ :: as => AtEnd l as
  | .store i :: as => (len i = 0 ∨ (l.after len as).position i = (l.after len as).size) ∧ AtEnd l as

/-! ## Rules -/

section Rules

variable {len} {l : Log ι} {i : ι}

/-- A position that was noted is not past the end. -/
theorem Log.position_le (len : ι → ℕ) (l : Log ι) {as : List (AppendStep ι)} (hmem : .refresh i ∈ as) :
    (l.after len as).position i ≤ (l.after len as).size := by
  induction as with
  | nil => simp at hmem
  | cons a as ih =>
      cases a with
      | refresh j =>
          by_cases hij : i = j
          · subst hij
            simp [Log.after, Log.step]
          · have hrest : .refresh i ∈ as := by simpa [hij] using hmem
            simpa [Log.after, Log.step, hij] using ih hrest
      | store j =>
          have hrest : .refresh i ∈ as := by simpa using hmem
          exact Nat.le_trans (ih hrest) (Nat.le_max_left _ _)

/-- The log grows by at most what is stored. -/
theorem Log.size_le (len : ι → ℕ) (l : Log ι) {as : List (AppendStep ι)} (hr : Refreshed as) :
    (l.after len as).size ≤ l.size + ((stores as).map len).sum := by
  induction as with
  | nil => simp [Log.after, stores]
  | cons a as ih =>
      cases a with
      | refresh j => exact ih hr
      | store j =>
          have hpos := l.position_le len hr.1
          have hprev := ih hr.2
          simp only [Log.after, Log.step, stores, List.map_append, List.sum_append, List.map_cons, List.map_nil,
            List.sum_singleton]
          omega

/-- It grows by all of it iff every store of bytes is at the end. -/
theorem Log.size_eq_iff (l : Log ι) {as : List (AppendStep ι)} (hr : Refreshed as) :
    (l.after len as).size = l.size + ((stores as).map len).sum ↔ AtEnd len l as := by
  induction as with
  | nil => simp [Log.after, stores, AtEnd]
  | cons a as ih =>
      cases a with
      | refresh j => exact ih hr
      | store j =>
          have hpos := l.position_le len hr.1
          have hbound := l.size_le len hr.2
          have hprev := ih hr.2
          simp only [Log.after, Log.step, stores, List.map_append, List.sum_append, List.map_cons, List.map_nil,
            List.sum_singleton, AtEnd, ← hprev]
          omega

/-- As long as all bytes are stored at the end, a position is the end iff nothing was stored since. -/
theorem AtEnd.fresh_iff {as : List (AppendStep ι)} (hr : Refreshed as) (he : AtEnd len l as)
    (hmem : .refresh i ∈ as) :
    Fresh len i as ↔ (l.after len as).position i = (l.after len as).size := by
  induction as with
  | nil => simp at hmem
  | cons a as ih =>
      cases a with
      | refresh j =>
          by_cases hij : i = j
          · subst hij
            simp [Fresh, Log.after, Log.step]
          · have hrest : .refresh i ∈ as := by simpa [hij] using hmem
            have hji : ¬ j = i := fun h => hij h.symm
            simpa [Fresh, Log.after, Log.step, hij, hji] using ih hr he hrest
      | store j =>
          have hrest : .refresh i ∈ as := by simpa using hmem
          have hle := l.position_le len hrest
          have hpos := l.position_le len hr.1
          have hprev := ih hr.2 he.2 hrest
          simp only [Fresh, Log.after, Log.step, hprev]
          -- a store of bytes at the end moves the end
          rcases he.1 with hzero | hend
          · omega
          · omega

/-- All bytes are stored at the end iff the parties that store bytes do not mix. -/
theorem atEnd_iff_unmixed {as : List (AppendStep ι)} (hr : Refreshed as) : AtEnd len l as ↔ Unmixed len as := by
  induction as with
  | nil => exact Iff.rfl
  | cons a as ih =>
      cases a with
      | refresh j => exact ih hr
      | store j =>
          constructor
          · rintro ⟨hj, hrest⟩
            exact ⟨hj.imp id (hrest.fresh_iff hr.2 hr.1).2, (ih hr.2).1 hrest⟩
          · rintro ⟨hj, hrest⟩
            have hend := (ih hr.2).2 hrest
            exact ⟨hj.imp id (hend.fresh_iff hr.2 hr.1).1, hend⟩

end Rules

end Lib
end TecnicoFs
