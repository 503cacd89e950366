import Mathlib.Data.Finset.Basic

/-!
# Locks — the lock operations of one thread

A thread locks and unlocks through pointers, which are `Option`s here, `none` being the null pointer.
`heldAfter` runs the operations on the set of locks that the thread holds, and stops at a misuse: an
operation on the null pointer, a lock that is held already, an unlock of a lock that is not held.
-/

namespace TecnicoFs
namespace Lib

universe u

variable {α : Type u}

inductive LockOp (α : Type u)
  | lock (l : Option α)
  | unlock (l : Option α)
  deriving DecidableEq

variable [DecidableEq α]

/-- The locks held after an operation; `none` if the operation is a misuse. -/
def LockOp.next : LockOp α → Finset α → Option (Finset α)
  | .lock none, _ => none
  | .lock (some l), held => if l ∈ held then none else some (insert l held)
  | .unlock none, _ => none
  | .unlock (some l), held => if l ∈ held then some (held.erase l) else none

/-- The locks held after a list of operations; `none` if one of them is a misuse. -/
def heldAfter : List (LockOp α) → Finset α → Option (Finset α)
  | [], held => some held
  | op :: ops, held => (op.next held).bind (heldAfter ops)

/-- The operations are no misuse, and afterwards the thread holds what it held before. -/
def KeepsHeld (ops : List (LockOp α)) (held : Finset α) : Prop :=
  heldAfter ops held = some held

/-- The operations of a whole call, which starts without locks. -/
def Disciplined (ops : List (LockOp α)) : Prop :=
  KeepsHeld ops ∅

instance (ops : List (LockOp α)) : Decidable (Disciplined ops) :=
  inferInstanceAs (Decidable (heldAfter ops ∅ = some ∅))

section Rules

variable {ops ops₁ ops₂ : List (LockOp α)} {held : Finset α} {l : α}

theorem heldAfter_append (ops₁ ops₂ : List (LockOp α)) (held : Finset α) :
    heldAfter (ops₁ ++ ops₂) held = (heldAfter ops₁ held).bind (heldAfter ops₂) := by
  induction ops₁ generalizing held with
  | nil => rfl
  | cons op ops₁ ih =>
      rw [List.cons_append, heldAfter, heldAfter, Option.bind_assoc]
      congr 1
      funext next
      exact ih next

theorem heldAfter_lock (hl : l ∉ held) :
    heldAfter (.lock (some l) :: ops) held = heldAfter ops (insert l held) := by
  simp [heldAfter, LockOp.next, hl]

/-- A lock that the thread holds is not locked again. -/
theorem heldAfter_relock (hl : l ∈ held) : heldAfter (.lock (some l) :: ops) held = none := by
  simp [heldAfter, LockOp.next, hl]

theorem KeepsHeld.nil (held : Finset α) : KeepsHeld [] held :=
  rfl

/-- Operations that keep the locks do not matter for what comes after them. -/
theorem KeepsHeld.heldAfter_append (h : KeepsHeld ops₁ held) (ops₂ : List (LockOp α)) :
    heldAfter (ops₁ ++ ops₂) held = heldAfter ops₂ held := by
  rw [Lib.heldAfter_append, show heldAfter ops₁ held = some held from h, Option.bind_some]

theorem KeepsHeld.append (h₁ : KeepsHeld ops₁ held) (h₂ : KeepsHeld ops₂ held) :
    KeepsHeld (ops₁ ++ ops₂) held :=
  (h₁.heldAfter_append ops₂).trans h₂

theorem KeepsHeld.disciplined_append_iff (h : KeepsHeld ops₁ ∅) : Disciplined (ops₁ ++ ops₂) ↔
    Disciplined ops₂ := by
  unfold Disciplined KeepsHeld
  rw [h.heldAfter_append]

/-- A critical section. -/
theorem KeepsHeld.bracket (hl : l ∉ held) (h : KeepsHeld ops (insert l held)) :
    KeepsHeld (.lock (some l) :: (ops ++ [.unlock (some l)])) held := by
  have hrelease : heldAfter [.unlock (some l)] (insert l held) = some held := by
    simp [heldAfter, LockOp.next, hl]
  calc heldAfter (.lock (some l) :: (ops ++ [.unlock (some l)])) held
      = heldAfter (ops ++ [.unlock (some l)]) (insert l held) := heldAfter_lock hl
    _ = heldAfter [.unlock (some l)] (insert l held) := h.heldAfter_append _
    _ = some held := hrelease

/-- The lock is taken and released at once, any number of times. -/
theorem KeepsHeld.pairs (hl : l ∉ held) (n : ℕ) :
    KeepsHeld (List.replicate n [.lock (some l), .unlock (some l)]).flatten held := by
  induction n with
  | zero => exact KeepsHeld.nil held
  | succ n ih =>
      rw [List.replicate_succ, List.flatten_cons]
      exact (KeepsHeld.bracket hl (KeepsHeld.nil _)).append ih

end Rules

end Lib
end TecnicoFs
