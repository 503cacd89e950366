import Mathlib.Order.BooleanAlgebra.Set
import TecnicoFs.Lib.Code

/-!
# Guarded — programs that lock and unlock

A `Guarded κ σ ρ` is a program over a shared memory `σ` that also locks and unlocks the locks `κ`, through
pointers that are `Option`s, `none` being the null pointer.  A `Code` is such a program without locks.

`Guarded.Obeys` says what a program does while others run between its statements: it keeps an invariant of
the memory with each statement, it locks upwards in the rank of the locks, it unlocks what it holds, and
its end meets a postcondition on the result and on the locks that it still holds.
-/

namespace TecnicoFs
namespace Lib

universe u v

/-! ## Programs -/

/-- A program, statement by statement. -/
inductive Guarded (κ : Type v) (σ : Type u) (ρ : Type)
  | ret (r : ρ)
  | undefined
  | step (effect : σ → σ) (next : σ → Guarded κ σ ρ)
  | lock (l : Option κ) (next : Guarded κ σ ρ)
  | unlock (l : Option κ) (next : Guarded κ σ ρ)

namespace Guarded

variable {κ : Type v} {σ : Type u} {ρ θ : Type}

/-- The program of one party alone, for which the locks do nothing. -/
def run : Guarded κ σ ρ → σ → Option (ρ × σ)
  | ret r, s => some (r, s)
  | undefined, _ => none
  | step effect next, s => (next s).run (effect s)
  | lock _ next, s => next.run s
  | unlock _ next, s => next.run s

def bind : Guarded κ σ ρ → (ρ → Guarded κ σ θ) → Guarded κ σ θ
  | ret r, f => f r
  | undefined, _ => undefined
  | step effect next, f => step effect fun s => (next s).bind f
  | lock l next, f => lock l (next.bind f)
  | unlock l next, f => unlock l (next.bind f)

instance : Monad (Guarded κ σ) where
  pure := ret
  bind := bind

/-- A program without locks. -/
def plain : Code σ ρ → Guarded κ σ ρ
  | .ret r => ret r
  | .undefined => undefined
  | .step effect next => step effect fun s => plain (next s)

def acquire (l : Option κ) : Guarded κ σ Unit :=
  lock l (ret ())

def release (l : Option κ) : Guarded κ σ Unit :=
  unlock l (ret ())

/-- Look at `n` entries from `i` on, each under the lock `l`, and take the first one that passes `test`. -/
def scan (l : κ) (test : ℕ → Code σ Bool) (take : ℕ → Code σ Unit) : ℕ → ℕ → Guarded κ σ (Option ℕ)
  | _, 0 => pure none
  | i, n + 1 => do
      acquire (some l)
      let b ← plain (test i)
      if b then do
        plain (take i)
        release (some l)
        pure (some i)
      else do
        release (some l)
        scan l test take (i + 1) n

/-! ## Running -/

section Run

variable {s : σ} {r : ρ} {c : Guarded κ σ ρ} {f : ρ → Guarded κ σ θ} {l : Option κ}

@[simp] theorem run_pure : (pure r : Guarded κ σ ρ).run s = some (r, s) :=
  rfl

@[simp] theorem run_undefined : (undefined : Guarded κ σ ρ).run s = none :=
  rfl

@[simp] theorem run_acquire : (acquire l : Guarded κ σ Unit).run s = some ((), s) :=
  rfl

@[simp] theorem run_release : (release l : Guarded κ σ Unit).run s = some ((), s) :=
  rfl

@[simp] theorem run_plain {c : Code σ ρ} : (plain c : Guarded κ σ ρ).run s = c.run s := by
  induction c generalizing s with
  | ret r => rfl
  | undefined => rfl
  | step effect next ih => exact ih s

@[simp] theorem run_bind : (c >>= f).run s = (c.run s).bind fun x => (f x.1).run x.2 := by
  change (c.bind f).run s = _
  induction c generalizing s with
  | ret r => rfl
  | undefined => rfl
  | step effect next ih => exact ih s
  | lock l next ih => exact ih
  | unlock l next ih => exact ih

theorem run_scan {l : κ} {test : ℕ → Code σ Bool} {p : ℕ → Bool} {take : ℕ → Code σ Unit}
    (htest : ∀ i, (test i).run s = some (p i, s)) (n : ℕ) :
    ∀ i, (scan l test take i n).run s =
      ((List.range' i n).find? p).elim (some (none, s)) fun k => ((take k).run s).map fun x => (some k, x.2) := by
  induction n with
  | zero => exact fun _ => rfl
  | succ n ih =>
      intro i
      rw [scan, run_bind, run_acquire, Option.bind_some, run_bind, run_plain, htest i, List.range'_succ]
      rcases hp : p i with _ | _
      · rw [List.find?_cons_of_neg (by simp [hp])]
        exact ih (i + 1)
      · rw [List.find?_cons_of_pos hp]
        rcases htake : (take i).run s with _ | x
        · simp [htake]
        · simp [htake]

end Run

/-! ## What a program does among others -/

/-- With the locks `held`; `slips` allows it to come to a lock of the null pointer, or of a lock that it
holds, where it ends. -/
def Obeys (rank : κ → ℕ) (I : σ → Prop) (slips : Prop) :
    Guarded κ σ ρ → Set κ → (ρ → Set κ → Prop) → Prop
  | ret r, held, Q => Q r held
  | undefined, _, _ => True
  | step effect next, held, Q => ∀ s, I s → I (effect s) ∧ (next s).Obeys rank I slips held Q
  | lock none _, _, _ => slips
  | lock (some l) next, held, Q =>
      (l ∈ held → slips) ∧
        (l ∉ held → (∀ k ∈ held, rank k < rank l) ∧ next.Obeys rank I slips (insert l held) Q)
  | unlock none _, _, _ => False
  | unlock (some l) next, held, Q => l ∈ held ∧ next.Obeys rank I slips (held \ {l}) Q

section Obeys

variable {rank : κ → ℕ} {I : σ → Prop} {slips : Prop} {held : Set κ} {r : ρ} {l : κ}
  {c d : Guarded κ σ ρ} {f : ρ → Guarded κ σ θ} {Q R : ρ → Set κ → Prop} {P : θ → Set κ → Prop}

@[simp] theorem obeys_pure : (pure r : Guarded κ σ ρ).Obeys rank I slips held Q ↔ Q r held :=
  Iff.rfl

@[simp] theorem obeys_undefined : (undefined : Guarded κ σ ρ).Obeys rank I slips held Q :=
  trivial

@[simp] theorem obeys_bind : (c >>= f).Obeys rank I slips held P ↔
    c.Obeys rank I slips held fun r held => (f r).Obeys rank I slips held P := by
  change (c.bind f).Obeys rank I slips held P ↔ _
  induction c generalizing held with
  | ret r => exact Iff.rfl
  | undefined => exact Iff.rfl
  | step effect next ih =>
      exact forall_congr' fun s => forall_congr' fun _ => and_congr_right fun _ => ih s
  | lock l next ih =>
      rcases l with _ | l
      · exact Iff.rfl
      · exact and_congr_right fun _ => forall_congr' fun _ => and_congr_right fun _ => ih
  | unlock l next ih =>
      rcases l with _ | l
      · exact Iff.rfl
      · exact and_congr_right fun _ => ih

theorem Obeys.ite {p : Prop} [Decidable p] (hc : p → c.Obeys rank I slips held Q)
    (hd : ¬ p → d.Obeys rank I slips held Q) : (if p then c else d).Obeys rank I slips held Q := by
  split
  · next h => exact hc h
  · next h => exact hd h

theorem obeys_plain {c : Code σ ρ} {Q : ρ → Prop} (hc : c.Obeys I Q) (h : ∀ r, Q r → R r held) :
    (plain c : Guarded κ σ ρ).Obeys rank I slips held R := by
  induction c with
  | ret r => exact h r hc
  | undefined => trivial
  | step effect next ih => exact fun s hs => ⟨(hc s hs).1, ih s (hc s hs).2⟩

/-- A lock above all those that are held. -/
theorem obeys_acquire {R : Unit → Set κ → Prop} (hrank : ∀ k ∈ held, rank k < rank l)
    (h : R () (insert l held)) : (acquire (some l) : Guarded κ σ Unit).Obeys rank I slips held R :=
  ⟨fun hl => absurd (hrank l hl) (Nat.lt_irrefl _), fun _ => ⟨hrank, h⟩⟩

theorem obeys_release {R : Unit → Set κ → Prop} (hl : l ∈ held) (h : R () (held \ {l})) :
    (release (some l) : Guarded κ σ Unit).Obeys rank I slips held R :=
  ⟨hl, h⟩

theorem obeys_scan {test : ℕ → Code σ Bool} {take : ℕ → Code σ Unit} {S : ℕ → Prop}
    {R : Option ℕ → Set κ → Prop} (hrank : ∀ k ∈ held, rank k < rank l)
    (htest : ∀ i, (test i).Obeys I fun b => b = true → S i)
    (htake : ∀ i, S i → (take i).Obeys I fun _ => R (some i) held) (hnone : R none held) (n : ℕ) :
    ∀ i, (scan l test take i n : Guarded κ σ (Option ℕ)).Obeys rank I slips held R := by
  have hl : l ∉ held := fun hl => absurd (hrank l hl) (Nat.lt_irrefl _)
  have hmem : l ∈ insert l held := Set.mem_insert l held
  induction n with
  | zero => exact fun _ => hnone
  | succ n ih =>
      intro i
      rw [scan, obeys_bind]
      refine obeys_acquire hrank ?_
      rw [obeys_bind]
      refine obeys_plain (htest i) fun b hb => .ite (fun h => ?_) fun _ => ?_
      · rw [obeys_bind]
        refine obeys_plain (htake i (hb h)) fun _ hR => ?_
        rw [obeys_bind]
        refine obeys_release hmem ?_
        rw [Set.insert_sdiff_self_of_notMem hl]
        exact hR
      · rw [obeys_bind]
        refine obeys_release hmem ?_
        rw [Set.insert_sdiff_self_of_notMem hl]
        exact ih (i + 1)

end Obeys

end Guarded

end Lib
end TecnicoFs
