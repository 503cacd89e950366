import Mathlib.Data.List.Range
import Mathlib.Logic.Function.Basic

/-!
# Code — programs that touch a shared memory one statement at a time

A `Code σ ρ` is a program over a memory `σ` that ends with a value of `ρ`.  Each of its statements reads the
memory, changes it and goes on as the read value tells; between two statements other parties may run.
`Code.run` is the program as its caller sees it when nobody else does.
-/

namespace TecnicoFs
namespace Lib

universe u w

/-- A program, statement by statement; `undefined` has no defined meaning. -/
inductive Code (σ : Type u) (ρ : Type)
  | ret (r : ρ)
  | undefined
  | step (effect : σ → σ) (next : σ → Code σ ρ)

namespace Code

variable {σ : Type u} {ρ κ : Type} {γ : Type w}

/-- The program without interruption. -/
def run : Code σ ρ → σ → Option (ρ × σ)
  | ret r, s => some (r, s)
  | undefined, _ => none
  | step effect next, s => (next s).run (effect s)

def bind : Code σ ρ → (ρ → Code σ κ) → Code σ κ
  | ret r, f => f r
  | undefined, _ => undefined
  | step effect next, f => step effect fun s => (next s).bind f

instance : Monad (Code σ) where
  pure := ret
  bind := bind

/-- A statement that reads. -/
def read (f : σ → ρ) : Code σ ρ :=
  step id fun s => ret (f s)

/-- A statement that writes. -/
def write (f : σ → σ) : Code σ Unit :=
  step f fun _ => ret ()

/-- The loop over `n` indices from `i` that goes on as `found` with the first one that passes `test`. -/
def search (test : ℕ → Code σ Bool) (found : ℕ → Code σ ρ) (missing : Code σ ρ) : ℕ → ℕ → Code σ ρ
  | _, 0 => missing
  | i, n + 1 => do
      if ← test i then found i else search test found missing (i + 1) n

/-- The loop over `n` indices from `i`. -/
def forEach (body : ℕ → Code σ Unit) : ℕ → ℕ → Code σ Unit
  | _, 0 => pure ()
  | i, n + 1 => do
      body i
      forEach body (i + 1) n

/-- The program on a part of a larger memory. -/
def within (get : γ → σ) (set : σ → γ → γ) : Code σ ρ → Code γ ρ
  | ret r => ret r
  | undefined => undefined
  | step effect next => step (fun t => set (effect (get t)) t) fun t => (next (get t)).within get set

/-! ## Running -/

section Run

variable {s t : σ} {r : ρ} {c : Code σ ρ} {f : ρ → Code σ κ}

@[simp] theorem run_ret : (ret r : Code σ ρ).run s = some (r, s) :=
  rfl

@[simp] theorem run_pure : (pure r : Code σ ρ).run s = some (r, s) :=
  rfl

@[simp] theorem run_undefined : (undefined : Code σ ρ).run s = none :=
  rfl

@[simp] theorem run_read {g : σ → ρ} : (read g).run s = some (g s, s) :=
  rfl

@[simp] theorem run_write {g : σ → σ} : (write g).run s = some ((), g s) :=
  rfl

@[simp] theorem run_bind : (c >>= f).run s = (c.run s).bind fun x => (f x.1).run x.2 := by
  change (c.bind f).run s = _
  induction c generalizing s with
  | ret r => rfl
  | undefined => rfl
  | step effect next ih => exact ih s

/-- A loop that looks for an index finds the first one. -/
theorem run_search {test : ℕ → Code σ Bool} {p : ℕ → Bool} {found : ℕ → Code σ ρ} {missing : Code σ ρ}
    (htest : ∀ i, (test i).run s = some (p i, s)) (n : ℕ) :
    ∀ i, (search test found missing i n).run s =
      ((List.range' i n).find? p).elim (missing.run s) fun k => (found k).run s := by
  induction n with
  | zero => exact fun _ => rfl
  | succ n ih =>
      intro i
      rw [search, run_bind, htest i, List.range'_succ]
      rcases hp : p i with _ | _
      · rw [List.find?_cons_of_neg (by simp [hp])]
        exact ih (i + 1)
      · rw [List.find?_cons_of_pos hp]
        rfl

/-- A loop whose rounds each have one effect has all of them in turn. -/
theorem run_forEach {body : ℕ → Code σ Unit} {g : ℕ → σ → σ}
    (hbody : ∀ i s, (body i).run s = some ((), g i s)) (n : ℕ) :
    ∀ i s, (forEach body i n).run s = some ((), (List.range' i n).foldl (fun s k => g k s) s) := by
  induction n with
  | zero => exact fun _ _ => rfl
  | succ n ih =>
      intro i s
      rw [forEach, run_bind, hbody i s, Option.bind_some, ih (i + 1) (g i s)]
      rfl

theorem run_within {get : γ → σ} {set : σ → γ → γ} (hget : ∀ s t, get (set s t) = s)
    (hset : ∀ t, set (get t) t = t) (hagain : ∀ s s' t, set s (set s' t) = set s t) :
    ∀ t, (c.within get set).run t = (c.run (get t)).map fun x => (x.1, set x.2 t) := by
  induction c with
  | ret r =>
      intro t
      simp [within, hset]
  | undefined => exact fun _ => rfl
  | step effect next ih =>
      intro t
      rw [within, run, run, ih, hget]
      simp [hagain]

end Run

/-! ## What a program leaves alone -/

/-- No statement of the program changes `φ`. -/
def Keeps (φ : σ → γ) : Code σ ρ → Prop
  | ret _ => True
  | undefined => True
  | step effect next => ∀ s, φ (effect s) = φ s ∧ (next s).Keeps φ

section Keeps

variable {φ : σ → γ} {c d : Code σ ρ} {f : ρ → Code σ κ}

@[simp] theorem keeps_pure {r : ρ} : (pure r : Code σ ρ).Keeps φ :=
  trivial

@[simp] theorem keeps_undefined : (undefined : Code σ ρ).Keeps φ :=
  trivial

@[simp] theorem keeps_read {g : σ → ρ} : (read g).Keeps φ :=
  fun _ => ⟨rfl, trivial⟩

theorem keeps_write {g : σ → σ} (hg : ∀ s, φ (g s) = φ s) : (write g).Keeps φ :=
  fun s => ⟨hg s, trivial⟩

theorem Keeps.bind (hc : c.Keeps φ) (hf : ∀ r, (f r).Keeps φ) : (c >>= f).Keeps φ := by
  change (c.bind f).Keeps φ
  induction c with
  | ret r => exact hf r
  | undefined => trivial
  | step effect next ih => exact fun s => ⟨(hc s).1, ih s (hc s).2⟩

theorem Keeps.ite {p : Prop} [Decidable p] (hc : c.Keeps φ) (hd : d.Keeps φ) :
    (if p then c else d).Keeps φ := by
  split
  · exact hc
  · exact hd

theorem keeps_search {test : ℕ → Code σ Bool} {found : ℕ → Code σ ρ} {missing : Code σ ρ}
    (htest : ∀ i, (test i).Keeps φ) (hfound : ∀ i, (found i).Keeps φ) (hmissing : missing.Keeps φ)
    (n : ℕ) : ∀ i, (search test found missing i n).Keeps φ := by
  induction n with
  | zero => exact fun _ => hmissing
  | succ n ih => exact fun i => (htest i).bind fun _ => (hfound i).ite (ih (i + 1))

/-- A program on a part of the memory leaves the rest alone. -/
theorem keeps_within {τ : Type w} {δ : Type u} {φ : τ → δ} {get : τ → σ} {set : σ → τ → τ}
    (h : ∀ s t, φ (set s t) = φ t) (c : Code σ ρ) : (c.within get set).Keeps φ := by
  induction c with
  | ret r => trivial
  | undefined => trivial
  | step effect next ih => exact fun t => ⟨h _ t, ih (get t)⟩

end Keeps

/-! ## What a program does among others -/

/-- While others keep `I` between the statements, each statement keeps it, and the result meets `Q`. -/
def Obeys (I : σ → Prop) : Code σ ρ → (ρ → Prop) → Prop
  | ret r, Q => Q r
  | undefined, _ => True
  | step effect next, Q => ∀ s, I s → I (effect s) ∧ (next s).Obeys I Q

section Obeys

variable {I : σ → Prop} {c : Code σ ρ} {f : ρ → Code σ κ} {Q : ρ → Prop} {P : κ → Prop}

@[simp] theorem obeys_pure {r : ρ} : (pure r : Code σ ρ).Obeys I Q ↔ Q r :=
  Iff.rfl

@[simp] theorem obeys_bind : (c >>= f).Obeys I P ↔ c.Obeys I fun r => (f r).Obeys I P := by
  change (c.bind f).Obeys I P ↔ _
  induction c with
  | ret r => exact Iff.rfl
  | undefined => exact Iff.rfl
  | step effect next ih =>
      exact forall_congr' fun s => forall_congr' fun _ => and_congr_right fun _ => ih s

theorem obeys_read {g : σ → ρ} (h : ∀ s, I s → Q (g s)) : (read g).Obeys I Q :=
  fun s hs => ⟨hs, h s hs⟩

theorem obeys_write {g : σ → σ} {Q : Unit → Prop} (hg : ∀ s, I s → I (g s)) (h : Q ()) :
    (write g).Obeys I Q :=
  fun s hs => ⟨hg s hs, h⟩

/-- A program on a part of the memory that the invariant does not look at. -/
theorem obeys_within {J : γ → Prop} {get : γ → σ} {set : σ → γ → γ} (h : ∀ s t, J t → J (set s t))
    (c : Code σ ρ) : (c.within get set).Obeys J fun _ => True := by
  induction c with
  | ret r => trivial
  | undefined => trivial
  | step effect next ih => exact fun t ht => ⟨h _ t ht, ih (get t)⟩

end Obeys

end Code

end Lib
end TecnicoFs
