import Mathlib.Data.List.Basic
import Mathlib.Data.List.TakeDrop
import Mathlib.Data.Nat.Init
import Mathlib.Logic.Function.Basic

/-!
# Transition — labelled systems, executions and refinement

Two notions are used throughout the development:

* `System σ α` — a labelled transition relation, for parties that interleave;
* `Machine σ α ρ` — a partial deterministic step with an output, for a library called by one thread.

An `Execution` keeps its history (each earlier state with the label taken there), so that a law about
all the states of a run and a condition on all of its steps are both plain list statements.
-/

namespace TecnicoFs
namespace Lib

universe u v w

/-! ## Labelled transition systems -/

/-- A labelled transition system. -/
structure System (σ : Type u) (α : Type v) where
  init : σ → Prop
  step : σ → α → σ → Prop

namespace System

variable {σ : Type u} {α : Type v} {M : System σ α}

/-- `Execution M h s`: a run of `M` ends in `s`; `h` lists its steps, latest first, each one as the
state it was taken in and its label. -/
inductive Execution (M : System σ α) : List (σ × α) → σ → Prop
  | start {s : σ} : M.init s → Execution M [] s
  | next {h : List (σ × α)} {s t : σ} {a : α} :
      Execution M h s → M.step s a t → Execution M ((s, a) :: h) t

def Reachable (M : System σ α) (s : σ) : Prop :=
  ∃ h, Execution M h s

/-- `P` holds in every state of the run that has history `h` and ends in `s`. -/
def Always (P : σ → Prop) (h : List (σ × α)) (s : σ) : Prop :=
  P s ∧ ∀ p ∈ h, P p.1

/-- Every step of the run with history `h` meets `C`. -/
def EachStep (C : σ → α → Prop) (h : List (σ × α)) : Prop :=
  ∀ p ∈ h, C p.1 p.2

theorem always_cons {P : σ → Prop} {h : List (σ × α)} {s t : σ} {a : α} :
    Always P ((s, a) :: h) t ↔ P t ∧ Always P h s := by
  simp [Always]

theorem eachStep_cons {C : σ → α → Prop} {h : List (σ × α)} {s : σ} {a : α} :
    EachStep C ((s, a) :: h) ↔ C s a ∧ EachStep C h := by
  simp [EachStep]

/-- The invariant rule, for runs whose steps all meet `C`. -/
theorem Execution.always_of_eachStep {I : σ → Prop} {C : σ → α → Prop}
    (hinit : ∀ s, M.init s → I s)
    (hstep : ∀ s a t, I s → C s a → M.step s a t → I t)
    {h : List (σ × α)} {s : σ} (he : Execution M h s) (hC : EachStep C h) :
    Always I h s := by
  induction he with
  | start h0 =>
      exact ⟨hinit _ h0, by simp⟩
  | next _ hst ih =>
      rcases eachStep_cons.1 hC with ⟨hc, hrest⟩
      have hprev := ih hrest
      exact always_cons.2 ⟨hstep _ _ _ hprev.1 hc hst, hprev⟩

/-- The invariant rule over all runs. -/
theorem Reachable.invariant {I : σ → Prop}
    (hinit : ∀ s, M.init s → I s)
    (hstep : ∀ s a t, I s → M.step s a t → I t)
    {s : σ} (hr : Reachable M s) : I s := by
  rcases hr with ⟨h, he⟩
  have halways : Always I h s :=
    he.always_of_eachStep (C := fun _ _ => True) hinit
      (fun s a t hi _ hst => hstep s a t hi hst) (by simp [EachStep])
  exact halways.1

theorem Reachable.next {s t : σ} {a : α} (hr : Reachable M s) (hst : M.step s a t) :
    Reachable M t := by
  rcases hr with ⟨h, he⟩
  exact ⟨_, he.next hst⟩

/-- Every step of the run with history `h` meets `C`, which may look at the run before the step. -/
def EachStepAfter (C : List (σ × α) → σ → α → Prop) : List (σ × α) → Prop
  | [] => True
  | (s, a) :: h => C h s a ∧ EachStepAfter C h

theorem eachStepAfter_map {τ : Type*} {β : Type*} {f : σ → τ} {g : σ → α → β}
    {C : List (τ × β) → τ → β → Prop} {h : List (σ × α)} :
    EachStepAfter C (h.map fun p => (f p.1, g p.1 p.2)) ↔
      EachStepAfter (fun h s a => C (h.map fun p => (f p.1, g p.1 p.2)) (f s) (g s a)) h := by
  induction h with
  | nil => exact Iff.rfl
  | cons p h ih => exact and_congr Iff.rfl ih

theorem EachStepAfter.mono {C D : List (σ × α) → σ → α → Prop} (hCD : ∀ h s a, C h s a → D h s a)
    {h : List (σ × α)} (hC : EachStepAfter C h) : EachStepAfter D h := by
  induction h with
  | nil => trivial
  | cons p h ih => exact ⟨hCD _ _ _ hC.1, ih hC.2⟩

/-- The invariant rule, where the invariant and the condition may look at the run before. -/
theorem Execution.of_eachStepAfter {I : List (σ × α) → σ → Prop} {C : List (σ × α) → σ → α → Prop}
    (hinit : ∀ s, M.init s → I [] s)
    (hstep : ∀ h s a t, I h s → C h s a → M.step s a t → I ((s, a) :: h) t)
    {h : List (σ × α)} {s : σ} (he : Execution M h s) (hC : EachStepAfter C h) : I h s := by
  induction he with
  | start h0 => exact hinit _ h0
  | next _ hst ih => exact hstep _ _ _ _ (ih hC.2) hC.1 hst

/-- A step of a run: the run before it, and the step itself. -/
theorem Execution.split {h₁ h₂ : List (σ × α)} {s t : σ} {a : α}
    (he : Execution M (h₁ ++ (s, a) :: h₂) t) : Execution M h₂ s ∧ ∃ u, M.step s a u := by
  induction h₁ generalizing t with
  | nil =>
      cases he with
      | next he hst => exact ⟨he, _, hst⟩
  | cons p h₁ ih =>
      cases he with
      | next he _ => exact ih he

/-- What holds after a step and is kept by the later steps holds at the end. -/
theorem Execution.since {P : σ → Prop} {h₁ h₂ : List (σ × α)} {s t : σ} {a : α}
    (he : Execution M (h₁ ++ (s, a) :: h₂) t) (hfirst : ∀ u, M.step s a u → P u)
    (hkeep : ∀ p ∈ h₁, ∀ u, M.step p.1 p.2 u → P p.1 → P u) : P t := by
  induction h₁ generalizing t with
  | nil =>
      cases he with
      | next _ hst => exact hfirst _ hst
  | cons p h₁ ih =>
      cases he with
      | next he hst =>
          have hbefore := ih he fun q hq => hkeep q (List.mem_cons_of_mem _ hq)
          exact hkeep _ List.mem_cons_self _ hst hbefore

/-- The steps of a run that count, as `K` says. -/
def count (K : σ → α → Bool) (h : List (σ × α)) : ℕ :=
  h.countP fun p => K p.1 p.2

/-- The potential rule: steps that count lower the potential, and no step raises it. -/
theorem Execution.count_add_le {K : σ → α → Bool} {μ : σ → ℕ} {B : ℕ} (hinit : ∀ s, M.init s → μ s ≤ B)
    (hcounted : ∀ s a t, Reachable M s → M.step s a t → K s a = true → μ t < μ s)
    (hother : ∀ s a t, Reachable M s → M.step s a t → K s a = false → μ t ≤ μ s)
    {h : List (σ × α)} {s : σ} (he : Execution M h s) : count K h + μ s ≤ B := by
  induction he with
  | start h0 => simpa [count] using hinit _ h0
  | @next h s t a he hst ih =>
      unfold count at ih ⊢
      rw [List.countP_cons]
      rcases hK : K s a with _ | _
      · have hle := hother s a t ⟨_, he⟩ hst hK
        rw [if_neg Bool.false_ne_true]
        omega
      · have hlt := hcounted s a t ⟨_, he⟩ hst hK
        rw [if_pos rfl]
        omega

/-- A run of a refinement is a run of the abstract system. -/
theorem Execution.map {τ : Type*} {β : Type*} {N : System τ β} {f : σ → τ} {g : σ → α → β}
    (hinit : ∀ s, M.init s → N.init (f s)) (hstep : ∀ s a t, M.step s a t → N.step (f s) (g s a) (f t))
    {h : List (σ × α)} {s : σ} (he : Execution M h s) :
    Execution N (h.map fun p => (f p.1, g p.1 p.2)) (f s) := by
  induction he with
  | start h0 => exact .start (hinit _ h0)
  | next _ hst ih => exact ih.next (hstep _ _ _ hst)

/-- An infinite run that goes on from `s`. -/
structure Path (M : System σ α) (s : σ) where
  state : ℕ → σ
  label : ℕ → α
  start : state 0 = s
  step : ∀ i, M.step (state i) (label i) (state (i + 1))

/-- What the steps of a path keep holds from any time on. -/
theorem Path.from_of_step {M : System σ α} {s : σ} (ρ : M.Path s) {I : σ → Prop}
    (hstep : ∀ i, I (ρ.state i) → I (ρ.state (i + 1))) {i : ℕ} (hi : I (ρ.state i)) :
    ∀ j, i ≤ j → I (ρ.state j) := by
  intro j hij
  induction j, hij using Nat.le_induction with
  | base => exact hi
  | succ j _ ih => exact hstep j ih

/-- Perform the steps with these labels, one after the other. -/
def performAll (perform : α → σ → Option σ) : List α → σ → Option σ
  | [], s => some s
  | a :: as, s => (perform a s).bind (performAll perform as)

/-- A list of labels that can be performed is a run. -/
theorem Execution.performAll {perform : α → σ → Option σ} {as : List α}
    (hstep : ∀ a ∈ as, ∀ s t, perform a s = some t → M.step s a t) :
    ∀ {h : List (σ × α)} {s t : σ}, Execution M h s → System.performAll perform as s = some t →
      ∃ h', Execution M h' t ∧ h'.map Prod.snd = as.reverse ++ h.map Prod.snd := by
  induction as with
  | nil =>
      intro h s t he hrun
      rcases Option.some.inj hrun with rfl
      exact ⟨h, he, rfl⟩
  | cons a as ih =>
      intro h s t he hrun
      rcases Option.bind_eq_some_iff.1 hrun with ⟨s₁, hfirst, hrest⟩
      have hnext : Execution M ((s, a) :: h) s₁ := he.next (hstep a (by simp) s s₁ hfirst)
      rcases ih (fun b hb => hstep b (by simp [hb])) hnext hrest with ⟨h', he', hlabels⟩
      exact ⟨h', he', by simp [hlabels]⟩

/-- Perform a step on a state that carries the history of its run. -/
def record (perform : α → σ → Option σ) (a : α) (x : List (σ × α) × σ) :
    Option (List (σ × α) × σ) :=
  (perform a x.2).map fun t => ((x.2, a) :: x.1, t)

/-- A run that is evaluated is a run, with what was decided about it. -/
theorem execution_of_any (perform : α → σ → Option σ) {P : List (σ × α) × σ → Prop}
    [DecidablePred P] {s₀ : σ} {as : List α}
    (hstep : ∀ a s t, perform a s = some t → M.step s a t) (hinit : M.init s₀)
    (hrun : (performAll (record perform) as ([], s₀)).any (P ·) = true) :
    ∃ h t, Execution M h t ∧ h.map Prod.snd = as.reverse ∧ P (h, t) := by
  rcases (Option.any_eq_true _ _).1 hrun with ⟨⟨h, t⟩, hlast, hP⟩
  have hrecord : ∀ (as : List α) (h : List (σ × α)) (s : σ), Execution M h s → ∀ x,
      performAll (record perform) as (h, s) = some x →
        Execution M x.1 x.2 ∧ x.1.map Prod.snd = as.reverse ++ h.map Prod.snd := by
    intro as
    induction as with
    | nil =>
        intro h s he x hx
        rcases Option.some.inj hx with rfl
        exact ⟨he, rfl⟩
    | cons a as ih =>
        intro h s he x hx
        rcases Option.bind_eq_some_iff.1 hx with ⟨y, hy, hrest⟩
        rcases Option.map_eq_some_iff.1 hy with ⟨t, ht, rfl⟩
        have hx' := ih _ _ (he.next (hstep a s t ht)) x hrest
        exact ⟨hx'.1, by simp [hx'.2]⟩
  have hall := hrecord as [] s₀ (.start hinit) (h, t) hlast
  exact ⟨h, t, hall.1, by simpa using hall.2, of_decide_eq_true hP⟩

end System

/-! ## Parties with exclusive claims -/

section Apart

variable {ι : Type u} {β : Type v} {γ : Type w}

/-- No two parties claim the same thing. -/
def Apart (claim : β → Option γ) (position : ι → β) : Prop :=
  ∀ t u x, claim (position t) = some x → claim (position u) = some x → t = u

theorem Apart.others {claim : β → Option γ} {position : ι → β} (h : Apart claim position) {t : ι}
    {x : γ} (ht : claim (position t) = some x) : ∀ u, u ≠ t → claim (position u) ≠ some x :=
  fun u hu hx => hu (h u t x hx ht)

/-- One party moves to a position whose claim nobody else has. -/
theorem Apart.update [DecidableEq ι] {claim : β → Option γ} {position : ι → β} (h : Apart claim position)
    {t : ι} {q : β} (hq : ∀ x, claim q = some x → ∀ u, u ≠ t → claim (position u) ≠ some x) :
    Apart claim (Function.update position t q) := by
  intro u v x hu hv
  by_cases hut : u = t
  · by_cases hvt : v = t
    · rw [hut, hvt]
    · rw [hut, Function.update_self] at hu
      rw [Function.update_of_ne hvt] at hv
      exact absurd hv (hq x hu v hvt)
  · rw [Function.update_of_ne hut] at hu
    by_cases hvt : v = t
    · rw [hvt, Function.update_self] at hv
      exact absurd hu (hq x hv u hut)
    · rw [Function.update_of_ne hvt] at hv
      exact h u v x hu hv

end Apart

/-! ## Deterministic machines with outputs -/

/-- A partial deterministic machine: `exec a s` performs the call `a` in state `s`; it is `none` where
the call has no defined behaviour. -/
structure Machine (σ : Type u) (α : Type v) (ρ : Type w) where
  exec : α → σ → Option (ρ × σ)

namespace Machine

variable {σ τ : Type u} {α : Type v} {ρ : Type w}

/-- Perform a list of calls in order and collect their outputs. -/
def run (M : Machine σ α ρ) : List α → σ → Option (List ρ × σ)
  | [], s => some ([], s)
  | a :: as, s =>
      (M.exec a s).bind fun x =>
        (run M as x.2).map fun y => (x.1 :: y.1, y.2)

/-- The transition system of a machine started in `s₀`, restricted to the calls that `allowed`
admits. -/
def toSystem (M : Machine σ α ρ) (s₀ : σ) (allowed : σ → α → Prop) : System σ α where
  init s := s = s₀
  step s a t := allowed s a ∧ ∃ r, M.exec a s = some (r, t)

/-- `ok` holds at every call of the list when it is run from `s`. -/
def RunOk (M : Machine σ α ρ) (ok : σ → α → Prop) : List α → σ → Prop
  | [], _ => True
  | a :: as, s => ok s a ∧ ∀ r t, M.exec a s = some (r, t) → RunOk M ok as t

/-- The first call of a run, and the rest of it. -/
theorem run_cons_eq {M : Machine σ α ρ} {a : α} {as : List α} {s t : σ} {rs : List ρ}
    (h : M.run (a :: as) s = some (rs, t)) :
    ∃ r u rs', M.exec a s = some (r, u) ∧ M.run as u = some (rs', t) ∧ rs = r :: rs' := by
  rcases Option.bind_eq_some_iff.1 h with ⟨⟨r, u⟩, hexec, hrest⟩
  rcases Option.map_eq_some_iff.1 hrest with ⟨⟨rs', t'⟩, hrun, hEq⟩
  cases hEq
  exact ⟨r, u, rs', hexec, hrun, rfl⟩

/-- The rule for what a run of a machine does to its state: a relation that is reflexive and
transitive, and that every call meets where the invariant holds. -/
theorem run_preserves {M : Machine σ α ρ} {I : σ → Prop} {R : σ → σ → Prop} {ok : σ → α → Prop}
    (hrefl : ∀ s, R s s) (htrans : ∀ s t u, R s t → R t u → R s u)
    (hstep : ∀ s a r t, I s → ok s a → M.exec a s = some (r, t) → I t ∧ R s t) (as : List α) :
    ∀ {s t : σ} {rs : List ρ}, I s → M.RunOk ok as s → M.run as s = some (rs, t) → R s t := by
  induction as with
  | nil =>
      intro s t rs _ _ hrun
      cases hrun
      exact hrefl s
  | cons a as ih =>
      intro s t rs hs hok hrun
      rcases run_cons_eq hrun with ⟨r, u, rs', hexec, hrest, rfl⟩
      rcases hstep s a r u hs hok.1 hexec with ⟨hu, hfirst⟩
      exact htrans s u t hfirst (ih hu (hok.2 r u hexec) hrest)

/-- A machine that answers every call answers every sequence of calls. -/
theorem run_total {M : Machine σ α ρ} (htotal : ∀ a s, ∃ x, M.exec a s = some x) (as : List α) :
    ∀ s, ∃ x, M.run as s = some x := by
  induction as with
  | nil => exact fun s => ⟨([], s), rfl⟩
  | cons a as ih =>
      intro s
      rcases htotal a s with ⟨⟨r, t⟩, hexec⟩
      rcases ih t with ⟨⟨rs, u⟩, hrun⟩
      exact ⟨(r :: rs, u), by rw [run, hexec, Option.bind_some, hrun]; rfl⟩

theorem runOk_cons_of_exec {M : Machine σ α ρ} {ok : σ → α → Prop} {a : α} {as : List α} {s t : σ} {r : ρ}
    (hexec : M.exec a s = some (r, t)) : M.RunOk ok (a :: as) s ↔ ok s a ∧ M.RunOk ok as t := by
  constructor
  · rintro ⟨hok, hrest⟩
    exact ⟨hok, hrest r t hexec⟩
  · rintro ⟨hok, hrest⟩
    refine ⟨hok, ?_⟩
    intro r' t' hexec'
    cases (Option.some.inj (hexec.symm.trans hexec') : (r, t) = (r', t'))
    exact hrest

/-- A condition that every call meets holds along every run. -/
theorem runOk_of_forall {M : Machine σ α ρ} {ok : σ → α → Prop} (h : ∀ s a, ok s a) (as : List α) :
    ∀ s, M.RunOk ok as s := by
  induction as with
  | nil => exact fun _ => trivial
  | cons a as ih => exact fun s => ⟨h s a, fun _ t _ => ih t⟩

/-- Perform one call that `allowed` admits, for runs that are evaluated. -/
def perform (M : Machine σ α ρ) (allowed : σ → α → Prop) [∀ s a, Decidable (allowed s a)] (a : α)
    (s : σ) : Option σ :=
  if allowed s a then (M.exec a s).map Prod.snd else none

/-- A run that can be performed admits every call. -/
theorem runOk_of_perform {M : Machine σ α ρ} {allowed : σ → α → Prop} [∀ s a, Decidable (allowed s a)]
    (as : List α) : ∀ s, (System.performAll (M.perform allowed) as s).isSome = true → M.RunOk allowed as s := by
  induction as with
  | nil =>
      intro s _
      trivial
  | cons a as ih =>
      intro s hsome
      rcases Option.isSome_iff_exists.1 hsome with ⟨u, hu⟩
      rcases Option.bind_eq_some_iff.1 hu with ⟨t, ht, hrest⟩
      unfold perform at ht
      split at ht
      · next hallowed =>
          rcases Option.map_eq_some_iff.1 ht with ⟨⟨r, t'⟩, hexec, rfl⟩
          refine ⟨hallowed, ?_⟩
          intro r₁ t₁ hexec₁
          cases hexec.symm.trans hexec₁
          exact ih t' (Option.isSome_iff_exists.2 ⟨u, hrest⟩)
      · cases ht

/-- The same, on a state that carries the history of its run. -/
def record (M : Machine σ α ρ) (allowed : σ → α → Prop) [∀ s a, Decidable (allowed s a)] (a : α)
    (x : List (σ × α) × σ) : Option (List (σ × α) × σ) :=
  (M.perform allowed a x.2).map fun t => ((x.2, a) :: x.1, t)

/-- A run that is evaluated is a run of the transition system. -/
theorem execution_of_any {M : Machine σ α ρ} {allowed : σ → α → Prop}
    [∀ s a, Decidable (allowed s a)] {P : List (σ × α) × σ → Prop} [DecidablePred P] {s₀ : σ}
    {as : List α}
    (hrun : (System.performAll (M.record allowed) as ([], s₀)).any (P ·) = true) :
    ∃ h t, (M.toSystem s₀ allowed).Execution h t ∧ h.map Prod.snd = as.reverse ∧ P (h, t) := by
  refine System.execution_of_any (M.perform allowed) ?_ rfl hrun
  intro a s t ht
  unfold perform at ht
  split at ht
  · next hallowed =>
      rcases Option.map_eq_some_iff.1 ht with ⟨⟨r, u⟩, hexec, rfl⟩
      exact ⟨hallowed, r, hexec⟩
  · cases ht

/-- Refinement of runs from a simulation of single calls: where the abstract machine `A` answers, the
concrete machine `C` gives the same answer, and the relation `R` is kept. -/
theorem run_refines {C : Machine σ α ρ} {A : Machine τ α ρ} {R : σ → τ → Prop}
    {ok : τ → α → Prop}
    (hsim : ∀ s t a r t', R s t → ok t a → A.exec a t = some (r, t') →
      ∃ s', C.exec a s = some (r, s') ∧ R s' t') :
    ∀ (as : List α) (s : σ) (t : τ) (rs : List ρ) (t' : τ),
      R s t → A.RunOk ok as t → A.run as t = some (rs, t') →
        ∃ s', C.run as s = some (rs, s') ∧ R s' t' := by
  intro as
  induction as with
  | nil =>
      intro s t rs t' hR _ hrun
      have hnil : rs = [] ∧ t' = t := by
        simpa [run, eq_comm] using hrun
      rcases hnil with ⟨rfl, rfl⟩
      exact ⟨s, rfl, hR⟩
  | cons a as ih =>
      intro s t rs t' hR hok hrun
      rcases hexec : A.exec a t with _ | ⟨r, t₁⟩
      · simp [run, hexec] at hrun
      · rcases run_cons_eq hrun with ⟨_, _, rs₁, hexec', hrest, rfl⟩
        rw [hexec] at hexec'
        cases hexec'
        rcases hsim s t a r t₁ hR hok.1 hexec with ⟨s₁, hC, hR₁⟩
        rcases ih s₁ t₁ rs₁ t' hR₁ (hok.2 r t₁ hexec) hrest with ⟨s₂, hCrun, hR₂⟩
        exact ⟨s₂, by simp [run, hC, hCrun], hR₂⟩

/-- Two machines that answer alike, call by call, answer alike on whole runs; `call` and `reply` translate
between them. -/
theorem run_agree {β : Type v} {ρ' : Type w} {C : Machine σ α ρ} {A : Machine τ β ρ'} {R : σ → τ → Prop}
    {ok : σ → α → Prop} {call : α → β} {reply : ρ → ρ'}
    (hsim : ∀ s t a, R s t → ok s a →
      ∃ r s' t', C.exec a s = some (r, s') ∧ A.exec (call a) t = some (reply r, t') ∧ R s' t') :
    ∀ (as : List α) (s : σ) (t : τ), R s t → C.RunOk ok as s →
      ∃ rs s' t', C.run as s = some (rs, s') ∧ A.run (as.map call) t = some (rs.map reply, t') ∧ R s' t' := by
  intro as
  induction as with
  | nil =>
      intro s t hR _
      exact ⟨[], s, t, rfl, rfl, hR⟩
  | cons a as ih =>
      intro s t hR hok
      rcases hsim s t a hR hok.1 with ⟨r, s₁, t₁, hC, hA, hR₁⟩
      rcases ih s₁ t₁ hR₁ (hok.2 r s₁ hC) with ⟨rs, s₂, t₂, hCrun, hArun, hR₂⟩
      exact ⟨r :: rs, s₂, t₂, by simp [run, hC, hCrun], by simp [run, hA, hArun], hR₂⟩

end Machine

end Lib
end TecnicoFs
