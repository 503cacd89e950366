import Mathlib.Algebra.BigOperators.Group.Finset.Basic
import Mathlib.Algebra.Order.Group.Multiset
import Mathlib.Logic.Hydra
import TecnicoFs.Lib.Guarded
import TecnicoFs.Lib.Transition

/-!
# Lock order — threads that lock upwards do not wait for each other for ever

Any number of threads make calls of programs with locks, and run them one statement at a time.  If every
program locks upwards in the rank of the locks, then as long as a call is under way some thread can go on,
unless one has gone astray: it has come to an undefined statement, or to a lock of the null pointer or of
a lock that it holds itself.  A call that has returned holds no lock, and between the calls that begin the
threads take finitely many steps.
-/

namespace TecnicoFs
namespace Lib
namespace Guarded

universe u v w x

variable {κ : Type v} {σ : Type u} {β : Type w} {ρ : Type} {ι : Type x}

/-- The memory, the thread that holds each lock, and for each thread the call under way with what is left of
its program. -/
structure World (κ : Type v) (σ : Type u) (β : Type w) (ρ : Type) (ι : Type x) where
  memory : σ
  owner : κ → Option ι
  thread : ι → Option (β × Guarded κ σ ρ)

namespace World

def start (κ : Type v) (β : Type w) (ρ : Type) (ι : Type x) (s : σ) : World κ σ β ρ ι where
  memory := s
  owner _ := none
  thread _ := none

/-- The locks that a thread holds. -/
def held (w : World κ σ β ρ ι) (i : ι) : Set κ :=
  {l | w.owner l = some i}

variable [DecidableEq κ] [DecidableEq ι]

/-- Thread `i` comes to `t`. -/
def goto (w : World κ σ β ρ ι) (i : ι) (t : Option (β × Guarded κ σ ρ)) : World κ σ β ρ ι :=
  { w with thread := Function.update w.thread i t }

/-- The next statement of thread `i`, or its return. -/
def advance (w : World κ σ β ρ ι) (i : ι) : Option (World κ σ β ρ ι) :=
  match w.thread i with
  | none => none
  | some (_, .ret _) => some (w.goto i none)
  | some (_, .undefined) => none
  | some (b, .step effect next) =>
      some { w.goto i (some (b, next w.memory)) with memory := effect w.memory }
  | some (_, .lock none _) => none
  | some (b, .lock (some l) next) =>
      if w.owner l = none then
        some { w.goto i (some (b, next)) with owner := Function.update w.owner l (some i) }
      else
        none
  | some (_, .unlock none _) => none
  | some (b, .unlock (some l) next) =>
      if w.owner l = some i then
        some { w.goto i (some (b, next)) with owner := Function.update w.owner l none }
      else
        none

end World

inductive Label (β : Type w) (ι : Type x)
  | call (i : ι) (b : β)
  | advance (i : ι)

variable [DecidableEq κ] [DecidableEq ι]

def perform (body : β → Guarded κ σ ρ) : Label β ι → World κ σ β ρ ι → Option (World κ σ β ρ ι)
  | .call i b, w =>
      match w.thread i with
      | none => some (w.goto i (some (b, body b)))
      | some _ => none
  | .advance i, w => w.advance i

/-- The threads `ι` call the library, in any interleaving. -/
def threads (body : β → Guarded κ σ ρ) (ι : Type x) [DecidableEq ι] (s₀ : σ) :
    System (World κ σ β ρ ι) (Label β ι) where
  init w := w = World.start κ β ρ ι s₀
  step w a w' := perform body a w = some w'

/-! ## What holds in every run -/

/-- The thread has come to a statement without a meaning, and if it is about a lock, in a call that may slip. -/
def World.Astray (slips : β → Prop) (w : World κ σ β ρ ι) (i : ι) : Prop :=
  ∃ b c, w.thread i = some (b, c) ∧
    (c = .undefined ∨
      slips b ∧ ((∃ next, c = .lock none next) ∨ ∃ l next, c = .lock (some l) next ∧ w.owner l = some i))

/-- The memory meets its invariant, the threads without a call hold nothing, and what is left of a call
obeys. -/
structure Fits (rank : κ → ℕ) (I : σ → Prop) (slips : β → Prop) (w : World κ σ β ρ ι) : Prop where
  memory : I w.memory
  idle : ∀ i, w.thread i = none → w.held i = ∅
  busy : ∀ i b c, w.thread i = some (b, c) →
    c.Obeys rank I (slips b) (w.held i) fun _ held => held = ∅

section Steps

variable {rank : κ → ℕ} {I : σ → Prop} {slips : β → Prop} {w w' : World κ σ β ρ ι} {i j : ι} {l : κ}
  {b : β} {c : Guarded κ σ ρ} {body : β → Guarded κ σ ρ} {s₀ : σ}

theorem held_lock_self {t : Option (β × Guarded κ σ ρ)} :
    ({ w.goto i t with owner := Function.update w.owner l (some i) } : World κ σ β ρ ι).held i =
      insert l (w.held i) := by
  ext k
  simp only [World.held, Set.mem_ofPred_eq, Function.update_apply, Set.mem_insert_iff]
  by_cases hk : k = l
  · simp [hk]
  · simp [hk]

theorem held_unlock_self {t : Option (β × Guarded κ σ ρ)} :
    ({ w.goto i t with owner := Function.update w.owner l none } : World κ σ β ρ ι).held i =
      w.held i \ {l} := by
  ext k
  simp only [World.held, Set.mem_ofPred_eq, Function.update_apply, Set.mem_sdiff, Set.mem_singleton_iff]
  by_cases hk : k = l
  · simp [hk]
  · simp [hk]

/-- A lock that goes from another thread, or from none, to another thread, or to none. -/
theorem held_others {t : Option (β × Guarded κ σ ρ)} {o : Option ι} (hfrom : w.owner l ≠ some j)
    (hto : o ≠ some j) :
    ({ w.goto i t with owner := Function.update w.owner l o } : World κ σ β ρ ι).held j = w.held j := by
  ext k
  simp only [World.held, Set.mem_ofPred_eq, Function.update_apply]
  by_cases hk : k = l
  · simp [hk, hfrom, hto]
  · simp [hk]

omit [DecidableEq κ] in
/-- One thread has moved: it fits where it came to, and the others hold what they held. -/
theorem Fits.move (hw : Fits rank I slips w) {t : Option (β × Guarded κ σ ρ)} {s : σ} {owner : κ → Option ι}
    {held : Set κ} (hs : I s)
    (hheld : ({ w.goto i t with memory := s, owner := owner } : World κ σ β ρ ι).held i = held)
    (hidle : t = none → held = ∅)
    (hbusy : ∀ b c, t = some (b, c) → c.Obeys rank I (slips b) held fun _ held => held = ∅)
    (hothers : ∀ j, j ≠ i →
      ({ w.goto i t with memory := s, owner := owner } : World κ σ β ρ ι).held j = w.held j) :
    Fits rank I slips { w.goto i t with memory := s, owner := owner } where
  memory := hs
  idle j hj := by
    by_cases hji : j = i
    · rw [hji, hheld]
      rw [hji] at hj
      exact hidle (by simpa [World.goto] using hj)
    · rw [hothers j hji]
      exact hw.idle j (by simpa [World.goto, hji] using hj)
  busy j b c hj := by
    by_cases hji : j = i
    · rw [hji, hheld]
      rw [hji] at hj
      exact hbusy b c (by simpa [World.goto] using hj)
    · rw [hothers j hji]
      exact hw.busy j b c (by simpa [World.goto, hji] using hj)

theorem Fits.advance (hw : Fits rank I slips w) (hstep : w.advance i = some w') : Fits rank I slips w' := by
  unfold World.advance at hstep
  rcases hthread : w.thread i with _ | ⟨b, c⟩
  · simp only [hthread] at hstep
    cases hstep
  · have hc := hw.busy i b c hthread
    cases c with
    | ret r =>
        simp only [hthread] at hstep
        cases hstep
        exact hw.move hw.memory rfl (fun _ => hc) (fun _ _ h => nomatch h) fun _ _ => rfl
    | undefined =>
        simp only [hthread] at hstep
        cases hstep
    | step effect next =>
        simp only [hthread] at hstep
        cases hstep
        have hnext := hc w.memory hw.memory
        refine hw.move hnext.1 rfl (fun h => nomatch h) ?_ fun _ _ => rfl
        intro b' c' heq
        cases heq
        exact hnext.2
    | lock l next =>
        rcases l with _ | l
        · simp only [hthread] at hstep
          cases hstep
        · simp only [hthread] at hstep
          split at hstep
          · next hfree =>
              cases hstep
              -- nobody held the lock, so that only the locks of this thread change
              have hl : l ∉ w.held i := by simp [World.held, hfree]
              refine hw.move hw.memory held_lock_self (fun h => nomatch h) ?_ fun j hj =>
                held_others (by simp [hfree]) (by simp [Ne.symm hj])
              intro b' c' heq
              cases heq
              exact (hc.2 hl).2
          · cases hstep
    | unlock l next =>
        rcases l with _ | l
        · simp only [hthread] at hstep
          cases hstep
        · simp only [hthread] at hstep
          split at hstep
          · next howner =>
              cases hstep
              -- only the thread that holds the lock comes to give it back
              refine hw.move hw.memory held_unlock_self (fun h => nomatch h) ?_ fun j hj =>
                held_others (by simp [howner, Ne.symm hj]) (by simp)
              intro b' c' heq
              cases heq
              exact hc.2
          · cases hstep

omit [DecidableEq κ] in
theorem Fits.call (hw : Fits rank I slips w)
    (hbody : (body b).Obeys rank I (slips b) ∅ fun _ held => held = ∅)
    (hthread : w.thread i = none) : Fits rank I slips (w.goto i (some (b, body b))) := by
  refine hw.move hw.memory (hw.idle i hthread) (fun h => nomatch h) ?_ fun _ _ => rfl
  intro b' c' heq
  cases heq
  exact hbody

theorem fits_of_reachable (hs₀ : I s₀)
    (hbody : ∀ b, (body b).Obeys rank I (slips b) ∅ fun _ held => held = ∅)
    (hr : (threads body ι s₀).Reachable w) : Fits rank I slips w := by
  refine hr.invariant (I := Fits rank I slips) ?_ ?_
  · rintro w rfl
    exact ⟨hs₀, fun i _ => by simp [World.start, World.held], fun _ _ _ h => nomatch h⟩
  · rintro w (⟨i, b⟩ | i) w' hw hstep
    · simp only [threads, perform] at hstep
      split at hstep
      · next hthread =>
          cases hstep
          exact hw.call (hbody b) hthread
      · cases hstep
    · exact hw.advance hstep

/-! ## No thread waits for ever -/

/-- A thread that cannot go on has gone astray, or waits for a lock above its own that another one holds. -/
theorem Fits.waits (hw : Fits rank I slips w) (hthread : w.thread i = some (b, c))
    (hstuck : w.advance i = none) : w.Astray slips i ∨
      ∃ l next j, c = .lock (some l) next ∧ w.owner l = some j ∧ ∀ k ∈ w.held i, rank k < rank l := by
  have hc := hw.busy i b c hthread
  simp only [World.advance, hthread] at hstuck
  cases c with
  | ret r => cases hstuck
  | undefined => exact Or.inl ⟨b, _, hthread, Or.inl rfl⟩
  | step effect next => cases hstuck
  | lock l next =>
      rcases l with _ | l
      · exact Or.inl ⟨b, _, hthread, Or.inr ⟨hc, Or.inl ⟨next, rfl⟩⟩⟩
      · rcases howner : w.owner l with _ | j
        · simp [howner] at hstuck
        · by_cases hl : l ∈ w.held i
          · exact Or.inl ⟨b, _, hthread, Or.inr ⟨hc.1 hl, Or.inr ⟨l, next, rfl, hl⟩⟩⟩
          · exact Or.inr ⟨l, next, j, rfl, howner, (hc.2 hl).1⟩
  | unlock l next =>
      rcases l with _ | l
      · exact False.elim hc
      · have hl : w.owner l = some i := hc.1
        simp [hl] at hstuck

/-- **While a call is under way some thread goes on**, or one has gone astray: along the threads that wait for
each other the ranks of the awaited locks would rise without end. -/
theorem Fits.goesOn (hw : Fits rank I slips w) {n : ℕ} (hbound : ∀ l, rank l ≤ n)
    (hbusy : w.thread i ≠ none) : (∃ j w', w.advance j = some w') ∨ ∃ j, w.Astray slips j := by
  by_contra hno
  rcases not_or.1 hno with ⟨hstuck, hastray⟩
  have hnone : ∀ j, w.advance j = none := by
    intro j
    rcases hstep : w.advance j with _ | w'
    · rfl
    · exact absurd ⟨j, w', hstep⟩ hstuck
  have hwaits : ∀ j b c, w.thread j = some (b, c) →
      ∃ l next j', c = .lock (some l) next ∧ w.owner l = some j' ∧ ∀ k ∈ w.held j, rank k < rank l := by
    intro j b c hthread
    exact (hw.waits hthread (hnone j)).resolve_left fun h => hastray ⟨j, h⟩
  have hlate : ∀ m j, w.thread j ≠ none → ∃ l, m ≤ rank l ∧ ∃ j', w.owner l = some j' := by
    intro m
    induction m with
    | zero =>
        intro j hj
        rcases Option.ne_none_iff_exists'.1 hj with ⟨⟨b, c⟩, hthread⟩
        rcases hwaits j b c hthread with ⟨l, _, j', _, howner, _⟩
        exact ⟨l, Nat.zero_le _, j', howner⟩
    | succ m ih =>
        intro j hj
        rcases ih j hj with ⟨l, hm, j', howner⟩
        -- the thread with that lock is in a call, and waits itself for a lock above it
        have hj' : w.thread j' ≠ none := by
          intro hthread
          have hmem : l ∈ w.held j' := howner
          rw [hw.idle j' hthread] at hmem
          exact hmem
        rcases Option.ne_none_iff_exists'.1 hj' with ⟨⟨b, c⟩, hthread⟩
        rcases hwaits j' b c hthread with ⟨l', _, j'', _, howner', hrank⟩
        exact ⟨l', Nat.lt_of_le_of_lt hm (hrank l howner), j'', howner'⟩
  rcases hlate (n + 1) i hbusy with ⟨l, hl, _⟩
  exact absurd (hbound l) (Nat.not_le.2 hl)

/-! ## The calls under way come to an end -/

/-- What is left of a program after its first statement. -/
def Rest : Guarded κ σ ρ → Guarded κ σ ρ → Prop
  | step _ next, c => ∃ s, c = next s
  | lock _ next, c => c = next
  | unlock _ next, c => c = next
  | _, _ => False

omit [DecidableEq κ] in
theorem wellFounded_rest : WellFounded fun c d : Guarded κ σ ρ => Rest d c := by
  refine ⟨fun c => ?_⟩
  induction c with
  | ret r => exact ⟨_, fun _ h => False.elim h⟩
  | undefined => exact ⟨_, fun _ h => False.elim h⟩
  | step effect next ih =>
      refine ⟨_, ?_⟩
      rintro c ⟨s, rfl⟩
      exact ih s
  | lock l next ih =>
      refine ⟨_, ?_⟩
      rintro c rfl
      exact ih
  | unlock l next ih =>
      refine ⟨_, ?_⟩
      rintro c rfl
      exact ih

/-- What is left of the call of a thread. -/
def remaining (t : Option (β × Guarded κ σ ρ)) : Multiset (Guarded κ σ ρ) :=
  t.elim 0 fun x => {x.2}

/-- A thread that goes on leaves the others alone, and has less left. -/
theorem rest_of_advance (hstep : w.advance i = some w') : ∃ b c t, w.thread i = some (b, c) ∧
    w'.thread = Function.update w.thread i t ∧ ∀ d ∈ remaining t, Rest c d := by
  unfold World.advance at hstep
  rcases hthread : w.thread i with _ | ⟨b, c⟩
  · simp only [hthread] at hstep
    cases hstep
  · cases c with
    | ret r =>
        simp only [hthread] at hstep
        cases hstep
        -- a return leaves nothing
        exact ⟨b, _, none, rfl, rfl, fun d hd => absurd hd (Multiset.notMem_zero d)⟩
    | undefined =>
        simp only [hthread] at hstep
        cases hstep
    | step effect next =>
        simp only [hthread] at hstep
        cases hstep
        refine ⟨b, _, _, rfl, rfl, ?_⟩
        intro d hd
        exact ⟨w.memory, Multiset.mem_singleton.1 hd⟩
    | lock l next =>
        rcases l with _ | l
        · simp only [hthread] at hstep
          cases hstep
        · simp only [hthread] at hstep
          split at hstep
          · cases hstep
            exact ⟨b, _, _, rfl, rfl, fun d hd => Multiset.mem_singleton.1 hd⟩
          · cases hstep
    | unlock l next =>
        rcases l with _ | l
        · simp only [hthread] at hstep
          cases hstep
        · simp only [hthread] at hstep
          split at hstep
          · cases hstep
            exact ⟨b, _, _, rfl, rfl, fun d hd => Multiset.mem_singleton.1 hd⟩
          · cases hstep

/-- **Without new calls the threads come to a stop**: what is left of all the calls together gets less with
every step. -/
theorem wellFounded_advance [Fintype ι] :
    WellFounded fun w' w : World κ σ β ρ ι => ∃ i, w.advance i = some w' := by
  refine Subrelation.wf ?_
    (InvImage.wf (fun w => ∑ i, remaining (w.thread i)) (WellFounded.cutExpand wellFounded_rest))
  rintro w' w ⟨i, hstep⟩
  rcases rest_of_advance hstep with ⟨b, c, t, hthread, hthread', hrest⟩
  -- the program `c` of one thread is replaced by what is left of it, which is nothing after a return
  refine ⟨remaining t, c, hrest, ?_⟩
  have hothers : ∑ j ∈ Finset.univ.erase i, remaining (w'.thread j) =
      ∑ j ∈ Finset.univ.erase i, remaining (w.thread j) := by
    refine Finset.sum_congr rfl ?_
    intro j hj
    rw [hthread', Function.update_of_ne (Finset.ne_of_mem_erase hj)]
  have hself' : remaining (w'.thread i) = remaining t := by
    rw [hthread', Function.update_self]
  have hself : remaining (w.thread i) = {c} := by
    rw [hthread]
    rfl
  calc ∑ j, remaining (w'.thread j) + {c}
      = remaining t + ∑ j ∈ Finset.univ.erase i, remaining (w.thread j) + {c} := by
        rw [← Finset.add_sum_erase _ _ (Finset.mem_univ i), hself', hothers]
    _ = {c} + ∑ j ∈ Finset.univ.erase i, remaining (w.thread j) + remaining t := by
        ac_rfl
    _ = ∑ j, remaining (w.thread j) + remaining t := by
        rw [← hself, Finset.add_sum_erase _ (fun j => remaining (w.thread j)) (Finset.mem_univ i)]

end Steps

end Guarded
end Lib
end TecnicoFs
