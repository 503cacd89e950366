import TecnicoFs.Lib.Code
import TecnicoFs.Lib.Linearizability

/-!
# Critical — methods that run statement by statement under one lock

The methods of an object take one lock, run their body, and release the lock; a method may first make a test
without the lock that answers the call at once.  Any number of calls are under way at the same time, and
between two statements of one of them the others go on.

`Locked.run_explained`: if no body changes what the tests read, every such run is explained by the sequential
object, whose methods run without interruption, and while nobody holds the lock the memory is that of the
sequential object.
-/

namespace TecnicoFs
namespace Lib

universe u v w x

/-- The methods of an object: the test made without the lock, and the body under it. -/
structure Locked (σ : Type u) (β : Type v) (ρ : Type) where
  early : β → σ → Option ρ
  body : β → Code σ ρ

namespace Locked

variable {σ : Type u} {β : Type v} {ρ : Type} {γ : Type w} {ι : Type x}

/-- The object used by one party only. -/
def sequential (L : Locked σ β ρ) : Machine σ β ρ where
  exec b s := (L.early b s).elim ((L.body b).run s) fun r => some (r, s)

/-- How far a call has come. -/
inductive Stage (σ : Type u) (β : Type v) (ρ : Type)
  | fresh
  | called (b : β)
  | waiting (b : β)
  | inside (b : β) (rest : Code σ ρ)
  | answered (b : β) (r : ρ)
  | done (b : β) (r : ρ)

namespace Stage

def call : Stage σ β ρ → Option β
  | fresh => none
  | called b => some b
  | waiting b => some b
  | inside b _ => some b
  | answered b _ => some b
  | done b _ => some b

/-- The call and its answer, once it has one. -/
def outcome : Stage σ β ρ → Option (β × ρ)
  | fresh => none
  | called _ => none
  | waiting _ => none
  | inside _ _ => none
  | answered b r => some (b, r)
  | done b r => some (b, r)

end Stage

/-- The memory, the call that holds the lock, and all the calls. -/
structure World (σ : Type u) (β : Type v) (ρ : Type) (ι : Type x) where
  memory : σ
  holder : Option ι
  stage : ι → Stage σ β ρ

inductive Label (β : Type v) (ι : Type x)
  | call (i : ι) (b : β)
  | test (i : ι)
  | lock (i : ι)
  | statement (i : ι)
  | unlock (i : ι)
  | reply (i : ι)

variable [DecidableEq ι]

/-- The call `i` comes to the stage `q`. -/
def World.goto (w : World σ β ρ ι) (i : ι) (q : Stage σ β ρ) : World σ β ρ ι :=
  { w with stage := Function.update w.stage i q }

inductive Step (L : Locked σ β ρ) : World σ β ρ ι → Label β ι → World σ β ρ ι → Prop
  | call {w : World σ β ρ ι} {i : ι} {b : β} :
      w.stage i = .fresh → Step L w (.call i b) (w.goto i (.called b))
  | refuse {w : World σ β ρ ι} {i : ι} {b : β} {r : ρ} :
      w.stage i = .called b → L.early b w.memory = some r →
      Step L w (.test i) (w.goto i (.answered b r))
  | pass {w : World σ β ρ ι} {i : ι} {b : β} :
      w.stage i = .called b → L.early b w.memory = none → Step L w (.test i) (w.goto i (.waiting b))
  | lock {w : World σ β ρ ι} {i : ι} {b : β} :
      w.stage i = .waiting b → w.holder = none →
      Step L w (.lock i) { w.goto i (.inside b (L.body b)) with holder := some i }
  | statement {w : World σ β ρ ι} {i : ι} {b : β} {effect : σ → σ} {next : σ → Code σ ρ} :
      w.stage i = .inside b (.step effect next) →
      Step L w (.statement i) { w.goto i (.inside b (next w.memory)) with memory := effect w.memory }
  | unlock {w : World σ β ρ ι} {i : ι} {b : β} {r : ρ} :
      w.stage i = .inside b (.ret r) →
      Step L w (.unlock i) { w.goto i (.answered b r) with holder := none }
  | reply {w : World σ β ρ ι} {i : ι} {b : β} {r : ρ} :
      w.stage i = .answered b r → Step L w (.reply i) (w.goto i (.done b r))

/-- Take one step, for runs that are evaluated. -/
def perform (L : Locked σ β ρ) : Label β ι → World σ β ρ ι → Option (World σ β ρ ι)
  | .call i b, w =>
      match w.stage i with
      | .fresh => some (w.goto i (.called b))
      | _ => none
  | .test i, w =>
      match w.stage i with
      | .called b =>
          match L.early b w.memory with
          | some r => some (w.goto i (.answered b r))
          | none => some (w.goto i (.waiting b))
      | _ => none
  | .lock i, w =>
      match w.stage i, w.holder with
      | .waiting b, none => some { w.goto i (.inside b (L.body b)) with holder := some i }
      | _, _ => none
  | .statement i, w =>
      match w.stage i with
      | .inside b (.step effect next) =>
          some { w.goto i (.inside b (next w.memory)) with memory := effect w.memory }
      | _ => none
  | .unlock i, w =>
      match w.stage i with
      | .inside b (.ret r) => some { w.goto i (.answered b r) with holder := none }
      | _ => none
  | .reply i, w =>
      match w.stage i with
      | .answered b r => some (w.goto i (.done b r))
      | _ => none

theorem step_of_perform {L : Locked σ β ρ} {a : Label β ι} {w w' : World σ β ρ ι}
    (hw : L.perform a w = some w') : Step L w a w' := by
  cases a with
  | call i b =>
      rcases hi : w.stage i with _ | _ | _ | _ | _ | _ <;> simp only [perform, hi] at hw <;> cases hw
      exact .call hi
  | test i =>
      rcases hi : w.stage i with _ | b | _ | _ | _ | _ <;> simp only [perform, hi] at hw <;> try cases hw
      rcases htest : L.early b w.memory with _ | r
      · rw [htest] at hw
        cases hw
        exact .pass hi htest
      · rw [htest] at hw
        cases hw
        exact .refuse hi htest
  | lock i =>
      rcases hi : w.stage i with _ | _ | b | _ | _ | _ <;> simp only [perform, hi] at hw <;> try cases hw
      rcases hfree : w.holder with _ | j
      · rw [hfree] at hw
        cases hw
        exact .lock hi hfree
      · rw [hfree] at hw
        cases hw
  | statement i =>
      rcases hi : w.stage i with _ | _ | _ | ⟨b, _ | _ | _⟩ | _ | _ <;> simp only [perform, hi] at hw <;>
        cases hw
      exact .statement hi
  | unlock i =>
      rcases hi : w.stage i with _ | _ | _ | ⟨b, _ | _ | _⟩ | _ | _ <;> simp only [perform, hi] at hw <;>
        cases hw
      exact .unlock hi
  | reply i =>
      rcases hi : w.stage i with _ | _ | _ | _ | _ | _ <;> simp only [perform, hi] at hw <;> cases hw
      exact .reply hi

/-- Any number of calls, from the memory `s₀`. -/
def callers (L : Locked σ β ρ) (ι : Type x) [DecidableEq ι] (s₀ : σ) :
    System (World σ β ρ ι) (Label β ι) where
  init w := w.memory = s₀ ∧ w.holder = none ∧ ∀ i, w.stage i = .fresh
  step := Step L

/-- A call takes effect when its test answers it, or when it releases the lock. -/
def observer (L : Locked σ β ρ) (ι : Type x) :
    System.Observer (World σ β ρ ι) (Label β ι) ι β ρ where
  action w
    | .call i b => some (.invoke i b)
    | .reply i => (w.stage i).outcome.map fun x => .respond i x.2
    | _ => none
  event w
    | .test i => (w.stage i).call.bind fun b => (L.early b w.memory).map fun r => ⟨i, b, r⟩
    | .unlock i =>
        match w.stage i with
        | .inside b (.ret r) => some ⟨i, b, r⟩
        | _ => none
    | _ => none

/-! ## What has been seen of each call -/

section Seen

variable {L : Locked σ β ρ} {s₀ : σ} {h : List (World σ β ρ ι × Label β ι)} {w w' : World σ β ρ ι}
variable {a : Label β ι} {i j : ι} {q : Stage σ β ρ}

theorem World.stage_goto : (w.goto i q).stage j = if j = i then q else w.stage j :=
  Function.update_apply w.stage i q j

/-- What the new stage of `i` has in common with the old one is unchanged for every call. -/
theorem World.stage_goto_congr {κ : Type*} {f : Stage σ β ρ → κ} (hq : f q = f (w.stage i)) (j : ι) :
    f ((w.goto i q).stage j) = f (w.stage j) := by
  rw [World.stage_goto]
  split
  · next hj => rw [hj, hq]
  · rfl

/-- The run has shown just what the stages of the calls tell. -/
structure Seen (L : Locked σ β ρ) (h : List (World σ β ρ ι × Label β ι)) (w : World σ β ρ ι) : Prop where
  invoked : ∀ i b, .invoke i b ∈ (L.observer ι).history h ↔ (w.stage i).call = some b
  performed : ∀ e, e ∈ (L.observer ι).order h ↔ (w.stage e.tag).outcome = some (e.call, e.reply)

omit [DecidableEq ι] in
/-- A step that shows no new call and performs none, and leaves the others' stages alone. -/
theorem Seen.silent (hs : Seen L h w) (hi : ∀ j, (w'.stage j).call = (w.stage j).call)
    (ho : ∀ j, (w'.stage j).outcome = (w.stage j).outcome)
    (ha : ∀ j b, (L.observer ι).action w a ≠ some (.invoke j b))
    (he : (L.observer ι).event w a = none) : Seen L ((w, a) :: h) w' where
  invoked j b := by
    rw [hi, ← hs.invoked]
    rcases haction : (L.observer ι).action w a with _ | y
    · rw [System.Observer.history_of_none haction]
    · rw [System.Observer.history_of_some haction, List.mem_append, List.mem_singleton]
      refine or_iff_left ?_
      rintro rfl
      exact ha j b haction
  performed e := by
    rw [System.Observer.order_of_none he, ho]
    exact hs.performed e

/-- A step that performs the call `i`. -/
theorem Seen.perform (hs : Seen L h w) {b : β} {r : ρ} (hcall : (w.stage i).call = some b)
    (hopen : (w.stage i).outcome = none) (hw : w'.stage = (w.goto i (.answered b r)).stage)
    (ha : (L.observer ι).action w a = none) (he : (L.observer ι).event w a = some ⟨i, b, r⟩) :
    Seen L ((w, a) :: h) w' where
  invoked j b' := by
    rw [System.Observer.history_of_none ha, hs.invoked, hw, World.stage_goto]
    split
    · next hj => rw [hj, hcall, Stage.call]
    · rfl
  performed e := by
    rw [System.Observer.order_of_some he, List.mem_append, List.mem_singleton, hs.performed, hw,
      World.stage_goto]
    by_cases hj : e.tag = i
    · rw [if_pos hj, hj, hopen, Stage.outcome]
      constructor
      · rintro (hnone | rfl)
        · cases hnone
        · rfl
      · intro hsome
        right
        cases hsome
        cases e
        cases hj
        rfl
    · rw [if_neg hj]
      refine or_iff_left ?_
      rintro rfl
      exact hj rfl

theorem Seen.step (hs : Seen L h w) (hst : Step L w a w') : Seen L ((w, a) :: h) w' := by
  cases hst with
  | @call i b hfresh =>
      have haction : (L.observer ι).action w (.call i b) = some (.invoke i b) := rfl
      have hevent : (L.observer ι).event w (.call i b) = none := rfl
      refine ⟨?_, ?_⟩
      · intro j b'
        rw [System.Observer.history_of_some haction, List.mem_append, List.mem_singleton, hs.invoked,
          World.stage_goto]
        by_cases hj : j = i
        · rw [if_pos hj, hj, hfresh]
          simp [Stage.call, eq_comm]
        · rw [if_neg hj]
          refine or_iff_left ?_
          rintro heq
          cases heq
          exact hj rfl
      · intro e
        rw [System.Observer.order_of_none hevent, hs.performed, World.stage_goto]
        split
        · next hj => rw [hj, hfresh, Stage.outcome, Stage.outcome]
        · rfl
  | @refuse i b r hcalled hearly =>
      -- a call that is refused takes effect at its test
      exact hs.perform (by rw [hcalled, Stage.call]) (by rw [hcalled, Stage.outcome]) rfl rfl
        (by simp [observer, hcalled, Stage.call, hearly])
  | @pass i b hcalled hearly =>
      refine hs.silent ?_ ?_ (fun _ _ hnone => nomatch hnone)
        (by simp [observer, hcalled, Stage.call, hearly])
      · exact World.stage_goto_congr (by rw [hcalled, Stage.call, Stage.call])
      · exact World.stage_goto_congr (by rw [hcalled, Stage.outcome, Stage.outcome])
  | @lock i b hwaiting hfree =>
      refine hs.silent ?_ ?_ (fun _ _ hnone => nomatch hnone) rfl
      · exact World.stage_goto_congr (by rw [hwaiting, Stage.call, Stage.call])
      · exact World.stage_goto_congr (by rw [hwaiting, Stage.outcome, Stage.outcome])
  | @statement i b effect next hinside =>
      refine hs.silent ?_ ?_ (fun _ _ hnone => nomatch hnone) rfl
      · exact World.stage_goto_congr (by rw [hinside, Stage.call, Stage.call])
      · exact World.stage_goto_congr (by rw [hinside, Stage.outcome, Stage.outcome])
  | @unlock i b r hinside =>
      -- a call with the lock takes effect when it gives the lock back
      exact hs.perform (by rw [hinside, Stage.call]) (by rw [hinside, Stage.outcome]) rfl rfl
        (by simp [observer, hinside])
  | @reply i b r hanswered =>
      refine hs.silent ?_ ?_ (by simp [observer, hanswered, Stage.outcome]) rfl
      · exact World.stage_goto_congr (by rw [hanswered, Stage.call, Stage.call])
      · exact World.stage_goto_congr (by rw [hanswered, Stage.outcome, Stage.outcome])

theorem seen_of_execution (he : (L.callers ι s₀).Execution h w) : Seen L h w := by
  induction he with
  | start h0 =>
      refine ⟨?_, ?_⟩
      · intro i b
        rw [h0.2.2 i]
        simp [Stage.call]
      · intro e
        rw [h0.2.2 e.tag]
        simp [Stage.outcome]
  | next _ hst ih => exact ih.step hst

/-- A call that takes effect was made and has had no answer. -/
theorem step_event {e : Event ι β ρ} (hst : Step L w a w') (he : (L.observer ι).event w a = some e) :
    (w.stage e.tag).call = some e.call ∧ (w.stage e.tag).outcome = none := by
  cases hst with
  | @refuse i b r hcalled hearly =>
      have hshown : some (⟨i, b, r⟩ : Event ι β ρ) = some e := by
        simpa [observer, hcalled, Stage.call, hearly] using he
      cases hshown
      rw [hcalled]
      exact ⟨rfl, rfl⟩
  | @pass i b hcalled hearly => simp [observer, hcalled, Stage.call, hearly] at he
  | @unlock i b r hinside =>
      have hshown : some (⟨i, b, r⟩ : Event ι β ρ) = some e := by
        simpa [observer, hinside] using he
      cases hshown
      rw [hinside]
      exact ⟨rfl, rfl⟩
  | call _ => cases he
  | lock _ _ => cases he
  | statement _ => cases he
  | reply _ => cases he

theorem observer_faithful : (L.observer ι).Faithful (L.callers ι s₀) where
  fresh h w a w' y b he hst haction b' hmem := by
    have hcall := ((seen_of_execution he).invoked y b').1 hmem
    cases hst with
    | call hfresh =>
        cases haction
        rw [hfresh] at hcall
        cases hcall
    | reply hanswered => simp [observer, hanswered, Stage.outcome] at haction
    | refuse _ _ => cases haction
    | pass _ _ => cases haction
    | lock _ _ => cases haction
    | statement _ => cases haction
    | unlock _ => cases haction
  performed h w a w' y r he hst haction := by
    cases hst with
    | @reply i b r' hanswered =>
        have hshown : some (Action.respond i r' : Action ι β ρ) = some (.respond y r) := by
          simpa [observer, hanswered, Stage.outcome] using haction
        cases hshown
        refine ⟨⟨_, b, _⟩, ?_, rfl, rfl⟩
        rw [(seen_of_execution he).performed, hanswered, Stage.outcome]
    | call _ => cases haction
    | refuse _ _ => cases haction
    | pass _ _ => cases haction
    | lock _ _ => cases haction
    | statement _ => cases haction
    | unlock _ => cases haction
  invoked h w a w' e he hst hevent := by
    rw [(seen_of_execution he).invoked]
    exact (step_event hst hevent).1
  once h w a w' e he hst hevent hperformed := by
    rcases List.mem_map.1 hperformed with ⟨e', he', htag⟩
    have houtcome := ((seen_of_execution he).performed e').1 he'
    rw [htag, (step_event hst hevent).2] at houtcome
    cases houtcome

end Seen

/-! ## The rule -/

section Rule

variable {L : Locked σ β ρ} {φ : σ → γ} {s₀ x : σ} {h : List (World σ β ρ ι × Label β ι)}
variable {w w' : World σ β ρ ι} {a : Label β ι}

/-- The state `x` of the sequential object that stands for the world `w`. -/
structure Explains (L : Locked σ β ρ) (φ : σ → γ) (w : World σ β ρ ι) (x : σ) : Prop where
  free : w.holder = none → w.memory = x
  view : φ w.memory = φ x
  passed : ∀ i b, w.stage i = .waiting b → L.early b x = none
  /-- The body that is under way will do the rest of what it would have done alone. -/
  inside : ∀ i b rest, w.stage i = .inside b rest →
    w.holder = some i ∧ L.early b x = none ∧ rest.Keeps φ ∧ rest.run w.memory = (L.body b).run x

/-- A call that does not touch the memory or the lock. -/
theorem Explains.goto {i : ι} {q : Stage σ β ρ} (hx : L.Explains φ w x)
    (hpassed : ∀ b, q = .waiting b → L.early b x = none) (hinside : ∀ b rest, q ≠ .inside b rest) :
    L.Explains φ (w.goto i q) x where
  free := hx.free
  view := hx.view
  passed j b hj := by
    rw [World.stage_goto] at hj
    split at hj
    · exact hpassed b hj
    · exact hx.passed j b hj
  inside j b rest hj := by
    rw [World.stage_goto] at hj
    split at hj
    · exact absurd hj (hinside b rest)
    · exact hx.inside j b rest hj

omit [DecidableEq ι] in
/-- Nobody else is inside with the holder of the lock. -/
theorem Explains.eq_holder {i j : ι} {b : β} {rest : Code σ ρ} (hx : L.Explains φ w x)
    (hi : w.holder = some i) (hj : w.stage j = .inside b rest) : j = i := by
  have hholder := (hx.inside j b rest hj).1
  rw [hi] at hholder
  exact (Option.some.inj hholder).symm

theorem Explains.lock {i : ι} {b : β} (hbody : (L.body b).Keeps φ) (hx : L.Explains φ w x)
    (hi : w.stage i = .waiting b) (hfree : w.holder = none) :
    L.Explains φ { w.goto i (.inside b (L.body b)) with holder := some i } x where
  free hnone := nomatch hnone
  view := hx.view
  passed j b' hj := by
    change (w.goto i _).stage j = _ at hj
    rw [World.stage_goto] at hj
    split at hj
    · cases hj
    · exact hx.passed j b' hj
  inside j b' rest hj := by
    change (w.goto i _).stage j = _ at hj
    rw [World.stage_goto] at hj
    split at hj
    · next hji =>
        cases hj
        refine ⟨by rw [hji], hx.passed i b hi, hbody, ?_⟩
        change (L.body b).run w.memory = _
        rw [hx.free hfree]
    · have hholder := (hx.inside j b' rest hj).1
      rw [hfree] at hholder
      cases hholder

theorem Explains.statement {i : ι} {b : β} {effect : σ → σ} {next : σ → Code σ ρ}
    (hx : L.Explains φ w x) (hi : w.stage i = .inside b (.step effect next)) :
    L.Explains φ { w.goto i (.inside b (next w.memory)) with memory := effect w.memory } x := by
  rcases hx.inside i b _ hi with ⟨hholder, htest, hkeeps, hrun⟩
  refine ⟨?_, ?_, ?_, ?_⟩
  · intro hnone
    change w.holder = none at hnone
    rw [hholder] at hnone
    cases hnone
  · change φ (effect w.memory) = φ x
    rw [(hkeeps w.memory).1, hx.view]
  · intro j b' hj
    change (w.goto i _).stage j = _ at hj
    rw [World.stage_goto] at hj
    split at hj
    · cases hj
    · exact hx.passed j b' hj
  · intro j b' rest hj
    change (w.goto i _).stage j = _ at hj
    rw [World.stage_goto] at hj
    split at hj
    · next hji =>
        cases hj
        exact ⟨by rw [hji]; exact hholder, htest, (hkeeps w.memory).2, hrun⟩
    · next hji => exact absurd (hx.eq_holder hholder hj) hji

variable (hbody : ∀ b, (L.body b).Keeps φ) (hearly : ∀ b s t, φ s = φ t → L.early b s = L.early b t)

include hbody hearly

/-- Steps that perform no call leave the sequential object where it is. -/
theorem Explains.silent (hx : L.Explains φ w x) (hst : Step L w a w')
    (he : (L.observer ι).event w a = none) : L.Explains φ w' x := by
  cases hst with
  | call hfresh => exact hx.goto (fun _ h => nomatch h) fun _ _ h => nomatch h
  | refuse hcalled htest => simp [observer, hcalled, Stage.call, htest] at he
  | @pass i b hcalled htest =>
      refine hx.goto ?_ fun _ _ h => nomatch h
      intro b' hb
      cases hb
      rw [← hearly b _ _ hx.view]
      exact htest
  | lock hwaiting hfree => exact hx.lock (hbody _) hwaiting hfree
  | statement hinside => exact hx.statement hinside
  | unlock hinside => simp [observer, hinside] at he
  | reply hanswered => exact hx.goto (fun _ h => nomatch h) fun _ _ h => nomatch h

omit hbody in
/-- A call that takes effect does so in the sequential object. -/
theorem Explains.perform {e : Event ι β ρ} (hx : L.Explains φ w x) (hst : Step L w a w')
    (he : (L.observer ι).event w a = some e) :
    ∃ y, L.sequential.exec e.call x = some (e.reply, y) ∧ L.Explains φ w' y := by
  cases hst with
  | @refuse i b r hcalled htest =>
      have hshown : some (⟨i, b, r⟩ : Event ι β ρ) = some e := by
        simpa [observer, hcalled, Stage.call, htest] using he
      cases hshown
      refine ⟨x, ?_, hx.goto (fun _ h => nomatch h) fun _ _ h => nomatch h⟩
      rw [hearly b _ _ hx.view] at htest
      simp [sequential, htest]
  | @unlock i b r hinside =>
      have hshown : some (⟨i, b, r⟩ : Event ι β ρ) = some e := by
        simpa [observer, hinside] using he
      cases hshown
      -- the body has done on the memory what the sequential call does
      rcases hx.inside i b _ hinside with ⟨hholder, htest, _, hrun⟩
      refine ⟨w.memory, ?_, fun _ => rfl, rfl, ?_, ?_⟩
      · simp [sequential, htest, ← hrun]
      · intro j b' hj
        change (w.goto i _).stage j = _ at hj
        rw [World.stage_goto] at hj
        split at hj
        · cases hj
        · rw [hearly b' _ _ hx.view]
          exact hx.passed j b' hj
      · intro j b' rest hj
        change (w.goto i _).stage j = _ at hj
        rw [World.stage_goto] at hj
        split at hj
        · cases hj
        · next hji => exact absurd (hx.eq_holder hholder hj) hji
  | pass hcalled htest => simp [observer, hcalled, Stage.call, htest] at he
  | call _ => cases he
  | lock _ _ => cases he
  | statement _ => cases he
  | reply _ => cases he

/-- **Critical sections are atomic.** -/
theorem run_explained (he : (L.callers ι s₀).Execution h w) :
    Linearizes L.sequential s₀ ((L.observer ι).history h) ((L.observer ι).order h) ∧
      ∃ x, L.sequential.run (((L.observer ι).order h).map Event.call) s₀ =
        some (((L.observer ι).order h).map Event.reply, x) ∧ L.Explains φ w x := by
  have hany : L.sequential.RunOk (fun _ _ => True) (((L.observer ι).order h).map Event.call) s₀ :=
    Machine.runOk_of_forall (fun _ _ => trivial) _ s₀
  refine System.Execution.linearizes (R := L.Explains φ) observer_faithful ?_ ?_ ?_ he hany
  · rintro w ⟨hmem, hfree, hstage⟩
    refine ⟨fun _ => hmem, by rw [hmem], ?_, ?_⟩
    · intro i b hi
      rw [hstage i] at hi
      cases hi
    · intro i b rest hi
      rw [hstage i] at hi
      cases hi
  · intro h w a w' x _ hst hevent hx
    exact hx.silent hbody hearly hst hevent
  · intro h w a w' e x _ hst hevent _ hx
    exact hx.perform hearly hst hevent

end Rule

end Locked

end Lib
end TecnicoFs
