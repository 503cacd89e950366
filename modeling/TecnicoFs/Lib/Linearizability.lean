import Mathlib.Data.List.Nodup
import TecnicoFs.Lib.Transition

/-!
# Linearizability — runs that a sequential machine explains

A run is seen at its interface through the calls that are made and the replies that are given. It is
linearizable if the calls stand in one order which a sequential machine answers with the same replies,
and which keeps real time: a call that had its reply before another was made stands before it.

The rule of this module builds that order along the run. Every step performs one call at most, and it
performs it after the call was made and before its reply is given.
-/

namespace TecnicoFs
namespace Lib

universe u u' v v' w x

/-- What is seen of a call. -/
inductive Action (τ : Type x) (β : Type v) (ρ : Type w)
  | invoke (t : τ) (b : β)
  | respond (t : τ) (r : ρ)

/-- A call at the moment it takes effect, with the reply it will have. -/
structure Event (τ : Type x) (β : Type v) (ρ : Type w) where
  tag : τ
  call : β
  reply : ρ

section Orders

variable {σ' : Type u'} {τ : Type x} {β : Type v} {ρ : Type w}

/-- In the history `H`, call `t` had its reply when call `t'` was made. -/
def RespondsBefore (H : List (Action τ β ρ)) (t t' : τ) : Prop :=
  ∃ H₁ H₂ r b, H = H₁ ++ .invoke t' b :: H₂ ∧ .respond t r ∈ H₁

/-- Call `t` stands before call `t'` in the order `es`. -/
def Precedes (es : List (Event τ β ρ)) (t t' : τ) : Prop :=
  ∃ es₁ es₂, es = es₁ ++ es₂ ∧ t ∈ es₁.map Event.tag ∧ t' ∈ es₂.map Event.tag

theorem Precedes.append {es : List (Event τ β ρ)} {t t' : τ} (h : Precedes es t t')
    (later : List (Event τ β ρ)) : Precedes (es ++ later) t t' := by
  rcases h with ⟨es₁, es₂, rfl, ht, ht'⟩
  refine ⟨es₁, es₂ ++ later, by rw [List.append_assoc], ht, ?_⟩
  rw [List.map_append]
  exact List.mem_append_left _ ht'

/-- `es` explains the history `H` by a run of the machine `N` from `x₀`. -/
structure Linearizes (N : Machine σ' β ρ) (x₀ : σ') (H : List (Action τ β ρ))
    (es : List (Event τ β ρ)) : Prop where
  explained : ∃ x, N.run (es.map Event.call) x₀ = some (es.map Event.reply, x)
  once : (es.map Event.tag).Nodup
  invoked : ∀ e ∈ es, .invoke e.tag e.call ∈ H
  responded : ∀ t r, .respond t r ∈ H → ∃ e ∈ es, e.tag = t ∧ e.reply = r
  realTime : ∀ t t', RespondsBefore H t t' → t' ∈ es.map Event.tag → Precedes es t t'

end Orders

/-! ## Runs of a machine, from their end -/

namespace Machine

variable {σ' : Type u'} {β : Type v} {ρ : Type w} {N : Machine σ' β ρ}

theorem run_concat {bs : List β} {b : β} {rs : List ρ} {r : ρ} :
    ∀ {x y z : σ'}, N.run bs x = some (rs, y) → N.exec b y = some (r, z) →
      N.run (bs ++ [b]) x = some (rs ++ [r], z) := by
  induction bs generalizing rs with
  | nil =>
      intro x y z hrun hexec
      rcases Prod.mk.inj (Option.some.inj hrun) with ⟨rfl, rfl⟩
      simp [run, hexec]
  | cons a bs ih =>
      intro x y z hrun hexec
      rcases run_cons_eq hrun with ⟨r₁, u, rs₁, hfirst, hrest, rfl⟩
      have hlater := ih hrest hexec
      rw [List.cons_append, run, hfirst, Option.bind_some, hlater]
      rfl

theorem RunOk.of_concat {ok : σ' → β → Prop} {bs : List β} {b : β} :
    ∀ {x : σ'}, N.RunOk ok (bs ++ [b]) x →
      N.RunOk ok bs x ∧ ∀ rs y, N.run bs x = some (rs, y) → ok y b := by
  induction bs with
  | nil =>
      intro x h
      refine ⟨trivial, ?_⟩
      intro rs y hrun
      rcases Prod.mk.inj (Option.some.inj hrun) with ⟨_, rfl⟩
      exact h.1
  | cons a bs ih =>
      intro x h
      refine ⟨⟨h.1, fun r t hexec => (ih (h.2 r t hexec)).1⟩, ?_⟩
      intro rs y hrun
      rcases run_cons_eq hrun with ⟨r, t, rs₁, hexec, hrest, _⟩
      exact (ih (h.2 r t hexec)).2 rs₁ y hrest

end Machine

/-! ## The observation of a run -/

namespace System

variable {σ : Type u} {α : Type v'} {σ' : Type u'} {τ : Type x} {β : Type v} {ρ : Type w}

/-- How a step of a system is seen: what it shows at the interface, and the call that it performs. -/
structure Observer (σ : Type u) (α : Type v') (τ : Type x) (β : Type v) (ρ : Type w) where
  action : σ → α → Option (Action τ β ρ)
  event : σ → α → Option (Event τ β ρ)

namespace Observer

variable (O : Observer σ α τ β ρ)

/-- What was seen of a run, oldest first. -/
def history (h : List (σ × α)) : List (Action τ β ρ) :=
  (h.filterMap fun p => O.action p.1 p.2).reverse

/-- The calls that were performed, oldest first. -/
def order (h : List (σ × α)) : List (Event τ β ρ) :=
  (h.filterMap fun p => O.event p.1 p.2).reverse

variable {O} {h : List (σ × α)} {s : σ} {a : α}

@[simp] theorem history_nil : O.history [] = [] :=
  rfl

@[simp] theorem order_nil : O.order [] = [] :=
  rfl

theorem history_of_none (ha : O.action s a = none) : O.history ((s, a) :: h) = O.history h := by
  simp [history, ha]

theorem history_of_some {y : Action τ β ρ} (ha : O.action s a = some y) :
    O.history ((s, a) :: h) = O.history h ++ [y] := by
  simp [history, ha]

theorem order_of_none (he : O.event s a = none) : O.order ((s, a) :: h) = O.order h := by
  simp [order, he]

theorem order_of_some {e : Event τ β ρ} (he : O.event s a = some e) :
    O.order ((s, a) :: h) = O.order h ++ [e] := by
  simp [order, he]

theorem mem_history_cons {y : Action τ β ρ} (hy : y ∈ O.history h) :
    y ∈ O.history ((s, a) :: h) := by
  rcases ha : O.action s a with _ | z
  · rw [history_of_none ha]
    exact hy
  · rw [history_of_some ha]
    exact List.mem_append_left _ hy

theorem mem_order_cons {e : Event τ β ρ} (he : e ∈ O.order h) : e ∈ O.order ((s, a) :: h) := by
  rcases ha : O.event s a with _ | z
  · rw [order_of_none ha]
    exact he
  · rw [order_of_some ha]
    exact List.mem_append_left _ he

/-- The tag `t` was performed. -/
def Performed (O : Observer σ α τ β ρ) (h : List (σ × α)) (t : τ) : Prop :=
  t ∈ (O.order h).map Event.tag

/-- What a run owes to its observer, step by step. -/
structure Faithful (M : System σ α) : Prop where
  fresh : ∀ h s a t y b, M.Execution h s → M.step s a t → O.action s a = some (.invoke y b) →
    ∀ b', .invoke y b' ∉ O.history h
  performed : ∀ h s a t y r, M.Execution h s → M.step s a t → O.action s a = some (.respond y r) →
    ∃ e ∈ O.order h, e.tag = y ∧ e.reply = r
  invoked : ∀ h s a t e, M.Execution h s → M.step s a t → O.event s a = some e →
    .invoke e.tag e.call ∈ O.history h
  once : ∀ h s a t e, M.Execution h s → M.step s a t → O.event s a = some e →
    ¬ O.Performed h e.tag

end Observer

/-! ## The rule -/

section Rule

variable {M : System σ α} {O : Observer σ α τ β ρ} {N : Machine σ' β ρ} {x₀ : σ'}
variable {h : List (σ × α)} {s : σ}

theorem Observer.Faithful.invoked_of_mem (hO : O.Faithful M) (he : Execution M h s) :
    ∀ e ∈ O.order h, .invoke e.tag e.call ∈ O.history h := by
  induction he with
  | start _ =>
      intro e he
      cases he
  | @next h s t a he hst ih =>
      intro e hmem
      rcases hevent : O.event s a with _ | e'
      · rw [Observer.order_of_none hevent] at hmem
        exact Observer.mem_history_cons (ih e hmem)
      · rw [Observer.order_of_some hevent] at hmem
        rcases List.mem_append.1 hmem with hmem | hmem
        · exact Observer.mem_history_cons (ih e hmem)
        · rcases List.mem_singleton.1 hmem with rfl
          exact Observer.mem_history_cons (hO.invoked _ _ _ _ _ he hst hevent)

theorem Observer.Faithful.nodup (hO : O.Faithful M) (he : Execution M h s) :
    ((O.order h).map Event.tag).Nodup := by
  induction he with
  | start _ => exact List.nodup_nil
  | @next h s t a he hst ih =>
      rcases hevent : O.event s a with _ | e
      · rw [Observer.order_of_none hevent]
        exact ih
      · have hnew := hO.once _ _ _ _ _ he hst hevent
        rw [Observer.order_of_some hevent, List.map_append]
        refine List.nodup_append.2 ⟨ih, List.nodup_singleton _, ?_⟩
        rintro y hy z hz rfl
        rcases List.mem_singleton.1 hz with rfl
        exact hnew hy

theorem Observer.Faithful.responded (hO : O.Faithful M) (he : Execution M h s) :
    ∀ y r, .respond y r ∈ O.history h → ∃ e ∈ O.order h, e.tag = y ∧ e.reply = r := by
  induction he with
  | start _ =>
      intro y r hmem
      cases hmem
  | @next h s t a he hst ih =>
      intro y r hmem
      have hbefore : ∃ e ∈ O.order h, e.tag = y ∧ e.reply = r := by
        rcases haction : O.action s a with _ | z
        · rw [Observer.history_of_none haction] at hmem
          exact ih y r hmem
        · rw [Observer.history_of_some haction] at hmem
          rcases List.mem_append.1 hmem with hmem | hmem
          · exact ih y r hmem
          · rw [← List.mem_singleton.1 hmem] at haction
            exact hO.performed _ _ _ _ _ _ he hst haction
      rcases hbefore with ⟨e, he, htag, hreply⟩
      exact ⟨e, Observer.mem_order_cons he, htag, hreply⟩

/-- In a longer history a call is made after a reply if it was so before, or if the call is new. -/
theorem respondsBefore_concat {H : List (Action τ β ρ)} {y : Action τ β ρ} {t t' : τ}
    (hbefore : RespondsBefore (H ++ [y]) t t') :
    RespondsBefore H t t' ∨ ∃ b, y = .invoke t' b := by
  rcases hbefore with ⟨H₁, H₂, r, b, heq, hr⟩
  rcases List.eq_nil_or_concat H₂ with rfl | ⟨H₃, z, rfl⟩
  · right
    have hlast : [y] = [.invoke t' b] := List.append_inj_right' heq rfl
    exact ⟨b, List.singleton_inj.1 hlast⟩
  · left
    have hsplit : H ++ [y] = (H₁ ++ .invoke t' b :: H₃) ++ [z] := by
      simpa using heq
    exact ⟨H₁, H₃, r, b, List.append_inj_left' hsplit rfl, hr⟩

theorem Observer.Faithful.realTime (hO : O.Faithful M) (he : Execution M h s) :
    ∀ t t', RespondsBefore (O.history h) t t' → t' ∈ (O.order h).map Event.tag →
      Precedes (O.order h) t t' := by
  induction he with
  | start _ =>
      intro y y' _ hmem
      cases hmem
  | @next h s t a he hst ih =>
      intro y y' hbefore hmem
      -- a call that is made in this very step has not been performed yet
      have hold : RespondsBefore (O.history h) y y' := by
        rcases haction : O.action s a with _ | z
        · rw [Observer.history_of_none haction] at hbefore
          exact hbefore
        · rw [Observer.history_of_some haction] at hbefore
          rcases respondsBefore_concat hbefore with hold | ⟨b, rfl⟩
          · exact hold
          · have hfresh := hO.fresh _ _ _ _ _ _ he hst haction
            rcases hevent : O.event s a with _ | e
            · rw [Observer.order_of_none hevent] at hmem
              rcases List.mem_map.1 hmem with ⟨e, hmem', rfl⟩
              exact absurd (hO.invoked_of_mem he e hmem') (hfresh _)
            · rw [Observer.order_of_some hevent, List.map_append] at hmem
              rcases List.mem_append.1 hmem with hmem | hmem
              · rcases List.mem_map.1 hmem with ⟨e, hmem', rfl⟩
                exact absurd (hO.invoked_of_mem he e hmem') (hfresh _)
              · rcases List.mem_singleton.1 hmem with rfl
                exact absurd (hO.invoked _ _ _ _ _ he hst hevent) (hfresh _)
      rcases hevent : O.event s a with _ | e
      · rw [Observer.order_of_none hevent] at hmem ⊢
        exact ih y y' hold hmem
      · rw [Observer.order_of_some hevent] at hmem ⊢
        rw [List.map_append] at hmem
        rcases List.mem_append.1 hmem with hmem | hmem
        · exact (ih y y' hold hmem).append _
        · -- the call performed now stands last, the one with a reply stands before it
          rcases hold with ⟨H₁, H₂, r, b, hH, hr⟩
          have hr' : .respond y r ∈ O.history h := by
            rw [hH]
            exact List.mem_append_left _ hr
          rcases hO.responded he y r hr' with ⟨e', he', htag, _⟩
          exact ⟨O.order h, [e], rfl, List.mem_map.2 ⟨e', he', htag⟩, hmem⟩

/-- **The rule.** A faithful observer, and a relation to the states of `N` that every silent step
keeps and every performed call moves along with `N`, make a run linearizable. -/
theorem Execution.linearizes {R : σ → σ' → Prop} {ok : σ' → β → Prop} (hO : O.Faithful M)
    (hinit : ∀ s, M.init s → R s x₀)
    (hsilent : ∀ h s a t y, Execution M h s → M.step s a t → O.event s a = none → R s y → R t y)
    (hperform : ∀ h s a t e y, Execution M h s → M.step s a t → O.event s a = some e →
      ok y e.call → R s y → ∃ z, N.exec e.call y = some (e.reply, z) ∧ R t z)
    (he : Execution M h s) (hok : N.RunOk ok ((O.order h).map Event.call) x₀) :
    Linearizes N x₀ (O.history h) (O.order h) ∧
      ∃ y, N.run ((O.order h).map Event.call) x₀ = some ((O.order h).map Event.reply, y) ∧ R s y := by
  have hrun : ∃ y, N.run ((O.order h).map Event.call) x₀ =
      some ((O.order h).map Event.reply, y) ∧ R s y := by
    induction he with
    | start h0 => exact ⟨x₀, rfl, hinit _ h0⟩
    | @next h s t a he hst ih =>
        rcases hevent : O.event s a with _ | e
        · rw [Observer.order_of_none hevent] at hok ⊢
          rcases ih hok with ⟨y, hrun, hR⟩
          exact ⟨y, hrun, hsilent _ _ _ _ _ he hst hevent hR⟩
        · rw [Observer.order_of_some hevent, List.map_append, List.map_singleton] at hok ⊢
          rcases hok.of_concat with ⟨hbefore, hlast⟩
          rcases ih hbefore with ⟨y, hrun, hR⟩
          rcases hperform _ _ _ _ _ _ he hst hevent (hlast _ _ hrun) hR with ⟨z, hexec, hR'⟩
          refine ⟨z, ?_, hR'⟩
          rw [List.map_append, List.map_singleton]
          exact Machine.run_concat hrun hexec
  refine ⟨⟨?_, hO.nodup he, hO.invoked_of_mem he, hO.responded he, hO.realTime he⟩, hrun⟩
  rcases hrun with ⟨y, hrun, _⟩
  exact ⟨y, hrun⟩

end Rule

end System

end Lib
end TecnicoFs
