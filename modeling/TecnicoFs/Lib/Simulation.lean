import Mathlib.Data.List.Forall2
import TecnicoFs.Lib.Linearizability

/-!
# Simulation — runs of one system followed by another

A relation between the states of two systems that every step of the first can follow in the second
turns each run of the first into a run of the second, step for step. What an observer sees of the first
run is then what another sees of the second, up to a translation of the replies.
-/

namespace TecnicoFs
namespace Lib

universe u u' v v' w w' x y

/-! ## Runs -/

namespace System

variable {σ : Type u} {τ : Type u'} {α : Type v} {β : Type v'}

/-- A run of `M` is followed by a run of `N`; `Q` tells what corresponding steps have in common. -/
theorem Execution.simulates {M : System σ α} {N : System τ β} {R : σ → τ → Prop}
    {Q : σ × α → τ × β → Prop} (hinit : ∀ s, M.init s → ∃ t, N.init t ∧ R s t)
    (hstep : ∀ h' s t a s', N.Execution h' t → R s t → M.step s a s' →
      ∃ b t', N.step t b t' ∧ R s' t' ∧ Q (s, a) (t, b))
    {h : List (σ × α)} {s : σ} (he : M.Execution h s) :
    ∃ h' t, N.Execution h' t ∧ R s t ∧ List.Forall₂ Q h h' := by
  induction he with
  | start h0 =>
      rcases hinit _ h0 with ⟨t, ht, hR⟩
      exact ⟨[], t, .start ht, hR, .nil⟩
  | next _ hst ih =>
      rcases ih with ⟨h', t, he', hR, hQ⟩
      rcases hstep h' _ t _ _ he' hR hst with ⟨b, t', hst', hR', hq⟩
      exact ⟨(t, b) :: h', t', he'.next hst', hR', .cons hq hQ⟩

end System

/-! ## Translated replies -/

section Replies

variable {σ : Type u} {τ : Type x} {β : Type v} {ρ : Type w} {ρ' : Type w'}

def Action.mapReply (f : ρ → ρ') : Action τ β ρ → Action τ β ρ'
  | .invoke t b => .invoke t b
  | .respond t r => .respond t (f r)

def Event.mapReply (f : ρ → ρ') (e : Event τ β ρ) : Event τ β ρ' :=
  ⟨e.tag, e.call, f e.reply⟩

/-- The machine with its replies translated. -/
def Machine.mapReply (N : Machine σ β ρ) (f : ρ → ρ') : Machine σ β ρ' where
  exec b s := (N.exec b s).map fun z => (f z.1, z.2)

variable {N : Machine σ β ρ} {f : ρ → ρ'}

theorem Machine.run_mapReply {bs : List β} {rs : List ρ} :
    ∀ {s t : σ}, N.run bs s = some (rs, t) → (N.mapReply f).run bs s = some (rs.map f, t) := by
  induction bs generalizing rs with
  | nil =>
      intro s t hrun
      rcases Prod.mk.inj (Option.some.inj hrun) with ⟨rfl, rfl⟩
      rfl
  | cons b bs ih =>
      intro s t hrun
      rcases Machine.run_cons_eq hrun with ⟨r, u, rs', hexec, hrest, rfl⟩
      have hfirst : (N.mapReply f).exec b s = some (f r, u) := by
        simp [Machine.mapReply, hexec]
      rw [Machine.run, hfirst, Option.bind_some, ih hrest]
      rfl

theorem Machine.RunOk.of_mapReply {ok : σ → β → Prop} {bs : List β} :
    ∀ {s : σ}, (N.mapReply f).RunOk ok bs s → N.RunOk ok bs s := by
  induction bs with
  | nil => exact fun _ => trivial
  | cons b bs ih =>
      intro s h
      refine ⟨h.1, ?_⟩
      intro r t hexec
      exact ih (h.2 (f r) t (by simp [Machine.mapReply, hexec]))

theorem map_tag_mapReply (es : List (Event τ β ρ)) :
    (es.map (Event.mapReply f)).map Event.tag = es.map Event.tag := by
  rw [List.map_map]
  rfl

/-- A linearizable history stays one when its replies are translated. -/
theorem Linearizes.mapReply {x₀ : σ} {H : List (Action τ β ρ)} {es : List (Event τ β ρ)}
    (h : Linearizes N x₀ H es) :
    Linearizes (N.mapReply f) x₀ (H.map (Action.mapReply f)) (es.map (Event.mapReply f)) where
  explained := by
    rcases h.explained with ⟨z, hrun⟩
    refine ⟨z, ?_⟩
    have htranslated := Machine.run_mapReply (f := f) hrun
    rw [List.map_map] at htranslated ⊢
    rw [List.map_map]
    exact htranslated
  once := by
    rw [map_tag_mapReply]
    exact h.once
  invoked := by
    intro e he
    rcases List.mem_map.1 he with ⟨e', he', rfl⟩
    exact List.mem_map.2 ⟨_, h.invoked e' he', rfl⟩
  responded := by
    intro t r hmem
    rcases List.mem_map.1 hmem with ⟨z, hz, htranslated⟩
    cases z with
    | invoke t' b => cases htranslated
    | respond t' r' =>
        rcases Action.respond.inj htranslated with ⟨rfl, rfl⟩
        rcases h.responded _ _ hz with ⟨e, he, htag, hreply⟩
        exact ⟨_, List.mem_map.2 ⟨e, he, rfl⟩, htag, congrArg f hreply⟩
  realTime := by
    rintro t t' ⟨H₁, H₂, r, b, hH, hr⟩ hmem
    rw [map_tag_mapReply] at hmem
    -- the two parts of the translated history are translations
    rcases List.map_eq_append_iff.1 hH with ⟨K₁, K₂, rfl, rfl, hK₂⟩
    rcases List.map_eq_cons_iff.1 hK₂ with ⟨z, K₃, rfl, hz, _⟩
    rcases List.mem_map.1 hr with ⟨z', hz', htranslated⟩
    have hbefore : RespondsBefore (K₁ ++ z :: K₃) t t' := by
      cases z with
      | respond t₁ r₁ => cases hz
      | invoke t₁ b₁ =>
          cases z' with
          | invoke t₂ b₂ => cases htranslated
          | respond t₂ r₂ =>
              rcases Action.invoke.inj hz with ⟨rfl, rfl⟩
              rcases Action.respond.inj htranslated with ⟨rfl, _⟩
              exact ⟨K₁, K₃, r₂, _, rfl, hz'⟩
    rcases h.realTime t t' hbefore hmem with ⟨es₁, es₂, rfl, h₁, h₂⟩
    refine ⟨es₁.map (Event.mapReply f), es₂.map (Event.mapReply f), List.map_append, ?_, ?_⟩
    · rwa [map_tag_mapReply]
    · rwa [map_tag_mapReply]

end Replies

/-! ## Corresponding observers -/

theorem filterMap_of_forall₂ {α : Type u} {β : Type u'} {γ : Type v} {δ : Type v'}
    {f : α → Option γ} {g : β → Option δ} {k : δ → γ} {l : List α} {l' : List β}
    (h : List.Forall₂ (fun a b => f a = (g b).map k) l l') :
    l.filterMap f = (l'.filterMap g).map k := by
  induction h with
  | nil => rfl
  | @cons a b l l' hab _ ih =>
      rcases hg : g b with _ | z
      · rw [hg] at hab
        rw [List.filterMap_cons_none hab, List.filterMap_cons_none hg]
        exact ih
      · rw [hg] at hab
        rw [List.filterMap_cons_some hab, List.filterMap_cons_some hg, List.map_cons, ih]

namespace System

variable {σ : Type u} {σ' : Type u'} {α : Type v} {α' : Type v'} {τ : Type x} {β : Type y}
variable {ρ : Type w} {ρ' : Type w'}

/-- The observers see the same in the two steps. -/
def SeesAlike (O : Observer σ α τ β ρ') (O' : Observer σ' α' τ β ρ) (f : ρ → ρ') (p : σ × α)
    (q : σ' × α') : Prop :=
  O.action p.1 p.2 = (O'.action q.1 q.2).map (Action.mapReply f) ∧
    O.event p.1 p.2 = (O'.event q.1 q.2).map (Event.mapReply f)

variable {O : Observer σ α τ β ρ'} {O' : Observer σ' α' τ β ρ} {f : ρ → ρ'}
variable {h : List (σ × α)} {h' : List (σ' × α')}

theorem history_of_seesAlike (hs : List.Forall₂ (SeesAlike O O' f) h h') :
    O.history h = (O'.history h').map (Action.mapReply f) := by
  rw [Observer.history, Observer.history, List.map_reverse,
    filterMap_of_forall₂ (hs.imp fun _ _ hpq => hpq.1)]

theorem order_of_seesAlike (hs : List.Forall₂ (SeesAlike O O' f) h h') :
    O.order h = (O'.order h').map (Event.mapReply f) := by
  rw [Observer.order, Observer.order, List.map_reverse,
    filterMap_of_forall₂ (hs.imp fun _ _ hpq => hpq.2)]

end System

end Lib
end TecnicoFs
