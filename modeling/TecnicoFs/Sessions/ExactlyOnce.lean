import Mathlib.Algebra.BigOperators.Group.Finset.Basic
import TecnicoFs.Sessions.Routing

/-!
# Exactly once — every request is performed once and answered on the pipe of its client

The histories of the state tell what was performed and written. The tags of the requests make "once"
a statement about them, and `Replays` ties the file system to them. A request that the server has not
settled yet keeps one of the server's threads able to move, and every such move brings the server
closer to rest.
-/

namespace TecnicoFs
namespace Sessions

open Lib Wire

universe u v

variable {σ : Type u} {ρ : Type v}

/-! ## The law -/

/-- The calls that `served` lists, made one after the other from `lib₀`, lead to `lib` and return the
replies of the list. -/
def Replays (exec : Operation → σ → ρ × σ) (lib₀ : σ) : List (Served ρ) → σ → Prop
  | [], lib => lib = lib₀
  | e :: rest, lib => ∃ before, Replays exec lib₀ rest before ∧
      match operation e.message.request with
      | none => lib = before
      | some op => e.reply = .library (exec op before).1 ∧ lib = (exec op before).2

/-- The worker is the one of the request's session, or of the session that a mount gets. -/
def Served.ByItsWorker (paths : ℕ → CString) (e : Served ρ) : Prop :=
  (e.message.request = .mount (paths e.message.client) ∧ e.reply = .mount e.worker) ∨
    e.message.request.sessionId = some (e.worker : ℤ)

/-- A reply to the message was written. -/
def Settled (w : World σ ρ) (m : Message) : Prop :=
  ∃ x ∈ w.written, x.tag = m.tag

/-- Requests are performed at most once, as they were sent, by the worker of their session; replies
are written at most once, as they were computed, to the pipe of the client that asked. -/
structure Law (exec : Operation → σ → ρ × σ) (paths : ℕ → CString) (lib₀ : σ) (w : World σ ρ) :
    Prop where
  sentOnce : (w.sent.map Message.tag).Nodup
  served : ∀ e ∈ w.served, e.message ∈ w.sent ∧ e.ByItsWorker paths
  refused : ∀ m ∈ w.refused, m ∈ w.sent ∧ m.request = .mount (paths m.client)
  once : (w.served.map (fun e => e.message.tag) ++ w.refused.map Message.tag).Nodup
  replays : Replays exec lib₀ w.served w.lib
  written : ∀ x ∈ w.written, x.path = paths x.tag.1 ∧
    ((∃ e ∈ w.served, e.message.tag = x.tag ∧ e.reply = x.reply) ∨
      (∃ m ∈ w.refused, m.tag = x.tag ∧ x.reply = .mount (-1)))
  writtenOnce : (w.written.map Written.tag).Nodup
  received : ∀ y ∈ w.received, y.1 ∈ w.sent ∧ ⟨paths y.1.client, y.1.tag, y.2⟩ ∈ w.written

/-! ## The histories and the places -/

/-- The law, with what the place of a client tells about its latest request. -/
structure Logged (exec : Operation → σ → ρ × σ) (paths : ℕ → CString) (lib₀ : σ) (w : World σ ρ)
    (place : ℕ → Place) : Prop where
  law : Law exec paths lib₀ w
  pending : ∀ c r, (w.client c).pending = some r → current w c r ∈ w.sent
  bound : ∀ m ∈ w.sent, m.number ≤ (w.client m.client).count
  performed : ∀ e ∈ w.served, e.message.number = (w.client e.message.client).count →
    (place e.message.client).performed = true
  refused : ∀ m ∈ w.refused, m.number = (w.client m.client).count →
    (place m.client).settled = true
  written : ∀ x ∈ w.written, x.tag.2 = (w.client x.tag.1).count → (place x.tag.1).settled = true
  settled : ∀ m ∈ w.sent,
    m.number < (w.client m.client).count ∨ (place m.client).settled = true → Settled w m

/-- The histories have not changed. -/
structure SameLog (w w' : World σ ρ) : Prop where
  lib : w'.lib = w.lib
  client : w'.client = w.client
  sent : w'.sent = w.sent
  served : w'.served = w.served
  refused : w'.refused = w.refused
  written : w'.written = w.written
  received : w'.received = w.received

section Steps

variable {exec : Operation → σ → ρ × σ} {paths : ℕ → CString} {lib₀ : σ} {w w' : World σ ρ}
variable {place place' : ℕ → Place} {c s : ℕ} {r : Request CString}

theorem Law.same (h : Law exec paths lib₀ w) (hs : SameLog w w') : Law exec paths lib₀ w' where
  sentOnce := by rw [hs.sent]; exact h.sentOnce
  served := by rw [hs.served, hs.sent]; exact h.served
  refused := by rw [hs.refused, hs.sent]; exact h.refused
  once := by rw [hs.served, hs.refused]; exact h.once
  replays := by rw [hs.served, hs.lib]; exact h.replays
  written := by rw [hs.written, hs.served, hs.refused]; exact h.written
  writtenOnce := by rw [hs.written]; exact h.writtenOnce
  received := by rw [hs.received, hs.sent, hs.written]; exact h.received

/-- A step that leaves the histories as they are, and every request as far as it was. -/
theorem Logged.same (h : Logged exec paths lib₀ w place) (hs : SameLog w w')
    (hperformed : ∀ u, (place' u).performed = (place u).performed)
    (hsettled : ∀ u, (place' u).settled = (place u).settled) :
    Logged exec paths lib₀ w' place' where
  law := h.law.same hs
  pending := by
    intro c r
    rw [current, hs.client, hs.sent]
    exact h.pending c r
  bound := by rw [hs.client, hs.sent]; exact h.bound
  performed := by
    intro e
    rw [hs.served, hs.client, hperformed]
    exact h.performed e
  refused := by
    intro m
    rw [hs.refused, hs.client, hsettled]
    exact h.refused m
  written := by
    intro x
    rw [hs.written, hs.client, hsettled]
    exact h.written x
  settled := by
    intro m
    rw [hs.sent, hs.client, hsettled, Settled, hs.written]
    exact h.settled m

/-- One request moves on, with no more done for it than before. -/
theorem Logged.moved (h : Logged exec paths lib₀ w place) (hs : SameLog w w') {p q : Place}
    (hplace : place c = p) (hperformed : q.performed = p.performed)
    (hsettled : q.settled = p.settled) :
    Logged exec paths lib₀ w' (Function.update place c q) := by
  refine h.same hs ?_ ?_
  · refine (Function.forall_update_iff place fun u x => x.performed = (place u).performed).2
      ⟨by rw [hplace, hperformed], fun _ _ => rfl⟩
  · refine (Function.forall_update_iff place fun u x => x.settled = (place u).settled).2
      ⟨by rw [hplace, hsettled], fun _ _ => rfl⟩

/-- A written reply is for a request that was sent. -/
theorem Law.written_sent (h : Law exec paths lib₀ w) {x : Written ρ} (hx : x ∈ w.written) :
    ∃ m ∈ w.sent, m.tag = x.tag := by
  rcases (h.written x hx).2 with ⟨e, he, htag, _⟩ | ⟨m, hm, htag, _⟩
  · exact ⟨e.message, (h.served e he).1, htag⟩
  · exact ⟨m, (h.refused m hm).1, htag⟩

/-- The tag of a client's latest request is not that of a performed one before it is performed. -/
theorem Logged.fresh_served (h : Logged exec paths lib₀ w place)
    (hplace : (place c).performed = false) :
    (c, (w.client c).count) ∉ w.served.map (fun e => e.message.tag) := by
  intro hmem
  rcases List.mem_map.1 hmem with ⟨e, he, htag⟩
  rcases Prod.mk.inj htag with ⟨hclient, hnumber⟩
  have hdone := h.performed e he (by rw [hclient]; exact hnumber)
  rw [hclient, hplace] at hdone
  cases hdone

theorem Logged.fresh_refused (h : Logged exec paths lib₀ w place)
    (hplace : (place c).settled = false) :
    (c, (w.client c).count) ∉ w.refused.map Message.tag := by
  intro hmem
  rcases List.mem_map.1 hmem with ⟨m, hm, htag⟩
  rcases Prod.mk.inj htag with ⟨hclient, hnumber⟩
  have hdone := h.refused m hm (by rw [hclient]; exact hnumber)
  rw [hclient, hplace] at hdone
  cases hdone

theorem Logged.fresh_written (h : Logged exec paths lib₀ w place)
    (hplace : (place c).settled = false) :
    (c, (w.client c).count) ∉ w.written.map Written.tag := by
  intro hmem
  rcases List.mem_map.1 hmem with ⟨x, hx, htag⟩
  have hclient : x.tag.1 = c := by rw [htag]
  have hdone := h.written x hx (by rw [hclient, htag])
  rw [hclient, hplace] at hdone
  cases hdone

theorem Logged.send {path : CString} (h : Logged exec paths lib₀ w place)
    (hplace : place c = .away) (hstep : send c path r w = some w') :
    Logged exec paths lib₀ w' (Function.update place c .inbox) := by
  rcases send_eq hstep with ⟨_, hw'⟩
  -- the numbers of the requests sent before are below the new count of `c`
  have hbefore : ∀ m ∈ w.sent, m.number = (w'.client m.client).count →
      m.client ≠ c ∧ m.number = (w.client m.client).count := by
    intro m hm hnumber
    have hbound := h.bound m hm
    subst hw'
    by_cases hmc : m.client = c
    · rw [hmc] at hnumber hbound
      simp only [Function.update_self] at hnumber
      omega
    · simp only [Function.update_of_ne hmc] at hnumber
      exact ⟨hmc, hnumber⟩
  have hkept : ∀ u, u ≠ c → Function.update place c .inbox u = place u := fun u hu =>
    Function.update_of_ne hu _ _
  refine ⟨?_, ?_, ?_, ?_, ?_, ?_, ?_⟩
  · have hlaw := h.law
    have hfresh : (c, (w.client c).count + 1) ∉ w.sent.map Message.tag := by
      intro hmem
      rcases List.mem_map.1 hmem with ⟨m, hm, htag⟩
      rcases Prod.mk.inj htag with ⟨hclient, hnumber⟩
      have hbound := h.bound m hm
      rw [hclient] at hbound
      omega
    subst hw'
    refine ⟨List.nodup_cons.2 ⟨hfresh, hlaw.sentOnce⟩, ?_, ?_, hlaw.once, hlaw.replays,
      hlaw.written, hlaw.writtenOnce, ?_⟩
    · intro e he
      exact ⟨List.mem_cons_of_mem _ (hlaw.served e he).1, (hlaw.served e he).2⟩
    · intro m hm
      exact ⟨List.mem_cons_of_mem _ (hlaw.refused m hm).1, (hlaw.refused m hm).2⟩
    · intro y hy
      exact ⟨List.mem_cons_of_mem _ (hlaw.received y hy).1, (hlaw.received y hy).2⟩
  · intro u r' hpending
    subst hw'
    by_cases huc : u = c
    · subst huc
      simp only [Function.update_self, Option.some.injEq] at hpending
      subst hpending
      simp [current]
    · simp only [Function.update_of_ne huc] at hpending
      simp only [current, Function.update_of_ne huc]
      exact List.mem_cons_of_mem _ (h.pending u r' hpending)
  · intro m hm
    subst hw'
    rcases List.mem_cons.1 hm with rfl | hm
    · simp
    · have hbound := h.bound m hm
      by_cases hmc : m.client = c
      · rw [hmc] at hbound ⊢
        simp only [Function.update_self]
        omega
      · simp only [Function.update_of_ne hmc]
        exact hbound
  · intro e he hnumber
    have he' : e ∈ w.served := by
      subst hw'
      exact he
    rcases hbefore _ (h.law.served e he').1 hnumber with ⟨hne, hnumber'⟩
    rw [hkept _ hne]
    exact h.performed e he' hnumber'
  · intro m hm hnumber
    have hm' : m ∈ w.refused := by
      subst hw'
      exact hm
    rcases hbefore _ (h.law.refused m hm').1 hnumber with ⟨hne, hnumber'⟩
    rw [hkept _ hne]
    exact h.refused m hm' hnumber'
  · intro x hx hnumber
    have hx' : x ∈ w.written := by
      subst hw'
      exact hx
    rcases h.law.written_sent hx' with ⟨m, hm, htag⟩
    have hclient : m.client = x.tag.1 := by rw [← htag]; rfl
    have hnum : m.number = x.tag.2 := by rw [← htag]; rfl
    rcases hbefore m hm (by rw [hclient, hnum]; exact hnumber) with ⟨hne, hnumber'⟩
    rw [hclient] at hne hnumber'
    rw [hkept _ hne]
    exact h.written x hx' (hnum ▸ hnumber')
  · intro m hm hdone
    subst hw'
    rcases List.mem_cons.1 hm with rfl | hm
    · simp [Place.settled] at hdone
    · refine h.settled m hm ?_
      by_cases hmc : m.client = c
      · right
        rw [hmc, hplace]
        rfl
      · rw [hkept _ hmc] at hdone
        simpa only [Function.update_of_ne hmc] using hdone

theorem Logged.receive (h : Logged exec paths lib₀ w place) (hl : Located paths w place)
    (hplace : place c = .answered) (hstep : receive c (paths c) w = some w') :
    Logged exec paths lib₀ w' (Function.update place c .away) := by
  rcases receive_eq hstep with ⟨r, reply, rest, cl, hpending, hpipe, hanswer, hw'⟩
  rcases answer_count hanswer with ⟨hnone, hcount⟩
  -- a client that reads a reply sends nothing: only `received` grows
  have hcounts : ∀ u, (w'.client u).count = (w.client u).count := by
    subst hw'
    exact (Function.forall_update_iff w.client fun u x => x.count = (w.client u).count).2
      ⟨hcount, fun _ _ => rfl⟩
  have hperformed : ∀ u, (Function.update place c .away u).performed = (place u).performed :=
    (Function.forall_update_iff place fun u x => x.performed = (place u).performed).2
      ⟨by rw [hplace]; rfl, fun _ _ => rfl⟩
  have hsettled : ∀ u, (Function.update place c .away u).settled = (place u).settled :=
    (Function.forall_update_iff place fun u x => x.settled = (place u).settled).2
      ⟨by rw [hplace]; rfl, fun _ _ => rfl⟩
  have hlaw := h.law
  refine ⟨?_, ?_, ?_, ?_, ?_, ?_, ?_⟩
  · subst hw'
    -- the reply at the head of the pipe is the one written for the pending request
    refine ⟨hlaw.sentOnce, hlaw.served, hlaw.refused, hlaw.once, hlaw.replays, hlaw.written,
      hlaw.writtenOnce, ?_⟩
    intro y hy
    rcases List.mem_cons.1 hy with rfl | hy
    · exact ⟨h.pending c r hpending, hl.reply_written hpipe⟩
    · exact hlaw.received y hy
  · intro u r' hr'
    subst hw'
    by_cases huc : u = c
    · subst huc
      simp only [Function.update_self, hnone] at hr'
      cases hr'
    · simp only [Function.update_of_ne huc] at hr'
      simp only [current, Function.update_of_ne huc]
      exact h.pending u r' hr'
  · intro m hm
    rw [hcounts]
    subst hw'
    exact h.bound m hm
  · intro e he
    rw [hcounts, hperformed]
    subst hw'
    exact h.performed e he
  · intro m hm
    rw [hcounts, hsettled]
    subst hw'
    exact h.refused m hm
  · intro x hx
    rw [hcounts, hsettled]
    subst hw'
    exact h.written x hx
  · intro m hm
    rw [hcounts, hsettled]
    subst hw'
    exact h.settled m hm

/-- A reply to the latest request of `c` is written. -/
theorem Logged.answered (h : Logged exec paths lib₀ w place) (hlaw : Law exec paths lib₀ w')
    {reply : Reply ρ} (hclient : w'.client = w.client) (hsent : w'.sent = w.sent)
    (hserved : w'.served = w.served)
    (hrefused : ∀ m ∈ w'.refused, m ∈ w.refused ∨ m.client = c)
    (hwritten : w'.written = ⟨paths c, (c, (w.client c).count), reply⟩ :: w.written) :
    Logged exec paths lib₀ w' (Function.update place c .answered) := by
  have hkept : ∀ u, u ≠ c → Function.update place c .answered u = place u := fun u hu =>
    Function.update_of_ne hu _ _
  have hself : Function.update place c .answered c = .answered := Function.update_self _ _ _
  refine ⟨hlaw, ?_, ?_, ?_, ?_, ?_, ?_⟩
  · intro u r
    rw [current, hclient, hsent]
    exact h.pending u r
  · rw [hclient, hsent]
    exact h.bound
  · -- what was done for other clients is as before; for `c` its place says all
    intro e he hnumber
    by_cases hec : e.message.client = c
    · rw [hec, hself]
      rfl
    · rw [hkept _ hec]
      rw [hserved] at he
      rw [hclient] at hnumber
      exact h.performed e he hnumber
  · intro m hm hnumber
    by_cases hmc : m.client = c
    · rw [hmc, hself]
      rfl
    · rw [hkept _ hmc]
      rw [hclient] at hnumber
      exact h.refused m ((hrefused m hm).resolve_right hmc) hnumber
  · intro x hx hnumber
    by_cases hxc : x.tag.1 = c
    · rw [hxc, hself]
      rfl
    · rw [hkept _ hxc]
      rw [hwritten] at hx
      rw [hclient] at hnumber
      rcases List.mem_cons.1 hx with rfl | hx
      · exact (hxc rfl).elim
      · exact h.written x hx hnumber
  · intro m hm hdone
    rw [hsent] at hm
    rw [hclient] at hdone
    rw [Settled, hwritten]
    -- settled: the request just answered, or one that was settled before
    by_cases hnew : m.tag = (c, (w.client c).count)
    · exact ⟨_, List.mem_cons_self, hnew.symm⟩
    · have hold : m.number < (w.client m.client).count ∨ (place m.client).settled = true := by
        by_cases hmc : m.client = c
        · left
          have hbound := h.bound m hm
          have hne : m.number ≠ (w.client m.client).count := by
            intro heq
            exact hnew (Prod.ext hmc (by rw [← hmc]; exact heq))
          omega
        · rw [hkept _ hmc] at hdone
          exact hdone
      rcases h.settled m hm hold with ⟨x, hx, htag⟩
      exact ⟨x, List.mem_cons_of_mem _ hx, htag⟩

theorem Logged.refuse (h : Logged exec paths lib₀ w place) (hl : Located paths w place)
    (hreceiver : w.receiver = .refusing (paths c) (current w c (.mount (paths c))))
    (hplace : place c = .refusing) (hstep : refuse w = some w') :
    Logged exec paths lib₀ w' (Function.update place c .answered) := by
  rcases refuse_eq hstep with ⟨path, m, hreceiver', hw'⟩
  rcases Receiver.refusing.inj (hreceiver'.symm.trans hreceiver) with ⟨rfl, rfl⟩
  have hpending : (w.client c).pending = some (.mount (paths c)) := by
    have hat := hl.located c
    rw [hplace] at hat
    exact hat.1
  have hsent := h.pending c _ hpending
  have hserved := h.fresh_served (c := c) (by rw [hplace]; rfl)
  have hrefused := h.fresh_refused (c := c) (by rw [hplace]; rfl)
  have hwritten := h.fresh_written (c := c) (by rw [hplace]; rfl)
  have hold := h.law
  have hlaw : Law exec paths lib₀ w' := by
    subst hw'
    refine ⟨hold.sentOnce, hold.served, ?_, ?_, hold.replays, ?_, ?_, ?_⟩
    · intro m hm
      rcases List.mem_cons.1 hm with rfl | hm
      · exact ⟨hsent, rfl⟩
      · exact hold.refused m hm
    · rw [List.map_cons]
      -- the request is where neither a worker nor the receiver has answered it
      refine List.nodup_middle.2 (List.nodup_cons.2 ⟨?_, hold.once⟩)
      intro hmem
      exact (List.mem_append.1 hmem).elim hserved hrefused
    · intro x hx
      rcases List.mem_cons.1 hx with rfl | hx
      · exact ⟨rfl, Or.inr ⟨_, List.mem_cons_self, rfl, rfl⟩⟩
      · refine ⟨(hold.written x hx).1, (hold.written x hx).2.imp id ?_⟩
        rintro ⟨m, hm, htag, hreply⟩
        exact ⟨m, List.mem_cons_of_mem _ hm, htag, hreply⟩
    · exact List.nodup_cons.2 ⟨hwritten, hold.writtenOnce⟩
    · intro y hy
      exact ⟨(hold.received y hy).1, List.mem_cons_of_mem _ (hold.received y hy).2⟩
  subst hw'
  refine h.answered hlaw rfl rfl rfl ?_ rfl
  intro m hm
  rcases List.mem_cons.1 hm with rfl | hm
  · exact Or.inr rfl
  · exact Or.inl hm

theorem Logged.write {reply : Reply ρ} (h : Logged exec paths lib₀ w place)
    (hplace : place c = .replying s) (hserved : ⟨s, current w c r, reply⟩ ∈ w.served)
    (hwritten : w'.written = ⟨paths c, (c, (w.client c).count), reply⟩ :: w.written)
    (hstep : write s w = some w') :
    Logged exec paths lib₀ w' (Function.update place c .answered) := by
  rcases write_eq hstep with ⟨_, path, _, _, hw'⟩
  -- the worker holds the reply, so none has been written for this request yet
  have hfresh := h.fresh_written (c := c) (by rw [hplace]; rfl)
  have hold := h.law
  have hsame : w'.sent = w.sent ∧ w'.served = w.served ∧ w'.refused = w.refused ∧
      w'.lib = w.lib ∧ w'.received = w.received ∧ w'.client = w.client := by
    rw [hw']
    exact ⟨rfl, rfl, rfl, rfl, rfl, rfl⟩
  rcases hsame with ⟨hsent', hserved', hrefused', hlib', hreceived', hclient'⟩
  refine h.answered ?_ hclient' hsent' hserved' ?_ hwritten
  · refine ⟨by rw [hsent']; exact hold.sentOnce, by rw [hserved', hsent']; exact hold.served,
      by rw [hrefused', hsent']; exact hold.refused, by rw [hserved', hrefused']; exact hold.once,
      by rw [hserved', hlib']; exact hold.replays, ?_, ?_, ?_⟩
    · rw [hwritten, hserved', hrefused']
      intro x hx
      rcases List.mem_cons.1 hx with rfl | hx
      · exact ⟨rfl, Or.inl ⟨_, hserved, rfl, rfl⟩⟩
      · exact hold.written x hx
    · rw [hwritten]
      exact List.nodup_cons.2 ⟨hfresh, hold.writtenOnce⟩
    · rw [hreceived', hsent', hwritten]
      intro y hy
      exact ⟨(hold.received y hy).1, List.mem_cons_of_mem _ (hold.received y hy).2⟩
  · intro m hm
    rw [hrefused'] at hm
    exact Or.inl hm

theorem Logged.execute {reply : Reply ρ} (h : Logged exec paths lib₀ w place)
    (hplace : place c = .slot s) (hpending : (w.client c).pending = some r)
    (hserved : w'.served = ⟨s, current w c r, reply⟩ :: w.served)
    (hanswers : Answers exec paths c s r reply w.lib w'.lib)
    (hstep : execute exec s w = some w') :
    Logged exec paths lib₀ w' (Function.update place c (.replying s)) := by
  have hsame : w'.sent = w.sent ∧ w'.refused = w.refused ∧ w'.written = w.written ∧
      w'.received = w.received ∧ w'.client = w.client := by
    rcases execute_cases hstep with ⟨_, _, _, ⟨_, _, hw'⟩ | ⟨_, _, hw'⟩ | ⟨_, _, hw'⟩⟩
    · rw [hw']
      exact ⟨rfl, rfl, rfl, rfl, rfl⟩
    · rw [hw']
      exact ⟨rfl, rfl, rfl, rfl, rfl⟩
    · rw [hw']
      exact ⟨rfl, rfl, rfl, rfl, rfl⟩
  rcases hsame with ⟨hsent', hrefused', hwritten', hreceived', hclient'⟩
  have hsent := h.pending c r hpending
  have hfresh := h.fresh_served (c := c) (by rw [hplace]; rfl)
  have hfresh' := h.fresh_refused (c := c) (by rw [hplace]; rfl)
  have hold := h.law
  have hkept : ∀ u, u ≠ c → Function.update place c (.replying s) u = place u := fun u hu =>
    Function.update_of_ne hu _ _
  -- a performed request is not settled before its reply is written
  have hsettled : ∀ u, (Function.update place c (.replying s) u).settled = (place u).settled :=
    (Function.forall_update_iff place fun u x => x.settled = (place u).settled).2
      ⟨by rw [hplace]; rfl, fun _ _ => rfl⟩
  refine ⟨⟨by rw [hsent']; exact hold.sentOnce, ?_, by rw [hrefused', hsent']; exact hold.refused,
    ?_, ?_, ?_, by rw [hwritten']; exact hold.writtenOnce,
    by rw [hreceived', hsent', hwritten']; exact hold.received⟩, ?_, ?_, ?_, ?_, ?_, ?_⟩
  · rw [hserved, hsent']
    intro e he
    rcases List.mem_cons.1 he with rfl | he
    · refine ⟨hsent, ?_⟩
      rcases hanswers with ⟨hr, hreply, _⟩ | ⟨hr, _, _⟩ | ⟨hr, _⟩
      · exact Or.inl ⟨hr, hreply⟩
      · exact Or.inr (by rw [show (current w c r).request = r from rfl, hr]; rfl)
      · exact Or.inr hr
    · exact hold.served e he
  · -- performed once: the request was in the slot, so neither performed nor refused before
    rw [hserved, hrefused', List.map_cons, List.cons_append]
    refine List.nodup_cons.2 ⟨?_, hold.once⟩
    intro hmem
    exact (List.mem_append.1 hmem).elim hfresh hfresh'
  · rw [hserved]
    -- the replay is longer by this call, from the file system as it was
    refine ⟨w.lib, hold.replays, ?_⟩
    rcases hanswers with ⟨hr, _, hlib⟩ | ⟨hr, _, hlib⟩ | ⟨_, op, hop, hreply, hlib⟩
    · rw [show (current w c r).request = r from rfl, hr]
      exact hlib
    · rw [show (current w c r).request = r from rfl, hr]
      exact hlib
    · rw [show (current w c r).request = r from rfl, hop]
      exact ⟨hreply, hlib⟩
  · rw [hwritten', hserved, hrefused']
    intro x hx
    refine ⟨(hold.written x hx).1, (hold.written x hx).2.imp_left ?_⟩
    rintro ⟨e, he, htag, hreply⟩
    exact ⟨e, List.mem_cons_of_mem _ he, htag, hreply⟩
  · intro u r'
    rw [current, hclient', hsent']
    exact h.pending u r'
  · rw [hclient', hsent']
    exact h.bound
  · intro e he hnumber
    by_cases hec : e.message.client = c
    · rw [hec, Function.update_self]
      rfl
    · rw [hkept _ hec]
      rw [hserved] at he
      rw [hclient'] at hnumber
      rcases List.mem_cons.1 he with rfl | he
      · exact (hec rfl).elim
      · exact h.performed e he hnumber
  · intro m
    rw [hsettled, hrefused', hclient']
    exact h.refused m
  · intro x
    rw [hsettled, hwritten', hclient']
    exact h.written x
  · intro m
    rw [hsettled, hsent', hclient', Settled, hwritten']
    exact h.settled m

end Steps

end Sessions
end TecnicoFs
