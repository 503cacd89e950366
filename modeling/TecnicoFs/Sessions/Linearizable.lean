import TecnicoFs.Sessions.Effects
import TecnicoFs.Sessions.Service

/-!
# Linearizable — the clients see one service

In the order in which the requests take effect the service of `Sessions.Service` gives every client the
reply that it reads from its pipe, and a request that was sent after a reply was read stands after the
request of that reply.
-/

namespace TecnicoFs
namespace Sessions

open Lib Wire

universe u v

variable {σ : Type u} {ρ : Type v}

/-! ## Whole runs -/

/-- What a run and its observation have in common. -/
structure Observed (exec : Operation → σ → ρ × σ) (paths : ℕ → CString) (lib₀ : σ)
    (h : List (World σ ρ × Label)) (w : World σ ρ) : Prop where
  timely : ∃ place, Located paths w place ∧ Logged exec paths lib₀ w place ∧
    Timely w place ((clients exec paths).order h)
  recorded : Recorded w ((clients exec paths).order h)
  invoked : ∀ y b, .invoke y b ∈ (clients exec paths).history h ↔
    ∃ m ∈ w.sent, m.tag = y ∧ m.request = b

section Runs

variable {exec : Operation → σ → ρ × σ} {paths : ℕ → CString} {lib₀ : σ} {w w' : World σ ρ}
variable {a : Label} {h : List (World σ ρ × Label)}

/-- Only a client's send adds a request. -/
theorem sent_of_not_send (hnot : ∀ c r, a ≠ .send c r) (hstep : perform exec paths a w = some w') :
    w'.sent = w.sent := by
  cases a with
  | send c r => exact absurd rfl (hnot c r)
  | receive c =>
      rcases receive_eq hstep with ⟨_, _, _, _, _, _, _, rfl⟩
      rfl
  | take =>
      rcases take_cases hstep with ⟨_, _, _, _, ⟨_, _, rfl⟩ | ⟨_, _, _, _, _, rfl⟩ | ⟨_, _, _, rfl⟩⟩ <;>
        rfl
  | refuse =>
      rcases refuse_eq hstep with ⟨_, _, _, rfl⟩
      rfl
  | store =>
      rcases store_eq hstep with ⟨_, _, _, _, rfl⟩
      rfl
  | wake s => rw [(wake_eq (ofWorker_eq hstep).2).2]
  | lock s => rw [(lock_eq (ofWorker_eq hstep).2).2]
  | execute s =>
      rcases execute_cases (ofWorker_eq hstep).2 with
        ⟨_, _, _, ⟨_, _, rfl⟩ | ⟨_, _, rfl⟩ | ⟨_, _, rfl⟩⟩ <;> rfl
  | write s =>
      rcases write_eq (ofWorker_eq hstep).2 with ⟨_, _, _, _, rfl⟩
      rfl
  | clear s => rw [(clear_eq (ofWorker_eq hstep).2).2]

theorem observed_start :
    Observed exec paths lib₀ [] (World.start lib₀) where
  timely := by
    have hstart : Inv exec paths lib₀ (World.start lib₀) := inv_start
    rcases hstart with ⟨place, hl, hlog⟩
    exact ⟨place, hl, hlog, fun _ he => (by cases he), fun _ he => (by cases he),
      fun _ he => (by cases he)⟩
  recorded := recorded_start lib₀
  invoked := by
    intro y b
    constructor
    · intro hmem
      cases hmem
    · rintro ⟨m, hm, _⟩
      cases hm

theorem Observed.step (hpaths : Function.Injective paths) (ho : Observed exec paths lib₀ h w)
    (hstep : perform exec paths a w = some w') : Observed exec paths lib₀ ((w, a) :: h) w' where
  timely := by
    rcases ho.timely with ⟨place, hl, hlog, ht⟩
    exact timely_step hpaths ht hl hlog hstep
  recorded := ho.recorded.step hstep
  invoked := by
    intro y b
    by_cases hsend : ∃ c r, a = .send c r
    · rcases hsend with ⟨c, r, rfl⟩
      rcases send_eq hstep with ⟨_, rfl⟩
      have haction : (clients exec paths).action w (.send c r) =
          some (.invoke (c, (w.client c).count + 1) r) := rfl
      rw [System.Observer.history_of_some haction, List.mem_append, ho.invoked]
      constructor
      · rintro (⟨m, hm, hmem⟩ | hlast)
        · exact ⟨m, List.mem_cons_of_mem _ hm, hmem⟩
        · rcases Action.invoke.inj (List.mem_singleton.1 hlast) with ⟨rfl, rfl⟩
          exact ⟨_, List.mem_cons_self, rfl, rfl⟩
      · rintro ⟨m, hm, rfl, rfl⟩
        rcases List.mem_cons.1 hm with rfl | hm
        · exact Or.inr (List.mem_singleton_self _)
        · exact Or.inl ⟨m, hm, rfl, rfl⟩
    · have hnot : ∀ c r, a ≠ .send c r := fun c r ha => hsend ⟨c, r, ha⟩
      rw [sent_of_not_send hnot hstep, ← ho.invoked]
      rcases haction : (clients exec paths).action w a with _ | z
      · rw [System.Observer.history_of_none haction]
      · rw [System.Observer.history_of_some haction, List.mem_append]
        refine ⟨fun hmem => hmem.resolve_right ?_, Or.inl⟩
        intro hlast
        rw [← List.mem_singleton.1 hlast] at haction
        rcases invoke_of_observed haction with ⟨c, ha, _⟩
        exact hnot c b ha

theorem observed_of_execution (hpaths : Function.Injective paths)
    (he : (sessions exec paths lib₀).Execution h w) : Observed exec paths lib₀ h w := by
  induction he with
  | start h0 =>
      rw [h0]
      exact observed_start
  | next _ hst ih => exact ih.step hpaths hst

/-- The clients' view is faithful: every request takes effect after it was sent and before its reply
is read, and at most once. -/
theorem clients_faithful (hpaths : Function.Injective paths) :
    (clients exec paths).Faithful (sessions exec paths lib₀) where
  fresh := by
    intro h w a t y b he hst haction b' hmem
    have ho := observed_of_execution hpaths he
    rcases ho.timely with ⟨place, hl, hlog, _⟩
    rcases invoke_of_observed haction with ⟨c, _, rfl⟩
    rcases (ho.invoked _ _).1 hmem with ⟨m, hm, htag, _⟩
    have hclient : m.client = c := congrArg Prod.fst htag
    have hnumber : m.number = (w.client c).count + 1 := congrArg Prod.snd htag
    have hbound := hlog.bound m hm
    rw [hclient] at hbound
    omega
  performed := by
    intro h w a t y r he hst haction
    have ho := observed_of_execution hpaths he
    rcases ho.timely with ⟨place, hl, hlog, _⟩
    rcases respond_of_observed haction with ⟨c, rfl, rfl, rest, hpipe⟩
    -- the reply at the head of the pipe was written for the current request of `c`
    rcases (hlog.law.written _ (hl.reply_written hpipe)).2 with
      ⟨e, he, htag, hreply⟩ | ⟨m, hm, htag, hreply⟩
    · have hnoted := ho.recorded.served e he
      rwa [htag, hreply] at hnoted
    · have hnoted := ho.recorded.refused m hm
      dsimp only at htag hreply
      rwa [htag, ← hreply] at hnoted
  invoked := by
    intro h w a t e he hst hevent
    have ho := observed_of_execution hpaths he
    have hsent := (ho.step hpaths hst).timely
    rcases hsent with ⟨place, _, _, ht⟩
    have hmem : e ∈ (clients exec paths).order ((w, a) :: h) := by
      rw [System.Observer.order_of_some hevent]
      exact List.mem_append_right _ (List.mem_singleton_self e)
    rcases ht.sent e hmem with ⟨m, hm, htag, hcall⟩
    have hnot : ∀ c r, a ≠ .send c r := by
      rintro c r rfl
      cases hevent
    rw [sent_of_not_send hnot hst] at hm
    exact (ho.invoked _ _).2 ⟨m, hm, htag, hcall⟩
  once := by
    intro h w a t e he hst hevent hmem
    have ho := observed_of_execution hpaths he
    rcases ho.timely with ⟨place, hl, hlog, ht⟩
    rcases List.mem_map.1 hmem with ⟨e', he', htag'⟩
    rcases effect_cases hevent with ⟨m, rest, path, _, hinbox, _, rfl⟩ |
      ⟨s, r, rfl, hrequest, htag, hcall, _⟩
    · -- a mount at the receiver has just left the server pipe
      rcases hl.head_sent hlog hinbox with ⟨_, hplace, hnumber⟩
      have hclient : e'.tag.1 = m.client := congrArg Prod.fst htag'
      refine ht.taken e' he' ?_ (by rw [hclient]; exact hplace)
      rw [hclient, congrArg Prod.snd htag']
      exact hnumber
    · -- a request in a slot has not been performed, and it is not a mount
      rcases ofWorker_eq hst with ⟨_, hexecute⟩
      rcases execute_cases hexecute with ⟨_, hhandling, _⟩
      rcases hl.inSlot hhandling with ⟨c, r', hslot, hplace, hpending, _, htable, hrequest', _⟩
      rw [htable, hrequest'] at hrequest
      rcases Option.some.inj hrequest with rfl
      rw [htag, hslot] at htag'
      have hclient : e'.tag.1 = c := congrArg Prod.fst htag'
      have hnumber : e'.tag.2 = (w.client e'.tag.1).count := by
        rw [hclient, htag']
      rcases ht.performed e' he' hnumber with ⟨path, hmount⟩ | hdone
      · rcases ht.sent e' he' with ⟨m, hm, hmtag, hmcall⟩
        have hcurrent := hlog.pending c _ hpending
        have hsame : m = current w c r' :=
          List.inj_on_of_nodup_map hlog.law.sentOnce hm hcurrent (by rw [hmtag, htag']; rfl)
        have hr' : r' = .mount path := by
          rw [← hmount, ← hmcall, hsame]
          rfl
        rcases effect_cases hevent with ⟨_, _, _, ha, _⟩ | ⟨t, r₁, ha, hrequest₁, _, _, hkind⟩
        · cases ha
        · rcases Label.execute.inj ha with rfl
          rw [htable, hrequest'] at hrequest₁
          rcases Option.some.inj hrequest₁ with rfl
          rw [hr'] at hkind
          rcases hkind with ⟨z, hz, _⟩ | ⟨op, hop, _⟩
          · cases hz
          · cases hop
      · rw [hclient, hplace] at hdone
        cases hdone

end Runs

/-! ## The server is linearizable -/

section Server

variable {paths : ℕ → CString} {w w' : World (Option Server.State) (Option Server.Reply)}
variable {a : Label} {x : Service}

/-- A step in which nothing takes effect leaves the session table and the library. -/
theorem Serves.silent (hx : Serves w x) (hevent : (clients serverExec paths).event w a = none)
    (hstep : perform serverExec paths a w = some w') : Serves w' x := by
  cases a with
  | send c r =>
      rcases send_eq hstep with ⟨_, rfl⟩
      exact hx.of_same rfl rfl
  | receive c =>
      rcases receive_eq hstep with ⟨_, _, _, _, _, _, _, rfl⟩
      exact hx.of_same rfl rfl
  | wake s =>
      have hw' := (wake_eq (ofWorker_eq hstep).2).2
      exact hx.of_same (by rw [hw']) (by rw [hw'])
  | take =>
      rcases take_cases hstep with ⟨m, rest, _, hinbox, ⟨path, hmount, _⟩ | ⟨path, _, hmount, _⟩ |
        ⟨_, _, _, rfl⟩⟩
      · rw [effect_take hinbox hmount] at hevent
        cases hevent
      · rw [effect_take hinbox hmount] at hevent
        cases hevent
      · exact hx.of_same rfl rfl
  | refuse =>
      rcases refuse_eq hstep with ⟨_, _, _, rfl⟩
      exact hx.of_same rfl rfl
  | store =>
      rcases store_eq hstep with ⟨_, _, _, _, rfl⟩
      exact hx.of_same rfl rfl
  | lock s =>
      have hw' := (lock_eq (ofWorker_eq hstep).2).2
      exact hx.of_same (by rw [hw']) (by rw [hw'])
  | execute s =>
      rcases execute_cases (ofWorker_eq hstep).2 with
        ⟨r, _, hrequest, ⟨_, _, rfl⟩ | ⟨z, rfl, _⟩ | ⟨op, hop, _⟩⟩
      · exact hx.of_same rfl rfl
      · rw [effect_unmount hrequest] at hevent
        cases hevent
      · rw [effect_operation hrequest hop] at hevent
        cases hevent
  | write s =>
      rcases write_eq (ofWorker_eq hstep).2 with ⟨_, _, _, _, rfl⟩
      exact hx.of_same rfl rfl
  | clear s =>
      have hw' := (clear_eq (ofWorker_eq hstep).2).2
      exact hx.of_same (by rw [hw']) (by rw [hw'])

/-- What takes effect, takes effect in the service, with the same reply. -/
theorem Serves.effect (hx : Serves w x) {e : Event (ℕ × ℕ) (Request CString) (Reply (Option Server.Reply))}
    (hevent : (clients serverExec paths).event w a = some e)
    (hok : Service.Allowed x e.call) (hstep : perform serverExec paths a w = some w') :
    ∃ y, service.exec e.call x = some (e.reply, y) ∧ Serves w' y := by
  rcases effect_cases hevent with ⟨m, rest, path, rfl, hinbox, hmount, rfl⟩ |
    ⟨s, r, rfl, hrequest, htag, rfl, hkind⟩
  · -- the receiver finds the session that the service gives
    rcases take_mount hinbox hmount hstep with ⟨hadd, rfl⟩ | ⟨s, hadd, rfl⟩
    · rcases hx.addClientPipe path with ⟨_, hservice⟩ | ⟨s, hadd', _⟩
      · refine ⟨x, ?_, hx.of_same rfl rfl⟩
        change some _ = _
        rw [hservice, hadd]
        rfl
      · rw [hadd] at hadd'
        cases hadd'
    · rcases hx.addClientPipe path with ⟨hadd', _⟩ | ⟨t, hadd', hservice⟩
      · rw [hadd] at hadd'
        cases hadd'
      · rcases Option.some.inj (hadd.symm.trans hadd') with rfl
        refine ⟨_, ?_, hx.mounted rfl rfl⟩
        change some _ = _
        rw [hservice, hadd]
        rfl
  · rcases execute_cases (ofWorker_eq hstep).2 with ⟨r', _, hrequest', hcases⟩
    rcases Option.some.inj (hrequest.symm.trans hrequest') with hr
    rcases hkind with ⟨z, hz, hreply⟩ | ⟨op, hop, hreply⟩
    · rcases hcases with ⟨path, hr', _⟩ | ⟨z', hr', rfl⟩ | ⟨op, hop, _⟩
      · rw [← hr, hz] at hr'
        cases hr'
      · -- the id in the request is that of the session
        rw [hz] at hrequest
        rcases session_of_request_unmount hrequest with rfl
        refine ⟨_, ?_, hx.unmounted rfl rfl⟩
        rw [hz, hreply]
        rfl
      · rw [← hr, hz] at hop
        cases hop
    · rcases hcases with ⟨path, hr', _⟩ | ⟨z', hr', _⟩ | ⟨op', hop', rfl⟩
      · rw [← hr] at hr'
        rw [hr'] at hop
        cases hop
      · rw [← hr] at hr'
        rw [hr'] at hop
        cases hop
      · rcases Option.some.inj (hop.symm.trans (by rw [hr]; exact hop')) with rfl
        rcases hx.call (hok op hop) with ⟨hcall, hafter⟩
        refine ⟨_, ?_, hafter _ rfl rfl⟩
        change Service.exec _ _ = _
        rw [Service.exec_call hop, hreply, hcall]

/-- In the order in which requests take effect, the service explains what the clients see, and the
state it reaches is the one the server holds. -/
theorem served_linearizes (hpaths : Function.Injective paths) {h : List (World (Option Server.State)
    (Option Server.Reply) × Label)}
    (he : (sessions serverExec paths (some Server.tfsInit.2)).Execution h w)
    (hok : service.RunOk Service.Allowed (((clients serverExec paths).order h).map Event.call)
      Service.start) :
    Linearizes service Service.start ((clients serverExec paths).history h)
        ((clients serverExec paths).order h) ∧
      ∃ x, service.run (((clients serverExec paths).order h).map Event.call) Service.start =
        some (((clients serverExec paths).order h).map Event.reply, x) ∧ Serves w x := by
  refine System.Execution.linearizes (R := Serves) (clients_faithful hpaths) ?_ ?_ ?_ he hok
  · rintro w rfl
    exact serves_start
  · intro h w a w' x _ hst hevent hx
    exact hx.silent hevent hst
  · intro h w a w' e x _ hst hevent hcall hx
    exact hx.effect hevent hcall hst

/-- **Linearizability.** In every run of the server with any number of clients, if each call of the
file system is one that its specification covers at the moment when it is performed, then the service
explains all that the clients see: one order of the requests, in which every reply that a client read
is the reply of the service, and which keeps real time. -/
theorem linearizable (hpaths : Function.Injective paths) {h : List (World (Option Server.State)
    (Option Server.Reply) × Label)}
    (he : (sessions serverExec paths (some Server.tfsInit.2)).Execution h w)
    (hok : service.RunOk Service.Allowed (((clients serverExec paths).order h).map Event.call)
      Service.start) :
    Linearizes service Service.start ((clients serverExec paths).history h)
        ((clients serverExec paths).order h) ∧
      ∃ x, service.run (((clients serverExec paths).order h).map Event.call) Service.start =
        some (((clients serverExec paths).order h).map Event.reply, x) ∧ Serves w x :=
  served_linearizes hpaths he hok

/-- What takes effect in `twoClients`: both mounts, then the open. -/
def twoClientsOrder : List (Request CString) :=
  [.mount (onesPath 0), .mount (onesPath 1), .open 0 ⟨[0x2f, 0x61], noNul_a⟩ 1]

theorem linearizable_twoClients : ∃ h w,
    ((clients serverExec onesPath).order h).map Event.call = twoClientsOrder ∧
      (sessions serverExec onesPath (some Server.tfsInit.2)).Execution h w ∧
      Linearizes service Service.start ((clients serverExec onesPath).history h)
        ((clients serverExec onesPath).order h) ∧
      ∃ x, service.run twoClientsOrder Service.start =
        some (((clients serverExec onesPath).order h).map Event.reply, x) ∧ Serves w x := by
  have hrun : (System.performAll (System.record (perform serverExec onesPath)) twoClients
      ([], World.start (some Server.tfsInit.2))).any
        (fun x => ((clients serverExec onesPath).order x.1).map Event.call = twoClientsOrder) =
          true := by
    rw [Server.tfsInit_eq]
    decide +kernel
  rcases System.execution_of_any (M := sessions serverExec onesPath (some Server.tfsInit.2))
    (perform serverExec onesPath) (fun _ _ _ hst => hst) rfl hrun with ⟨h, w, he, _, horder⟩
  have hok : service.RunOk Service.Allowed (((clients serverExec onesPath).order h).map Event.call)
      Service.start := ?_
  · have hlin := linearizable onesPath_injective he hok
    rw [horder] at hlin
    exact ⟨h, w, horder, he, hlin⟩
  rw [horder]
  refine ⟨fun op hop => (by cases hop), ?_⟩
  intro r x hexec
  cases hexec
  refine ⟨fun op hop => (by cases hop), ?_⟩
  intro r x hexec
  cases hexec
  refine ⟨?_, fun _ _ _ => trivial⟩
  intro op hop
  rcases Option.some.inj hop with rfl
  refine ⟨⟨⟨[0x61], by simp⟩, by decide, by decide⟩, by decide, ?_⟩
  intro htrunc
  exact absurd htrunc (by decide)

end Server

end Sessions
end TecnicoFs
