import TecnicoFs.Lib.Linearizability
import TecnicoFs.Sessions.Progress

/-!
# Effects — the moment at which a request takes effect

A mount takes effect when the receiver looks for a free session, an unmount and a call of the file
system when the worker performs it. `clients` is the observer that sees these moments besides what the
clients see: the requests that they send and the replies that they read. Every reply that the server
holds was noted when its request took effect, and no request takes effect twice.
-/

namespace TecnicoFs
namespace Sessions

open Lib Wire

universe u v

variable {σ : Type u} {ρ : Type v}

/-! ## What is seen, and what takes effect -/

/-- The session id that `read_mount` or the worker sends back. -/
def mountReply : Option ℕ → ℤ
  | none => -1
  | some s => s

/-- What a client shows at a step. -/
def observed (paths : ℕ → CString) (w : World σ ρ) :
    Label → Option (Action (ℕ × ℕ) (Request CString) (Reply ρ))
  | .send c r => some (.invoke (c, (w.client c).count + 1) r)
  | .receive c => (w.pipe (paths c)).head?.map fun reply => .respond (c, (w.client c).count) reply
  | _ => none

/-- The mount that the receiver takes from the server pipe. -/
def mountTaken (w : World σ ρ) : Option (Event (ℕ × ℕ) (Request CString) (Reply ρ)) :=
  match w.inbox with
  | [] => none
  | m :: _ =>
      match m.request with
      | .mount path => some ⟨m.tag, .mount path,
          .mount (mountReply (addClientPipe path w.clientPipesTable))⟩
      | _ => none

/-- The request that worker `s` performs; the mount of its slot has taken effect before. -/
def requestPerformed (exec : Operation → σ → ρ × σ) (s : ℕ) (w : World σ ρ) :
    Option (Event (ℕ × ℕ) (Request CString) (Reply ρ)) :=
  match (w.bufferEntryTable s).request s (w.clientPipesTable s) with
  | none => none
  | some (.mount _) => none
  | some (.unmount z) => some ⟨w.slotTag s, .unmount z, .unmount 0⟩
  | some r => (operation r).map fun op => ⟨w.slotTag s, r, .library (exec op w.lib).1⟩

/-- What takes effect in a step. -/
def effect (exec : Operation → σ → ρ × σ) (w : World σ ρ) :
    Label → Option (Event (ℕ × ℕ) (Request CString) (Reply ρ))
  | .take => mountTaken w
  | .execute s => requestPerformed exec s w
  | _ => none

/-- The clients' view of the server. -/
def clients (exec : Operation → σ → ρ × σ) (paths : ℕ → CString) :
    System.Observer (World σ ρ) Label (ℕ × ℕ) (Request CString) (Reply ρ) where
  action := observed paths
  event := effect exec

section Cases

variable {exec : Operation → σ → ρ × σ} {paths : ℕ → CString} {w w' : World σ ρ} {a : Label}
variable {e : Event (ℕ × ℕ) (Request CString) (Reply ρ)}

theorem invoke_of_observed {y : ℕ × ℕ} {b : Request CString}
    (h : (clients exec paths).action w a = some (.invoke y b)) :
    ∃ c, a = .send c b ∧ y = (c, (w.client c).count + 1) := by
  change observed paths w a = _ at h
  cases a with
  | send c r =>
      rcases Action.invoke.inj (Option.some.inj h) with ⟨rfl, rfl⟩
      exact ⟨c, rfl, rfl⟩
  | receive c =>
      rcases Option.map_eq_some_iff.1 h with ⟨_, _, hreply⟩
      cases hreply
  | _ => cases h

theorem respond_of_observed {y : ℕ × ℕ} {r : Reply ρ}
    (h : (clients exec paths).action w a = some (.respond y r)) :
    ∃ c, a = .receive c ∧ y = (c, (w.client c).count) ∧ ∃ rest, w.pipe (paths c) = r :: rest := by
  change observed paths w a = _ at h
  cases a with
  | send c r => cases Option.some.inj h
  | receive c =>
      rcases Option.map_eq_some_iff.1 h with ⟨reply, hhead, hreply⟩
      rcases Action.respond.inj hreply with ⟨rfl, rfl⟩
      exact ⟨c, rfl, rfl, List.head?_eq_some_iff.1 hhead⟩
  | _ => cases h

/-- What takes effect is a mount at the receiver, or what a worker performs. -/
theorem effect_cases (h : (clients exec paths).event w a = some e) :
    (∃ m rest path, a = .take ∧ w.inbox = m :: rest ∧ m.request = .mount path ∧
        e = ⟨m.tag, .mount path, .mount (mountReply (addClientPipe path w.clientPipesTable))⟩) ∨
      ∃ s r, a = .execute s ∧
        (w.bufferEntryTable s).request s (w.clientPipesTable s) = some r ∧ e.tag = w.slotTag s ∧
        e.call = r ∧ ((∃ z, r = .unmount z ∧ e.reply = .unmount 0) ∨
          ∃ op, operation r = some op ∧ e.reply = .library (exec op w.lib).1) := by
  change effect exec w a = _ at h
  cases a with
  | take =>
      left
      change mountTaken w = _ at h
      unfold mountTaken at h
      split at h
      · cases h
      · rename_i m rest hinbox
        split at h
        · rename_i path hmount
          exact ⟨m, rest, path, rfl, hinbox, hmount, (Option.some.inj h).symm⟩
        · cases h
  | execute s =>
      right
      change requestPerformed exec s w = _ at h
      unfold requestPerformed at h
      split at h
      · cases h
      · cases h
      · rename_i z hrequest
        rcases Option.some.inj h with rfl
        exact ⟨s, _, rfl, hrequest, rfl, rfl, Or.inl ⟨z, rfl, rfl⟩⟩
      · rename_i r _ _ hrequest
        rcases Option.map_eq_some_iff.1 h with ⟨op, hop, rfl⟩
        exact ⟨s, r, rfl, hrequest, rfl, rfl, Or.inr ⟨op, hop, rfl⟩⟩
  | _ => cases h

/-- Neither a mount at a worker nor anything else than a mount at the receiver takes effect. -/
theorem effect_take {m : Message} {rest : List Message} {path : CString} (hinbox : w.inbox = m :: rest)
    (hmount : m.request = .mount path) :
    (clients exec paths).event w .take =
      some ⟨m.tag, .mount path, .mount (mountReply (addClientPipe path w.clientPipesTable))⟩ := by
  change mountTaken w = _
  simp only [mountTaken, hinbox, hmount]

theorem effect_unmount {s : ℕ} {z : ℤ}
    (h : (w.bufferEntryTable s).request s (w.clientPipesTable s) = some (.unmount z)) :
    (clients exec paths).event w (.execute s) = some ⟨w.slotTag s, .unmount z, .unmount 0⟩ := by
  change requestPerformed exec s w = _
  simp only [requestPerformed, h]

theorem effect_operation {s : ℕ} {r : Request CString} {op : Operation}
    (h : (w.bufferEntryTable s).request s (w.clientPipesTable s) = some r)
    (hop : operation r = some op) :
    (clients exec paths).event w (.execute s) =
      some ⟨w.slotTag s, r, .library (exec op w.lib).1⟩ := by
  change requestPerformed exec s w = _
  unfold requestPerformed
  rw [h]
  cases r <;> first | (cases hop; done) | simp only [hop, Option.map_some]

/-- What the receiver does with a mount. -/
theorem take_mount {m : Message} {rest : List Message} {path : CString} (hinbox : w.inbox = m :: rest)
    (hmount : m.request = .mount path) (hstep : take w = some w') :
    (addClientPipe path w.clientPipesTable = none ∧
        w' = { w with inbox := rest, receiver := .refusing path m }) ∨
      ∃ s, addClientPipe path w.clientPipesTable = some s ∧
        w' = { w with
          inbox := rest
          receiver := .storing s m
          clientPipesTable := Function.update w.clientPipesTable s (some path) } := by
  unfold Sessions.take at hstep
  rw [hinbox] at hstep
  split at hstep
  · rename_i m' rest' hidle heq
    rcases List.cons.inj heq with ⟨rfl, rfl⟩
    rw [hmount] at hstep
    dsimp only at hstep
    split at hstep
    · rename_i hnone
      exact Or.inl ⟨hnone, (Option.some.inj hstep).symm⟩
    · rename_i s hsome
      exact Or.inr ⟨s, hsome, (Option.some.inj hstep).symm⟩
  · cases hstep

end Cases

/-! ## Replies that are on their way -/

/-- The request with tag `t` has taken effect, with this reply. -/
def Noted (es : List (Event (ℕ × ℕ) (Request CString) (Reply ρ))) (t : ℕ × ℕ) (reply : Reply ρ) :
    Prop :=
  ∃ e ∈ es, e.tag = t ∧ e.reply = reply

/-- Every reply that the server holds, and every session that a mount was given, has been noted. -/
structure Recorded (w : World σ ρ) (es : List (Event (ℕ × ℕ) (Request CString) (Reply ρ))) :
    Prop where
  refusing : ∀ path m, w.receiver = .refusing path m → Noted es m.tag (.mount (-1))
  storing : ∀ s m path, w.receiver = .storing s m → m.request = .mount path →
    Noted es m.tag (.mount s)
  slot : ∀ s, (w.bufferEntryTable s).opcode = tfsOpCodeMount → Noted es (w.slotTag s) (.mount s)
  served : ∀ e ∈ w.served, Noted es e.message.tag e.reply
  refused : ∀ m ∈ w.refused, Noted es m.tag (.mount (-1))

section Recording

variable {exec : Operation → σ → ρ × σ} {paths : ℕ → CString} {w w' : World σ ρ} {a : Label}
variable {h : List (World σ ρ × Label)} {s : ℕ}

theorem Noted.cons {t : ℕ × ℕ} {reply : Reply ρ}
    (hn : Noted ((clients exec paths).order h) t reply) :
    Noted ((clients exec paths).order ((w, a) :: h)) t reply := by
  rcases hn with ⟨e, he, htag, hreply⟩
  exact ⟨e, System.Observer.mem_order_cons he, htag, hreply⟩

theorem noted_of_event {e : Event (ℕ × ℕ) (Request CString) (Reply ρ)}
    (he : (clients exec paths).event w a = some e) :
    Noted ((clients exec paths).order ((w, a) :: h)) e.tag e.reply := by
  refine ⟨e, ?_, rfl, rfl⟩
  rw [System.Observer.order_of_some he]
  exact List.mem_append_right _ (List.mem_singleton_self e)

/-- The request in a slot is a mount only if its opcode says so. -/
theorem opcode_of_request_mount {b : BufferEntry} {p : Option CString} {path : CString}
    (h : b.request s p = some (.mount path)) : b.opcode = tfsOpCodeMount := by
  unfold BufferEntry.request at h
  by_contra hne
  rw [if_neg hne] at h
  split_ifs at h <;> cases h

/-- The worker takes the id of an unmount from its own session. -/
theorem session_of_request_unmount {b : BufferEntry} {p : Option CString} {z : ℤ}
    (h : b.request s p = some (.unmount z)) : z = s := by
  unfold BufferEntry.request at h
  split_ifs at h
  · rcases Option.map_eq_some_iff.1 h with ⟨path, _, hpath⟩
    cases hpath
  · rcases Request.unmount.inj (Option.some.inj h) with rfl
    rfl
  all_goals cases Option.some.inj h

theorem mount_of_opcode_store {b : BufferEntry} {r : Request CString}
    (h : (b.store r).opcode = tfsOpCodeMount) : ∃ path, r = .mount path := by
  cases r with
  | mount path => exact ⟨path, rfl⟩
  | _ => simp +decide [BufferEntry.store] at h

theorem recorded_start (lib : σ) : Recorded (World.start lib : World σ ρ) [] where
  refusing := fun _ _ h => by cases h
  storing := fun _ _ _ h => by cases h
  slot := fun _ h => absurd h (show ¬ tfsOpCodeNull = tfsOpCodeMount by decide)
  served := fun _ h => by cases h
  refused := fun _ h => by cases h

/-- A step that touches neither the receiver nor a slot, and answers nothing. -/
theorem Recorded.of_same (hr : Recorded w ((clients exec paths).order h))
    (hreceiver : w'.receiver = w.receiver) (htable : w'.bufferEntryTable = w.bufferEntryTable)
    (htag : w'.slotTag = w.slotTag) (hserved : w'.served = w.served)
    (hrefused : w'.refused = w.refused) :
    Recorded w' ((clients exec paths).order ((w, a) :: h)) where
  refusing := by
    rw [hreceiver]
    exact fun path m hm => (hr.refusing path m hm).cons
  storing := by
    rw [hreceiver]
    exact fun s m path hm hmount => (hr.storing s m path hm hmount).cons
  slot := by
    rw [htable, htag]
    exact fun s hs => (hr.slot s hs).cons
  served := by
    rw [hserved]
    exact fun e he => (hr.served e he).cons
  refused := by
    rw [hrefused]
    exact fun m hm => (hr.refused m hm).cons

theorem Recorded.take (hr : Recorded w ((clients exec paths).order h)) (hstep : take w = some w') :
    Recorded w' ((clients exec paths).order ((w, .take) :: h)) := by
  rcases take_cases hstep with ⟨m, rest, _, hinbox, hcases⟩
  have hkept : w'.bufferEntryTable = w.bufferEntryTable ∧ w'.slotTag = w.slotTag ∧
      w'.served = w.served ∧ w'.refused = w.refused := by
    rcases hcases with ⟨_, _, hw'⟩ | ⟨_, _, _, _, _, hw'⟩ | ⟨_, _, _, hw'⟩ <;>
      (rw [hw']; exact ⟨rfl, rfl, rfl, rfl⟩)
  rcases hkept with ⟨htable, htag, hserved, hrefused⟩
  -- a mount is noted in this step, with the session that the receiver keeps for it
  have hnoted : (∀ path u, w'.receiver = .refusing path u →
        Noted ((clients exec paths).order ((w, .take) :: h)) u.tag (.mount (-1))) ∧
      ∀ s u path, w'.receiver = .storing s u → u.request = .mount path →
        Noted ((clients exec paths).order ((w, .take) :: h)) u.tag (.mount s) := by
    by_cases hmount : ∃ path, m.request = .mount path
    · rcases hmount with ⟨path, hmount⟩
      have hnote : Noted ((clients exec paths).order ((w, .take) :: h)) m.tag
          (.mount (mountReply (addClientPipe path w.clientPipesTable))) :=
        noted_of_event (effect_take hinbox hmount)
      rcases take_mount hinbox hmount hstep with ⟨hadd, hw'⟩ | ⟨s, hadd, hw'⟩
      · rw [hadd] at hnote
        rw [hw']
        refine ⟨?_, fun s u path hu => by cases hu⟩
        intro path u hu
        rcases Receiver.refusing.inj hu with ⟨_, rfl⟩
        exact hnote
      · rw [hadd] at hnote
        rw [hw']
        refine ⟨fun path u hu => (by cases hu), ?_⟩
        intro t u path hu _
        rcases Receiver.storing.inj hu with ⟨rfl, rfl⟩
        exact hnote
    · rcases hcases with ⟨path, hm, _⟩ | ⟨path, _, hm, _⟩ | ⟨s, _, _, hw'⟩
      · exact absurd ⟨path, hm⟩ hmount
      · exact absurd ⟨path, hm⟩ hmount
      · rw [hw']
        refine ⟨fun path u hu => (by cases hu), ?_⟩
        intro t u path hu hrequest
        rcases Receiver.storing.inj hu with ⟨_, rfl⟩
        exact absurd ⟨path, hrequest⟩ hmount
  refine ⟨hnoted.1, hnoted.2, ?_, ?_, ?_⟩
  · rw [htable, htag]
    exact fun s hs => (hr.slot s hs).cons
  · rw [hserved]
    exact fun e he => (hr.served e he).cons
  · rw [hrefused]
    exact fun m hm => (hr.refused m hm).cons

theorem Recorded.refuse (hr : Recorded w ((clients exec paths).order h))
    (hstep : refuse w = some w') :
    Recorded w' ((clients exec paths).order ((w, .refuse) :: h)) := by
  rcases refuse_eq hstep with ⟨path, m, hreceiver, rfl⟩
  refine ⟨fun _ _ hu => (by cases hu), fun _ _ _ hu => (by cases hu), ?_, ?_, ?_⟩
  · exact fun s hs => (hr.slot s hs).cons
  · exact fun e he => (hr.served e he).cons
  · intro u hu
    rcases List.mem_cons.1 hu with rfl | hu
    · exact (hr.refusing path u hreceiver).cons
    · exact (hr.refused u hu).cons

theorem Recorded.store (hr : Recorded w ((clients exec paths).order h))
    (hstep : store w = some w') :
    Recorded w' ((clients exec paths).order ((w, .store) :: h)) := by
  rcases store_eq hstep with ⟨s, m, hreceiver, _, rfl⟩
  refine ⟨fun _ _ hu => (by cases hu), fun _ _ _ hu => (by cases hu), ?_, ?_, ?_⟩
  · intro t ht
    by_cases hts : t = s
    · subst hts
      simp only [Function.update_self] at ht ⊢
      rcases mount_of_opcode_store ht with ⟨path, hmount⟩
      exact (hr.storing t m path hreceiver hmount).cons
    · simp only [Function.update_of_ne hts] at ht ⊢
      exact (hr.slot t ht).cons
  · exact fun e he => (hr.served e he).cons
  · exact fun m hm => (hr.refused m hm).cons

theorem Recorded.execute (hr : Recorded w ((clients exec paths).order h))
    (hstep : execute exec s w = some w') :
    Recorded w' ((clients exec paths).order ((w, .execute s) :: h)) := by
  rcases execute_cases hstep with ⟨r, _, hrequest, hcases⟩
  -- the reply of a mount was noted when the receiver took it, the others are noted now
  have hnew : ∃ reply, w'.served = ⟨s, ⟨(w.slotTag s).1, (w.slotTag s).2, r⟩, reply⟩ :: w.served ∧
      w'.receiver = w.receiver ∧ w'.bufferEntryTable = w.bufferEntryTable ∧
      w'.slotTag = w.slotTag ∧ w'.refused = w.refused ∧
      Noted ((clients exec paths).order ((w, .execute s) :: h)) (w.slotTag s) reply := by
    rcases hcases with ⟨path, rfl, rfl⟩ | ⟨z, rfl, rfl⟩ | ⟨op, hop, rfl⟩
    · exact ⟨_, rfl, rfl, rfl, rfl, rfl, (hr.slot s (opcode_of_request_mount hrequest)).cons⟩
    · exact ⟨_, rfl, rfl, rfl, rfl, rfl, noted_of_event (effect_unmount hrequest)⟩
    · exact ⟨_, rfl, rfl, rfl, rfl, rfl, noted_of_event (effect_operation hrequest hop)⟩
  rcases hnew with ⟨reply, hserved, hreceiver, htable, htag, hrefused, hnoted⟩
  refine ⟨?_, ?_, ?_, ?_, ?_⟩
  · rw [hreceiver]
    exact fun path m hm => (hr.refusing path m hm).cons
  · rw [hreceiver]
    exact fun s m path hm hmount => (hr.storing s m path hm hmount).cons
  · rw [htable, htag]
    exact fun s hs => (hr.slot s hs).cons
  · rw [hserved]
    intro e he
    rcases List.mem_cons.1 he with rfl | he
    · exact hnoted
    · exact (hr.served e he).cons
  · rw [hrefused]
    exact fun m hm => (hr.refused m hm).cons

theorem Recorded.clear (hr : Recorded w ((clients exec paths).order h))
    (hstep : clear s w = some w') :
    Recorded w' ((clients exec paths).order ((w, .clear s) :: h)) := by
  rcases clear_eq hstep with ⟨_, rfl⟩
  refine ⟨fun path m hm => (hr.refusing path m hm).cons,
    fun s m path hm hmount => (hr.storing s m path hm hmount).cons, ?_,
    fun e he => (hr.served e he).cons, fun m hm => (hr.refused m hm).cons⟩
  intro t ht
  by_cases hts : t = s
  · subst hts
    simp only [Function.update_self] at ht
    exact absurd ht (by decide)
  · simp only [Function.update_of_ne hts] at ht
    exact (hr.slot t ht).cons

/-- What the server holds stays noted in every step. -/
theorem Recorded.step (hr : Recorded w ((clients exec paths).order h))
    (hstep : perform exec paths a w = some w') :
    Recorded w' ((clients exec paths).order ((w, a) :: h)) := by
  cases a with
  | send c r =>
      rcases send_eq hstep with ⟨_, rfl⟩
      exact hr.of_same rfl rfl rfl rfl rfl
  | receive c =>
      rcases receive_eq hstep with ⟨_, _, _, _, _, _, _, rfl⟩
      exact hr.of_same rfl rfl rfl rfl rfl
  | wake s =>
      rcases wake_eq (ofWorker_eq hstep).2 with ⟨_, rfl⟩
      exact hr.of_same rfl rfl rfl rfl rfl
  | take => exact hr.take hstep
  | refuse => exact hr.refuse hstep
  | store => exact hr.store hstep
  | lock s =>
      rcases lock_eq (ofWorker_eq hstep).2 with ⟨_, rfl⟩
      exact hr.of_same rfl rfl rfl rfl rfl
  | execute s => exact hr.execute (ofWorker_eq hstep).2
  | write s =>
      rcases write_eq (ofWorker_eq hstep).2 with ⟨_, _, _, _, rfl⟩
      exact hr.of_same rfl rfl rfl rfl rfl
  | clear s => exact hr.clear (ofWorker_eq hstep).2

end Recording

/-! ## No request takes effect twice -/

/-- A request that takes effect was sent, and after that it is where the server holds it: a mount is
with the receiver at least, another request has been performed. -/
structure Timely (w : World σ ρ) (place : ℕ → Place)
    (es : List (Event (ℕ × ℕ) (Request CString) (Reply ρ))) : Prop where
  sent : ∀ e ∈ es, ∃ m ∈ w.sent, m.tag = e.tag ∧ m.request = e.call
  taken : ∀ e ∈ es, e.tag.2 = (w.client e.tag.1).count → place e.tag.1 ≠ .inbox
  performed : ∀ e ∈ es, e.tag.2 = (w.client e.tag.1).count →
    (∃ path, e.call = .mount path) ∨ (place e.tag.1).performed = true

section Timing

variable {exec : Operation → σ → ρ × σ} {paths : ℕ → CString} {lib₀ : σ} {w w' : World σ ρ}
variable {place place' : ℕ → Place} {a : Label} {h : List (World σ ρ × Label)} {c s : ℕ}

/-- A step in which nothing takes effect, and after which the request of `c` is further on. -/
theorem Timely.of_silent (ht : Timely w place ((clients exec paths).order h)) {q : Place}
    (hevent : (clients exec paths).event w a = none) (hsent : w'.sent = w.sent)
    (hcounts : ∀ u, (w'.client u).count = (w.client u).count) (hq : q ≠ .inbox)
    (hperformed : (place c).performed = true → q.performed = true) :
    Timely w' (Function.update place c q) ((clients exec paths).order ((w, a) :: h)) := by
  rw [System.Observer.order_of_none hevent]
  refine ⟨?_, ?_, ?_⟩
  · rw [hsent]
    exact ht.sent
  · intro e he hnumber
    rw [hcounts] at hnumber
    by_cases hec : e.tag.1 = c
    · rw [hec, Function.update_self]
      exact hq
    · rw [Function.update_of_ne hec]
      exact ht.taken e he hnumber
  · intro e he hnumber
    rw [hcounts] at hnumber
    by_cases hec : e.tag.1 = c
    · rcases ht.performed e he hnumber with hmount | hdone
      · exact Or.inl hmount
      · rw [hec] at hdone
        rw [hec, Function.update_self]
        exact Or.inr (hperformed hdone)
    · rw [Function.update_of_ne hec]
      exact ht.performed e he hnumber

theorem Timely.same (ht : Timely w place ((clients exec paths).order h))
    (hevent : (clients exec paths).event w a = none) (hsent : w'.sent = w.sent)
    (hclient : w'.client = w.client) :
    Timely w' place ((clients exec paths).order ((w, a) :: h)) := by
  rw [System.Observer.order_of_none hevent]
  refine ⟨?_, ?_, ?_⟩
  · rw [hsent]
    exact ht.sent
  · rw [hclient]
    exact ht.taken
  · rw [hclient]
    exact ht.performed

/-- The request of `c` takes effect. -/
theorem Timely.of_event (ht : Timely w place ((clients exec paths).order h)) {q : Place}
    {e : Event (ℕ × ℕ) (Request CString) (Reply ρ)} (hevent : (clients exec paths).event w a = some e)
    (hsent : w'.sent = w.sent) (hclient : w'.client = w.client) (hq : q ≠ .inbox)
    (hmem : ∃ m ∈ w.sent, m.tag = e.tag ∧ m.request = e.call) (hec : e.tag.1 = c)
    (hnew : (∃ path, e.call = .mount path) ∨ q.performed = true)
    (hold : (place c).performed = true → q.performed = true) :
    Timely w' (Function.update place c q) ((clients exec paths).order ((w, a) :: h)) := by
  rw [System.Observer.order_of_some hevent]
  refine ⟨?_, ?_, ?_⟩
  · rw [hsent]
    intro e' he'
    rcases List.mem_append.1 he' with he' | he'
    · exact ht.sent e' he'
    · rw [List.mem_singleton.1 he']
      exact hmem
  · rw [hclient]
    intro e' he' hnumber
    by_cases hc : e'.tag.1 = c
    · rw [hc, Function.update_self]
      exact hq
    · rw [Function.update_of_ne hc]
      rcases List.mem_append.1 he' with he' | he'
      · exact ht.taken e' he' hnumber
      · rw [List.mem_singleton.1 he'] at hc
        exact absurd hec hc
  · rw [hclient]
    intro e' he' hnumber
    rcases List.mem_append.1 he' with he' | he'
    · by_cases hc : e'.tag.1 = c
      · rcases ht.performed e' he' hnumber with hmount | hdone
        · exact Or.inl hmount
        · rw [hc] at hdone
          rw [hc, Function.update_self]
          exact Or.inr (hold hdone)
      · rw [Function.update_of_ne hc]
        exact ht.performed e' he' hnumber
    · rcases List.mem_singleton.1 he' with rfl
      rw [hec, Function.update_self]
      exact hnew

/-- A client that sends has no earlier request with the new number. -/
theorem Timely.send {r : Request CString} (ht : Timely w place ((clients exec paths).order h))
    (hlog : Logged exec paths lib₀ w place) (hstep : send c (paths c) r w = some w') :
    Timely w' (Function.update place c .inbox) ((clients exec paths).order ((w, .send c r) :: h)) := by
  rcases send_eq hstep with ⟨_, hw'⟩
  have hevent : (clients exec paths).event w (.send c r) = none := rfl
  rw [System.Observer.order_of_none hevent]
  have hbound : ∀ e ∈ (clients exec paths).order h, e.tag.2 ≤ (w.client e.tag.1).count := by
    intro e he
    rcases ht.sent e he with ⟨m, hm, htag, _⟩
    rw [← htag]
    exact hlog.bound m hm
  -- an event that is current after the step belongs to another client
  have hother : ∀ e ∈ (clients exec paths).order h, e.tag.2 = (w'.client e.tag.1).count →
      e.tag.1 ≠ c ∧ e.tag.2 = (w.client e.tag.1).count := by
    intro e he hnumber
    have hle := hbound e he
    subst hw'
    by_cases hec : e.tag.1 = c
    · rw [hec] at hnumber hle
      simp only [Function.update_self] at hnumber
      omega
    · simp only [Function.update_of_ne hec] at hnumber
      exact ⟨hec, hnumber⟩
  refine ⟨?_, ?_, ?_⟩
  · intro e he
    rcases ht.sent e he with ⟨m, hm, hmem⟩
    subst hw'
    exact ⟨m, List.mem_cons_of_mem _ hm, hmem⟩
  · intro e he hnumber
    rcases hother e he hnumber with ⟨hne, hnumber⟩
    rw [Function.update_of_ne hne]
    exact ht.taken e he hnumber
  · intro e he hnumber
    rcases hother e he hnumber with ⟨hne, hnumber⟩
    rw [Function.update_of_ne hne]
    exact ht.performed e he hnumber

/-- The head of the server pipe was sent, and has not taken effect. -/
theorem Located.head_sent (hl : Located paths w place) (hlog : Logged exec paths lib₀ w place)
    {m : Message} {rest : List Message} (hinbox : w.inbox = m :: rest) :
    m ∈ w.sent ∧ place m.client = .inbox ∧ m.number = (w.client m.client).count := by
  rcases hl.head hinbox with ⟨hplace, _, r, hm, hpending, _⟩
  have hsent := hlog.pending m.client r hpending
  rw [← hm] at hsent
  exact ⟨hsent, hplace, by rw [hm]; rfl⟩

theorem Timely.take (ht : Timely w place ((clients exec paths).order h))
    (hl : Located paths w place) (hlog : Logged exec paths lib₀ w place)
    (hstep : take w = some w') :
    ∃ place', Located paths w' place' ∧ Logged exec paths lib₀ w' place' ∧
      Timely w' place' ((clients exec paths).order ((w, .take) :: h)) := by
  rcases hl.take hstep with ⟨c, p, hplace, hperformed, hsettled, hl'⟩
  rcases take_cases hstep with ⟨m, rest, _, hinbox, hcases⟩
  rcases hl.head_sent hlog hinbox with ⟨hsent, hplace_m, hnumber⟩
  have hsame : SameLog w w' ∧ w'.inbox = rest := by
    rcases hcases with ⟨_, _, hw'⟩ | ⟨_, _, _, _, _, hw'⟩ | ⟨_, _, _, hw'⟩ <;>
      (rw [hw']; exact ⟨⟨rfl, rfl, rfl, rfl, rfl, rfl, rfl⟩, rfl⟩)
  rcases hsame with ⟨hsame, hrest⟩
  have hlog' := hlog.moved hsame hplace hperformed hsettled
  refine ⟨_, hl', hlog', ?_⟩
  -- the request that left the server pipe is no longer in it
  have hmoved : ∀ u, Function.update place c p u = .inbox → u ≠ m.client := by
    rintro u hu rfl
    have hat := hl'.located m.client
    rw [hu] at hat
    rcases hat with ⟨r, _, _, hmem, _⟩
    rw [hrest] at hmem
    exact (hl.head hinbox).2.1 _ hmem rfl
  have hc : c = m.client := by
    by_contra hne
    refine hmoved m.client ?_ rfl
    rw [Function.update_of_ne (Ne.symm hne)]
    exact hplace_m
  have hp : p ≠ .inbox := by
    rintro rfl
    exact hmoved c (Function.update_self _ _ _) hc
  have hnotdone : (place c).performed = true → p.performed = true := by
    rw [hplace]
    intro hfalse
    cases hfalse
  by_cases hmount : ∃ path, m.request = .mount path
  · rcases hmount with ⟨path, hmount⟩
    exact ht.of_event (effect_take hinbox hmount) hsame.sent hsame.client hp
      ⟨m, hsent, rfl, hmount⟩ hc.symm (Or.inl ⟨path, rfl⟩) hnotdone
  · have hevent : (clients exec paths).event w .take = none := by
      rcases hnone : (clients exec paths).event w .take with _ | e
      · rfl
      · rcases effect_cases hnone with ⟨m', rest', path, _, hinbox', hmount', _⟩ | ⟨s, r, ha, _⟩
        · rcases List.cons.inj (hinbox.symm.trans hinbox') with ⟨rfl, _⟩
          exact absurd ⟨path, hmount'⟩ hmount
        · cases ha
    exact ht.of_silent hevent hsame.sent (fun u => by rw [hsame.client]) hp hnotdone

theorem Timely.execute (hpaths : Function.Injective paths)
    (ht : Timely w place ((clients exec paths).order h))
    (hl : Located paths w place) (hlog : Logged exec paths lib₀ w place)
    (hlt : s < maxSessionsAmount) (hstep : execute exec s w = some w') :
    ∃ place', Located paths w' place' ∧ Logged exec paths lib₀ w' place' ∧
      Timely w' place' ((clients exec paths).order ((w, .execute s) :: h)) := by
  rcases hl.execute hpaths hlt hstep with
    ⟨c, r, reply, hplace, hpending, hserved, hanswers, hl'⟩
  have hlog' := hlog.execute hplace hpending hserved hanswers hstep
  refine ⟨_, hl', hlog', ?_⟩
  rcases execute_cases hstep with ⟨r', _, hrequest, hcases⟩
  have hkept : w'.sent = w.sent ∧ w'.client = w.client ∧
      ∃ reply', w'.served = ⟨s, ⟨(w.slotTag s).1, (w.slotTag s).2, r'⟩, reply'⟩ :: w.served := by
    rcases hcases with ⟨_, _, hw'⟩ | ⟨_, _, hw'⟩ | ⟨_, _, hw'⟩ <;>
      (rw [hw']; exact ⟨rfl, rfl, _, rfl⟩)
  rcases hkept with ⟨hsent, hclient, reply', hserved'⟩
  -- the slot holds the current request of `c`
  have hmessage : (⟨(w.slotTag s).1, (w.slotTag s).2, r'⟩ : Message) = current w c r := by
    have hcons := (List.cons.inj (hserved'.symm.trans hserved)).1
    exact congrArg Served.message hcons
  have hr : r' = r := congrArg Message.request hmessage
  have htag : (w.slotTag s).1 = c := congrArg Message.client hmessage
  have hmem : (⟨(w.slotTag s).1, (w.slotTag s).2, r'⟩ : Message) ∈ w.sent := by
    rw [hmessage]
    exact hlog.pending c r hpending
  rcases hevent : (clients exec paths).event w (.execute s) with _ | e
  · exact ht.of_silent hevent hsent (fun u => by rw [hclient]) (by simp) (fun _ => rfl)
  · rcases effect_cases hevent with ⟨_, _, _, ha, _⟩ | ⟨t, r₁, ha, hrequest₁, htag₁, hcall, _⟩
    · cases ha
    · rcases Label.execute.inj ha with rfl
      rcases Option.some.inj (hrequest.symm.trans hrequest₁) with rfl
      refine ht.of_event hevent hsent hclient (by simp) ⟨_, hmem, ?_, hcall.symm⟩ ?_ (Or.inr rfl)
        (fun _ => rfl)
      · rw [htag₁]
        rfl
      · rw [htag₁, htag]

/-- The requests of a run have their places, and what took effect agrees with them. -/
theorem timely_step (hpaths : Function.Injective paths)
    (ht : Timely w place ((clients exec paths).order h)) (hl : Located paths w place)
    (hlog : Logged exec paths lib₀ w place) (hstep : perform exec paths a w = some w') :
    ∃ place', Located paths w' place' ∧ Logged exec paths lib₀ w' place' ∧
      Timely w' place' ((clients exec paths).order ((w, a) :: h)) := by
  cases a with
  | send c r =>
      rcases hl.send hstep with ⟨hplace, hl'⟩
      exact ⟨_, hl', hlog.send hplace hstep, ht.send hlog hstep⟩
  | receive c =>
      rcases hl.receive hpaths hstep with ⟨hplace, hl'⟩
      refine ⟨_, hl', hlog.receive hl hplace hstep, ?_⟩
      rcases receive_eq hstep with ⟨r, reply, rest, cl, _, _, hanswer, hw'⟩
      refine ht.of_silent rfl (by rw [hw']) ?_ (by simp) (fun _ => rfl)
      rw [hw']
      -- the number of requests stays as it is when an answer is read
      exact (Function.forall_update_iff w.client fun u x => x.count = (w.client u).count).2
        ⟨(answer_count hanswer).2, fun _ _ => rfl⟩
  | wake s =>
      have hstep := (ofWorker_eq hstep).2
      have hw' := (wake_eq hstep).2
      refine ⟨_, hl.wake hstep, hlog.same ?_ (fun _ => rfl) (fun _ => rfl), ?_⟩
      · subst hw'
        exact ⟨rfl, rfl, rfl, rfl, rfl, rfl, rfl⟩
      · exact ht.same rfl (by rw [hw']) (by rw [hw'])
  | take => exact ht.take hl hlog hstep
  | refuse =>
      rcases hl.refuse hpaths hstep with ⟨c, hreceiver, hplace, hl'⟩
      refine ⟨_, hl', hlog.refuse hl hreceiver hplace hstep, ?_⟩
      rcases refuse_eq hstep with ⟨_, _, _, hw'⟩
      exact ht.of_silent rfl (by rw [hw']) (fun u => by rw [hw']) (by simp) (fun _ => rfl)
  | store =>
      rcases hl.store hpaths hstep with ⟨c, s, hplace, hl'⟩
      rcases store_eq hstep with ⟨_, _, _, _, hw'⟩
      refine ⟨_, hl', hlog.moved ?_ hplace rfl rfl, ?_⟩
      · subst hw'
        exact ⟨rfl, rfl, rfl, rfl, rfl, rfl, rfl⟩
      · refine ht.of_silent rfl (by rw [hw']) (fun u => by rw [hw']) (by simp) ?_
        rw [hplace]
        exact id
  | lock s =>
      have hstep := (ofWorker_eq hstep).2
      have hw' := (lock_eq hstep).2
      refine ⟨_, hl.lock hstep, hlog.same ?_ (fun _ => rfl) (fun _ => rfl), ?_⟩
      · subst hw'
        exact ⟨rfl, rfl, rfl, rfl, rfl, rfl, rfl⟩
      · exact ht.same rfl (by rw [hw']) (by rw [hw'])
  | execute s =>
      rcases ofWorker_eq hstep with ⟨hlt, hstep⟩
      exact ht.execute hpaths hl hlog hlt hstep
  | write s =>
      rcases ofWorker_eq hstep with ⟨_, hstep⟩
      rcases hl.write hpaths hstep with ⟨c, r, reply, hplace, hpending, hserved, hwritten, hl'⟩
      refine ⟨_, hl', hlog.write hplace hserved hwritten hstep, ?_⟩
      rcases write_eq hstep with ⟨_, _, _, _, hw'⟩
      exact ht.of_silent rfl (by rw [hw']) (fun u => by rw [hw']) (by simp) (fun _ => rfl)
  | clear s =>
      have hstep := (ofWorker_eq hstep).2
      have hw' := (clear_eq hstep).2
      refine ⟨_, hl.clear hstep, hlog.same ?_ (fun _ => rfl) (fun _ => rfl), ?_⟩
      · subst hw'
        exact ⟨rfl, rfl, rfl, rfl, rfl, rfl, rfl⟩
      · exact ht.same rfl (by rw [hw']) (by rw [hw'])

end Timing

end Sessions
end TecnicoFs
