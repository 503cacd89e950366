import TecnicoFs.Sessions.Invariant

/-!
# Routing — every step keeps every request in one place

One lemma for each step. The client whose request the step moves is known from the place of the
request; for every other client the step keeps what it relies on, because the entry of
`client_pipes_table` at the session of the step is not its path.
-/

namespace TecnicoFs
namespace Sessions

open Lib Wire

universe u v

variable {σ : Type u} {ρ : Type v} {paths : ℕ → CString} {w w' : World σ ρ} {place : ℕ → Place}
variable {c s : ℕ} {r : Request CString}

/-! ## What the steps do -/

theorem send_eq {path : CString} (hstep : send c path r w = some w') :
    (w.client c).MayIssue path r ∧
      w' = { w with
        inbox := w.inbox ++ [⟨c, (w.client c).count + 1, r⟩]
        client := Function.update w.client c
          { w.client c with pending := some r, count := (w.client c).count + 1 }
        sent := ⟨c, (w.client c).count + 1, r⟩ :: w.sent } := by
  unfold Sessions.send at hstep
  split_ifs at hstep with hmay
  exact ⟨hmay, (Option.some.inj hstep).symm⟩

theorem receive_eq {path : CString} (hstep : receive c path w = some w') :
    ∃ r reply rest cl, (w.client c).pending = some r ∧ w.pipe path = reply :: rest ∧
      (w.client c).answer r reply = some cl ∧
      w' = { w with
        pipe := Function.update w.pipe path rest
        client := Function.update w.client c cl
        received := (⟨c, (w.client c).count, r⟩, reply) :: w.received } := by
  unfold Sessions.receive at hstep
  split at hstep
  · rename_i r reply rest hpending hpipe
    rcases Option.map_eq_some_iff.1 hstep with ⟨cl, hanswer, hw'⟩
    exact ⟨r, reply, rest, cl, hpending, hpipe, hanswer, hw'.symm⟩
  · cases hstep

theorem addClientPipe_eq {path : CString} {table : ℕ → Option CString} {s : ℕ}
    (h : addClientPipe path table = some s) : s < maxSessionsAmount ∧ table s = none := by
  unfold addClientPipe at h
  split_ifs at h
  have hmem := List.mem_of_find?_eq_some h
  have hnone := List.find?_some h
  exact ⟨List.mem_range.1 hmem, by simpa using hnone⟩

/-- The three ways in which the receiver takes a request. -/
theorem take_cases (hstep : take w = some w') :
    ∃ m rest, w.receiver = .idle ∧ w.inbox = m :: rest ∧
      ((∃ path, m.request = .mount path ∧
          w' = { w with inbox := rest, receiver := .refusing path m }) ∨
        (∃ path s, m.request = .mount path ∧ s < maxSessionsAmount ∧
          w.clientPipesTable s = none ∧
          w' = { w with
            inbox := rest
            receiver := .storing s m
            clientPipesTable := Function.update w.clientPipesTable s (some path) }) ∨
        (∃ s : ℕ, m.request.sessionId = some (s : ℤ) ∧ s < maxSessionsAmount ∧
          w' = { w with inbox := rest, receiver := .storing s m })) := by
  unfold Sessions.take at hstep
  split at hstep
  · rename_i m rest hidle hinbox
    refine ⟨m, rest, hidle, hinbox, ?_⟩
    split at hstep
    · rename_i path hmount
      split at hstep
      · exact Or.inl ⟨path, hmount, (Option.some.inj hstep).symm⟩
      · rename_i s hadd
        rcases addClientPipe_eq hadd with ⟨hlt, hnone⟩
        exact Or.inr (Or.inl ⟨path, s, hmount, hlt, hnone, (Option.some.inj hstep).symm⟩)
    · split at hstep
      · cases hstep
      · rename_i z hz
        split_ifs at hstep with hrange
        rcases hrange with ⟨hnonneg, hlt⟩
        refine Or.inr (Or.inr ⟨z.toNat, ?_, by omega, (Option.some.inj hstep).symm⟩)
        rw [Int.toNat_of_nonneg hnonneg]
        exact hz
  · cases hstep

theorem refuse_eq (hstep : refuse w = some w') :
    ∃ path m, w.receiver = .refusing path m ∧
      w' = { w with
        receiver := .idle
        pipe := Function.update w.pipe path (w.pipe path ++ [.mount (-1)])
        refused := m :: w.refused
        written := ⟨path, m.tag, .mount (-1)⟩ :: w.written } := by
  unfold Sessions.refuse at hstep
  split at hstep
  · rename_i path m hreceiver
    exact ⟨path, m, hreceiver, (Option.some.inj hstep).symm⟩
  · cases hstep

theorem store_eq (hstep : store w = some w') :
    ∃ s m, w.receiver = .storing s m ∧ (w.worker s).locked = false ∧
      w' = { w with
        receiver := .idle
        bufferEntryTable := Function.update w.bufferEntryTable s
          ((w.bufferEntryTable s).store m.request)
        slotTag := Function.update w.slotTag s m.tag
        worker := Function.update w.worker s .ready } := by
  unfold Sessions.store at hstep
  split at hstep
  · rename_i s m hreceiver
    split_ifs at hstep with hlocked
    exact ⟨s, m, hreceiver, by simpa using hlocked, (Option.some.inj hstep).symm⟩
  · cases hstep

theorem wake_eq (hstep : wake s w = some w') :
    w.worker s = .waiting ∧ w' = { w with worker := Function.update w.worker s .ready } := by
  unfold Sessions.wake at hstep
  split at hstep
  · rename_i hworker
    exact ⟨hworker, (Option.some.inj hstep).symm⟩
  · cases hstep

theorem lock_eq (hstep : lock s w = some w') :
    w.worker s = .ready ∧
      w' = { w with
        worker := Function.update w.worker s
          (if (w.bufferEntryTable s).opcode > tfsOpCodeNull then .handling else .waiting) } := by
  unfold Sessions.lock at hstep
  split at hstep
  · rename_i hworker
    refine ⟨hworker, ?_⟩
    split_ifs at hstep with hop
    · rw [if_pos hop]
      exact (Option.some.inj hstep).symm
    · rw [if_neg hop]
      exact (Option.some.inj hstep).symm
  · cases hstep

/-- The three kinds of requests a worker performs. -/
theorem execute_cases {exec : Operation → σ → ρ × σ} (hstep : execute exec s w = some w') :
    ∃ r, w.worker s = .handling ∧
      (w.bufferEntryTable s).request s (w.clientPipesTable s) = some r ∧
      ((∃ path, r = .mount path ∧
          w' = World.serve { w with fclient := Function.update w.fclient s (some path) } s r
            (.mount s)) ∨
        (∃ z, r = .unmount z ∧
          w' = World.serve
            { w with clientPipesTable := Function.update w.clientPipesTable s none } s r
            (.unmount 0)) ∨
        (∃ op, operation r = some op ∧
          w' = World.serve { w with lib := (exec op w.lib).2 } s r
            (.library (exec op w.lib).1))) := by
  unfold Sessions.execute at hstep
  split at hstep
  · rename_i hworker
    split at hstep
    · cases hstep
    · rename_i path hrequest
      exact ⟨_, hworker, hrequest, Or.inl ⟨path, rfl, (Option.some.inj hstep).symm⟩⟩
    · rename_i z hrequest
      exact ⟨_, hworker, hrequest, Or.inr (Or.inl ⟨z, rfl, (Option.some.inj hstep).symm⟩)⟩
    · rename_i r _ _ hrequest
      rcases Option.map_eq_some_iff.1 hstep with ⟨op, hop, hw'⟩
      exact ⟨r, hworker, hrequest, Or.inr (Or.inr ⟨op, hop, hw'.symm⟩)⟩
  · cases hstep

theorem write_eq (hstep : write s w = some w') :
    ∃ reply path, w.worker s = .replying reply ∧ w.fclient s = some path ∧
      w' = { w with
        worker := Function.update w.worker s .clearing
        pipe := Function.update w.pipe path (w.pipe path ++ [reply])
        written := ⟨path, w.slotTag s, reply⟩ :: w.written } := by
  unfold Sessions.write at hstep
  split at hstep
  · rename_i reply path hworker hfclient
    exact ⟨reply, path, hworker, hfclient, (Option.some.inj hstep).symm⟩
  · cases hstep

theorem clear_eq (hstep : clear s w = some w') :
    w.worker s = .clearing ∧
      w' = { w with
        worker := Function.update w.worker s .ready
        fclient := if (w.bufferEntryTable s).opcode = tfsOpCodeUnmount then
            Function.update w.fclient s none
          else
            w.fclient
        bufferEntryTable := Function.update w.bufferEntryTable s
          { w.bufferEntryTable s with opcode := tfsOpCodeNull } } := by
  unfold Sessions.clear at hstep
  split at hstep
  · rename_i hworker
    exact ⟨hworker, (Option.some.inj hstep).symm⟩
  · cases hstep

/-- A reply of the file system changes nothing but what the client waits for. -/
theorem answer_library {cl : Client} {x : ρ} (hop : (operation r).isSome) :
    cl.answer r (.library x) = some { cl with pending := none } := by
  cases r <;> first | rfl | cases hop

theorem answer_count {cl cl' : Client} {reply : Reply ρ} (h : cl.answer r reply = some cl') :
    cl'.pending = none ∧ cl'.count = cl.count := by
  unfold Client.answer at h
  split at h
  · rcases Option.some.inj h with rfl
    exact ⟨rfl, rfl⟩
  · rcases Option.some.inj h with rfl
    exact ⟨rfl, rfl⟩
  · split_ifs at h
    rcases Option.some.inj h with rfl
    exact ⟨rfl, rfl⟩
  · cases h

theorem OfSession.sessionId (h : OfSession s r) : r.sessionId = some (s : ℤ) := by
  rcases h with rfl | ⟨hsession, _⟩
  · rfl
  · exact hsession

theorem not_ofSession_mount {path : CString} : ¬ OfSession s (.mount path) := by
  intro h
  cases h.sessionId

/-! ## What a place tells -/

/-- A client that waits for no reply has no request on its way. -/
theorem Located.away (h : Located paths w place) (hpending : (w.client c).pending = none) :
    place c = .away := by
  have hat := h.located c
  rcases hplace : place c with _ | _ | _ | s | s | s | _
  · rfl
  all_goals
    rw [hplace] at hat
  · rcases hat with ⟨r, hr, _⟩
    simp [hpending] at hr
  · simp [hat.1] at hpending
  · rcases hat with ⟨r, hr, _⟩
    simp [hpending] at hr
  · rcases hat with ⟨r, hr, _⟩
    simp [hpending] at hr
  · rcases hat with ⟨r, _, hr, _⟩
    simp [hpending] at hr
  · rcases hat with ⟨r, _, hr, _⟩
    simp [hpending] at hr

/-- A reply in the pipe of a client is the answer to its request. -/
theorem Located.answered (h : Located paths w place) (hpipe : w.pipe (paths c) ≠ []) :
    place c = .answered := by
  have hat := h.located c
  rcases hplace : place c with _ | _ | _ | s | s | s | _
  all_goals
    rw [hplace] at hat
  · exact absurd hat.2.1 hpipe
  · rcases hat with ⟨r, _, hnil, _⟩
    exact absurd hnil hpipe
  · exact absurd hat.2.1 hpipe
  · rcases hat with ⟨r, _, hnil, _⟩
    exact absurd hnil hpipe
  · rcases hat with ⟨r, _, hnil, _⟩
    exact absurd hnil hpipe
  · rcases hat with ⟨r, _, _, hnil, _⟩
    exact absurd hnil hpipe

/-- The reply in the pipe of a client was written for its latest request. -/
theorem Located.reply_written (h : Located paths w place) {reply : Reply ρ} {rest : List (Reply ρ)}
    (hpipe : w.pipe (paths c) = reply :: rest) :
    ⟨paths c, (c, (w.client c).count), reply⟩ ∈ w.written := by
  have hat := h.located c
  rw [h.answered (by rw [hpipe]; simp)] at hat
  rcases hat with ⟨_, reply₀, _, hpipe₀, hwritten, _⟩
  rcases List.cons.inj (hpipe.symm.trans hpipe₀) with ⟨rfl, _⟩
  exact hwritten

/-- The client of another place is another client. -/
theorem ne_of_place {p q : Place} {u : ℕ} (hu : place u = p) (hc : place c = q) (hpq : p ≠ q) :
    u ≠ c := by
  rintro rfl
  exact hpq (hu.symm.trans hc)

/-- The request of one client moves to a place; the others keep theirs. -/
theorem Located.moved (h : Located paths w place) {p : Place} (hself : At paths w' c p)
    (hkept : ∀ u, u ≠ c → Kept paths w w' u) :
    ∀ u, At paths w' u (Function.update place c p u) :=
  (Function.forall_update_iff place fun u p => At paths w' u p).2
    ⟨hself, fun u hu => (hkept u hu).located (h.located u)⟩

theorem update_place {p q q' : Place} {u : ℕ} (hu : place u = q) (hc : place c = q')
    (hne : q ≠ q') : Function.update place c p u = q := by
  rw [Function.update_of_ne (ne_of_place hu hc hne)]
  exact hu

/-! ## Clients' steps -/

theorem Located.send (h : Located paths w place) (hstep : send c (paths c) r w = some w') :
    place c = .away ∧ Located paths w' (Function.update place c .inbox) := by
  rcases send_eq hstep with ⟨⟨_, hpending, hissue⟩, hw'⟩
  have haway := h.away hpending
  have hat := h.located c
  rw [haway] at hat
  -- a client with no pending request has none in the pipe
  have hother : ∀ m ∈ w.inbox, m.client ≠ c := by
    intro m hm
    exact ne_of_place (h.inbox m hm) haway (by decide)
  -- the request is a mount, or one of the session that the client is attached to
  have hself : At paths w' c .inbox := by
    subst hw'
    refine ⟨r, by simp, hat.2.1, by simp [current], ?_⟩
    rw [Issued]
    simp only [Function.update_self]
    rcases hsession : (w.client c).session with _ | s
    · rw [hsession] at hissue
      exact Or.inl ⟨hissue, rfl⟩
    · rw [hsession] at hissue
      have ha := hat.2.2 s hsession
      exact Or.inr ⟨s, rfl, ⟨ha.lt, ha.table, ha.fclient, ha.open_⟩, hissue⟩
  have hkept : ∀ u, u ≠ c → Kept paths w w' u := by
    intro u hu
    subst hw'
    refine Kept.of_sessions (fun t => ⟨rfl, rfl, rfl, rfl, rfl⟩) (Function.update_of_ne hu _ _) rfl
      ?_ (fun _ _ _ => rfl) (fun _ he => he) (fun _ hx => hx)
    intro m hm _
    exact List.mem_append_left _ hm
  have hlocated := h.moved hself hkept
  subst hw'
  refine ⟨haway, hlocated, ?_, ?_, ?_, ?_, ?_, ?_, h.handling⟩
  · intro m hm
    rcases List.mem_append.1 hm with hold | hnew
    · exact update_place (h.inbox m hold) haway (by decide)
    · rw [List.mem_singleton.1 hnew]
      exact Function.update_self _ _ _
  · simp only [List.map_append, List.map_cons, List.map_nil]
    rw [List.nodup_append]
    refine ⟨h.inboxOnce, by simp, ?_⟩
    rintro u hu v hv
    rcases List.mem_map.1 hu with ⟨m, hm, rfl⟩
    rw [List.mem_singleton.1 hv]
    exact hother m hm
  · intro path m hm
    exact update_place (h.refusing path m hm) haway (by decide)
  · intro t m hm
    exact update_place (h.storing t m hm) haway (by simp)
  · intro t hop hworker
    exact update_place (h.slots t hop hworker) haway (by simp)
  · intro t reply hworker
    exact update_place (h.replying t reply hworker) haway (by simp)

theorem Located.receive (hpaths : Function.Injective paths) (h : Located paths w place)
    (hstep : receive c (paths c) w = some w') :
    place c = .answered ∧ Located paths w' (Function.update place c .away) := by
  rcases receive_eq hstep with ⟨r, reply, rest, cl, hpending, hpipe, hanswer, hw'⟩
  have hplace : place c = .answered := h.answered (by rw [hpipe]; simp)
  have hat := h.located c
  rw [hplace] at hat
  rcases hat with ⟨r₀, reply₀, hpending₀, hpipe₀, _, hreplied⟩
  rcases Option.some.inj (hpending.symm.trans hpending₀) with rfl
  rcases List.cons.inj (hpipe.symm.trans hpipe₀) with ⟨rfl, rfl⟩
  -- a mount's reply gives a session or none, an unmount's takes it, any other keeps it
  have hself : At paths w' c .away := by
    subst hw'
    refine ⟨?_, by simp, ?_⟩
    · simp only [Function.update_self]
      rcases hreplied with ⟨rfl, _, rfl | ⟨s, rfl, _⟩⟩ | ⟨z, rfl, rfl⟩ | ⟨⟨x, rfl⟩, hop, _⟩
      · rcases Option.some.inj hanswer with rfl
        rfl
      · rcases Option.some.inj hanswer with rfl
        rfl
      · rcases Option.some.inj hanswer with rfl
        rfl
      · rw [answer_library hop] at hanswer
        rcases Option.some.inj hanswer with rfl
        rfl
    · intro s hs
      simp only [Function.update_self] at hs
      -- the session that the client has now is attached in the server too
      have ha : Attached paths w c s := by
        rcases hreplied with ⟨rfl, _, rfl | ⟨t, rfl, ha⟩⟩ | ⟨z, rfl, rfl⟩ |
          ⟨⟨x, rfl⟩, hop, t, ht, ha⟩
        · rcases Option.some.inj hanswer with rfl
          cases hs
        · rcases Option.some.inj hanswer with rfl
          simp only [show ¬ ((t : ℤ) = -1) by omega, if_false, Int.toNat_natCast,
            Option.some.injEq] at hs
          exact hs ▸ ha
        · rcases Option.some.inj hanswer with rfl
          cases hs
        · rw [answer_library hop] at hanswer
          rcases Option.some.inj hanswer with rfl
          exact Option.some.inj (ht.symm.trans hs) ▸ ha
      exact ⟨ha.lt, ha.table, ha.fclient, ha.open_⟩
  have hkept : ∀ u, u ≠ c → Kept paths w w' u := by
    intro u hu
    subst hw'
    exact Kept.of_sessions (fun t => ⟨rfl, rfl, rfl, rfl, rfl⟩) (Function.update_of_ne hu _ _)
      (Function.update_of_ne (fun he => hu (hpaths he)) _ _) (fun _ hm _ => hm) (fun _ _ _ => rfl)
      (fun _ he => he) (fun _ hx => hx)
  have hlocated := h.moved hself hkept
  subst hw'
  refine ⟨hplace, hlocated, ?_, h.inboxOnce, ?_, ?_, ?_, ?_, h.handling⟩
  · intro m hm
    exact update_place (h.inbox m hm) hplace (by decide)
  · intro path m hm
    exact update_place (h.refusing path m hm) hplace (by decide)
  · intro t m hm
    exact update_place (h.storing t m hm) hplace (by simp)
  · intro t hop hworker
    exact update_place (h.slots t hop hworker) hplace (by simp)
  · intro t reply hworker
    exact update_place (h.replying t reply hworker) hplace (by simp)

/-! ## The receiver's steps -/

/-- The client of the message at the head of the server pipe. -/
theorem Located.head (h : Located paths w place) {m : Message} {rest : List Message}
    (hinbox : w.inbox = m :: rest) :
    place m.client = .inbox ∧ (∀ u ∈ rest, u.client ≠ m.client) ∧
      ∃ r, m = current w m.client r ∧ (w.client m.client).pending = some r ∧
        w.pipe (paths m.client) = [] ∧ Issued paths w m.client r := by
  have hplace := h.inbox m (by rw [hinbox]; simp)
  have honce := h.inboxOnce
  rw [hinbox, List.map_cons, List.nodup_cons] at honce
  have hother : ∀ u ∈ rest, u.client ≠ m.client := by
    intro u hu he
    exact honce.1 (List.mem_map.2 ⟨u, hu, he⟩)
  have hat := h.located m.client
  rw [hplace] at hat
  rcases hat with ⟨r, hpending, hpipe, hmem, hissued⟩
  refine ⟨hplace, hother, r, ?_, hpending, hpipe, hissued⟩
  rw [hinbox] at hmem
  rcases List.mem_cons.1 hmem with heq | hrest
  · exact heq.symm
  · exact (hother _ hrest rfl).elim

/-- The receiver has taken the message at the head, for a place `p`. -/
theorem Located.taken (h : Located paths w place) {m : Message} {rest : List Message}
    (hidle : w.receiver = .idle) (hinbox : w.inbox = m :: rest) {p : Place}
    {receiver : Receiver} {table : ℕ → Option CString}
    (hw' : w' = { w with inbox := rest, receiver := receiver, clientPipesTable := table })
    (htable : ∀ t x, w.clientPipesTable t = some x → table t = some x)
    (hself : At paths w' m.client p)
    (hrefusing : ∀ path u, receiver = .refusing path u → u = m ∧ p = .refusing)
    (hstoring : ∀ t u, receiver = .storing t u → u = m ∧ p = .storing t) :
    Located paths w' (Function.update place m.client p) := by
  rcases h.head hinbox with ⟨hplace, hother, _⟩
  -- the receiver touches the head of the pipe and a free entry of the table only
  have hkept : ∀ u, u ≠ m.client → Kept paths w w' u := by
    intro u hu
    subst hw'
    refine ⟨rfl, rfl, ?_, ?_, fun _ he => he, fun _ hx => hx, fun t ht => htable t _ ht, ?_, ?_, ?_⟩
    · intro x hx hxu
      rw [hinbox] at hx
      rcases List.mem_cons.1 hx with rfl | hx
      · exact absurd hxu.symm hu
      · exact hx
    · intro x hx
      rw [hidle] at hx
      cases hx
    · intro t ht
      exact ⟨ht.lt, htable t _ ht.table, ht.fclient, ht.open_⟩
    · intro t _ _ hworker
      exact ⟨rfl, rfl, hworker⟩
    · intro t reply hworker _
      exact ⟨hworker, rfl, rfl, rfl⟩
  have hlocated := h.moved hself hkept
  have honce := h.inboxOnce
  rw [hinbox, List.map_cons, List.nodup_cons] at honce
  subst hw'
  refine ⟨hlocated, ?_, honce.2, ?_, ?_, ?_, ?_, h.handling⟩
  · intro u hu
    rw [Function.update_of_ne (hother u hu)]
    exact h.inbox u (by rw [hinbox]; exact List.mem_cons_of_mem _ hu)
  · intro path u hu
    rcases hrefusing path u hu with ⟨rfl, rfl⟩
    exact Function.update_self _ _ _
  · intro t u hu
    rcases hstoring t u hu with ⟨rfl, rfl⟩
    exact Function.update_self _ _ _
  · intro t hop hworker
    exact update_place (h.slots t hop hworker) hplace (by simp)
  · intro t reply hworker
    exact update_place (h.replying t reply hworker) hplace (by simp)

theorem Located.take (h : Located paths w place) (hstep : take w = some w') :
    ∃ c p, place c = .inbox ∧ p.performed = false ∧ p.settled = false ∧
      Located paths w' (Function.update place c p) := by
  rcases take_cases hstep with ⟨m, rest, hidle, hinbox, hcases⟩
  rcases h.head hinbox with ⟨hplace, _, r, hm, hpending, hpipe, hissued⟩
  have hrequest : m.request = r := by rw [hm]; rfl
  rcases hcases with ⟨path, hmount, hw'⟩ | ⟨path, s, hmount, hlt, hfree, hw'⟩ |
    ⟨s, hsession, hlt, hw'⟩
  · -- a mount that finds no free entry
    refine ⟨m.client, .refusing, hplace, rfl, rfl, ?_⟩
    rcases hissued with ⟨hr, hnone⟩ | ⟨s, _, _, hof⟩
    · rw [hrequest, hr] at hmount
      rcases Request.mount.inj hmount with rfl
      refine h.taken hidle hinbox hw' (fun _ _ hx => hx) ?_ ?_ ?_
      · subst hw'
        refine ⟨by rw [hpending, hr], hpipe, hnone, ?_⟩
        rw [hr] at hm
        exact congrArg _ hm
      · rintro path u hu
        exact ⟨(Receiver.refusing.inj hu).2.symm, rfl⟩
      · rintro t u hu
        cases hu
    · rw [hrequest] at hmount
      exact absurd (hmount ▸ hof) not_ofSession_mount
  · -- a mount that gets the free entry `s`
    refine ⟨m.client, .storing s, hplace, rfl, rfl, ?_⟩
    rcases hissued with ⟨hr, hnone⟩ | ⟨s, _, _, hof⟩
    · rw [hrequest, hr] at hmount
      rcases Request.mount.inj hmount with rfl
      refine h.taken hidle hinbox hw' ?_ ?_ ?_ ?_
      · intro t x hx
        rw [Function.update_of_ne]
        · exact hx
        · rintro rfl
          rw [hfree] at hx
          cases hx
      · subst hw'
        refine ⟨r, hpending, hpipe, congrArg _ hm, hlt, Function.update_self _ _ _, ?_⟩
        exact Or.inl ⟨hr, hnone⟩
      · rintro path u hu
        cases hu
      · rintro t u hu
        rcases Receiver.storing.inj hu with ⟨rfl, rfl⟩
        exact ⟨rfl, rfl⟩
    · rw [hrequest] at hmount
      exact absurd (hmount ▸ hof) not_ofSession_mount
  · -- a request of a session: its id is that of the session the client is attached to
    refine ⟨m.client, .storing s, hplace, rfl, rfl, ?_⟩
    rw [hrequest] at hsession
    rcases hissued with ⟨hr, _⟩ | ⟨s', hs', ha, hof⟩
    · rw [hr] at hsession
      cases hsession
    · have hs : s' = s := by
        have hz := hof.sessionId
        rw [hsession] at hz
        have := Option.some.inj hz
        omega
      subst hs
      refine h.taken hidle hinbox hw' (fun _ _ hx => hx) ?_ ?_ ?_
      · subst hw'
        refine ⟨r, hpending, hpipe, congrArg _ hm, hlt, ha.table, ?_⟩
        exact Or.inr ⟨hs', ⟨ha.lt, ha.table, ha.fclient, ha.open_⟩, hof⟩
      · rintro path u hu
        cases hu
      · rintro t u hu
        rcases Receiver.storing.inj hu with ⟨rfl, rfl⟩
        exact ⟨rfl, rfl⟩

theorem Located.refuse (hpaths : Function.Injective paths) (h : Located paths w place)
    (hstep : refuse w = some w') :
    ∃ c, w.receiver = .refusing (paths c) (current w c (.mount (paths c))) ∧
      place c = .refusing ∧ Located paths w' (Function.update place c .answered) := by
  rcases refuse_eq hstep with ⟨path, m, hreceiver, hw'⟩
  have hplace := h.refusing path m hreceiver
  have hat := h.located m.client
  rw [hplace] at hat
  rcases hat with ⟨hpending, hpipe, hnone, hreceiver₀⟩
  have heq := hreceiver.symm.trans hreceiver₀
  rcases Receiver.refusing.inj heq with ⟨rfl, hm⟩
  -- the refusal -1 is the only message in the client's pipe
  have hself : At paths w' m.client .answered := by
    subst hw'
    refine ⟨.mount (paths m.client), .mount (-1), hpending, ?_, ?_, ?_⟩
    · simp [hpipe]
    · have htag : m.tag = (m.client, (w.client m.client).count) := by
        rw [hm]
        rfl
      rw [htag]
      exact List.mem_cons_self
    · exact Or.inl ⟨rfl, hnone, Or.inl rfl⟩
  have hkept : ∀ u, u ≠ m.client → Kept paths w w' u := by
    intro u hu
    subst hw'
    refine Kept.of_sessions (fun t => ⟨rfl, rfl, rfl, rfl, rfl⟩) rfl
      (Function.update_of_ne (fun he => hu (hpaths he)) _ _) (fun _ hx _ => hx) ?_
      (fun _ he => he) (fun _ hx => List.mem_cons_of_mem _ hx)
    intro x hx hxu
    rw [hreceiver] at hx
    rcases Option.some.inj hx with rfl
    exact (hu hxu.symm).elim
  have hlocated := h.moved hself hkept
  subst hw'
  refine ⟨m.client, hreceiver₀, hplace, hlocated, ?_, h.inboxOnce, ?_, ?_, ?_, ?_, h.handling⟩
  · intro x hx
    exact update_place (h.inbox x hx) hplace (by decide)
  · rintro path x hx
    cases hx
  · rintro t x hx
    cases hx
  · intro t hop hworker
    exact update_place (h.slots t hop hworker) hplace (by simp)
  · intro t reply hworker
    exact update_place (h.replying t reply hworker) hplace (by simp)

theorem Located.store (hpaths : Function.Injective paths) (h : Located paths w place)
    (hstep : store w = some w') :
    ∃ c s, place c = .storing s ∧ Located paths w' (Function.update place c (.slot s)) := by
  rcases store_eq hstep with ⟨s, m, hreceiver, hunlocked, hw'⟩
  have hplace := h.storing s m hreceiver
  have hat := h.located m.client
  rw [hplace] at hat
  rcases hat with ⟨r, hpending, hpipe, hreceiver₀, hlt, htable, henrolled⟩
  have heq := hreceiver.symm.trans hreceiver₀
  rcases Receiver.storing.inj heq with ⟨_, hm⟩
  have hrequest : m.request = r := by
    rw [hm]
    rfl
  -- the slot holds what the client sent, and its worker is woken
  have hself : At paths w' m.client (.slot s) := by
    subst hw'
    refine ⟨r, hpending, hpipe, ?_, Or.inl (Function.update_self _ _ _), ?_, hlt, htable, ?_⟩
    · simp only [Function.update_self]
      rw [hm]
      rfl
    · simp only [Function.update_self, hrequest]
      exact request_store (henrolled.imp And.left fun he => he.2.2)
    · rcases henrolled with hmount | ⟨hsession, ha, hof⟩
      · exact Or.inl hmount
      · exact Or.inr ⟨hsession, ⟨ha.lt, ha.table, ha.fclient, by simp⟩, hof⟩
  have hkept : ∀ u, u ≠ m.client → Kept paths w w' u := by
    intro u hu
    -- entry `s` is the sender's, so no other client relies on the slot
    have hnot : w.clientPipesTable s ≠ some (paths u) := by
      rw [htable]
      intro he
      exact hu (hpaths (Option.some.inj he)).symm
    subst hw'
    refine Kept.of_session s ?_ rfl rfl (fun _ hx _ => hx) ?_ (fun _ he => he) (fun _ hx => hx) id
      (fun ha => absurd ha.table hnot) (fun ht => absurd ht hnot) ?_
    · intro t ht
      exact ⟨rfl, Function.update_of_ne ht _ _, Function.update_of_ne ht _ _,
        Function.update_of_ne ht _ _, rfl⟩
    · intro x hx hxu
      rw [hreceiver] at hx
      rcases Option.some.inj hx with rfl
      exact (hu hxu.symm).elim
    · intro reply hworker
      rw [hworker] at hunlocked
      cases hunlocked
  have hlocated := h.moved hself hkept
  subst hw'
  refine ⟨m.client, s, hplace, hlocated, ?_, h.inboxOnce, ?_, ?_, ?_, ?_, ?_⟩
  · intro x hx
    exact update_place (h.inbox x hx) hplace (by simp)
  · rintro path x hx
    cases hx
  · rintro t x hx
    cases hx
  · intro t hop hworker
    by_cases hts : t = s
    · subst hts
      simp [Message.tag]
    · simp only [Function.update_of_ne hts] at hop hworker ⊢
      exact update_place (h.slots t hop hworker) hplace (by simp)
  · intro t reply hworker
    by_cases hts : t = s
    · subst hts
      simp at hworker
    · simp only [Function.update_of_ne hts] at hworker ⊢
      exact update_place (h.replying t reply hworker) hplace (by simp)
  · intro t hworker
    by_cases hts : t = s
    · subst hts
      simp at hworker
    · simp only [Function.update_of_ne hts] at hworker ⊢
      exact h.handling t hworker

/-! ## Steps of a worker that move no request -/

/-- A step of worker `s` after which every client's request is where it was. -/
theorem Located.of_worker (h : Located paths w place) (hinbox : w'.inbox = w.inbox)
    (hreceiver : w'.receiver = w.receiver) (htag : w'.slotTag = w.slotTag)
    (hothers : ∀ t, t ≠ s →
      w'.worker t = w.worker t ∧ w'.bufferEntryTable t = w.bufferEntryTable t)
    (hkept : ∀ u, Kept paths w w' u)
    (hslot : (w'.bufferEntryTable s).opcode > tfsOpCodeNull →
      (w'.worker s = .ready ∨ w'.worker s = .waiting ∨ w'.worker s = .handling) →
        place (w.slotTag s).1 = .slot s)
    (hreplying : ∀ reply, w'.worker s ≠ .replying reply)
    (hhandling : w'.worker s = .handling → (w'.bufferEntryTable s).opcode > tfsOpCodeNull) :
    Located paths w' place := by
  refine ⟨fun u => (hkept u).located (h.located u), by rw [hinbox]; exact h.inbox,
    by rw [hinbox]; exact h.inboxOnce, by rw [hreceiver]; exact h.refusing,
    by rw [hreceiver]; exact h.storing, ?_, ?_, ?_⟩
  · -- the slot of `s` is as the step leaves it, every other slot as it was
    intro t
    rw [htag]
    by_cases hts : t = s
    · subst hts
      exact hslot
    · rw [(hothers t hts).1, (hothers t hts).2]
      exact h.slots t
  · -- worker `s` has no reply in hand after these steps
    intro t reply hworker
    rw [htag]
    by_cases hts : t = s
    · subst hts
      exact absurd hworker (hreplying reply)
    · rw [(hothers t hts).1] at hworker
      exact h.replying t reply hworker
  · intro t
    by_cases hts : t = s
    · subst hts
      exact hhandling
    · rw [(hothers t hts).1, (hothers t hts).2]
      exact h.handling t

theorem Located.wake (h : Located paths w place) (hstep : wake s w = some w') :
    Located paths w' place := by
  rcases wake_eq hstep with ⟨hwaiting, hw'⟩
  -- waking up moves no request: every client keeps what it relies on
  have hkept : ∀ u, Kept paths w w' u := by
    intro u
    subst hw'
    refine Kept.of_session s ?_ rfl rfl (fun _ hx _ => hx) (fun _ _ _ => rfl) (fun _ he => he)
      (fun _ hx => hx) id ?_ ?_ ?_
    · intro t ht
      exact ⟨rfl, rfl, rfl, Function.update_of_ne ht _ _, rfl⟩
    · intro ha
      exact ⟨ha.lt, ha.table, ha.fclient, by simp⟩
    · rintro _ _ (hworker | hworker) <;> simp [hwaiting] at hworker
    · intro reply hworker
      simp [hwaiting] at hworker
  subst hw'
  refine h.of_worker (s := s) rfl rfl rfl ?_ hkept ?_ ?_ ?_
  · intro t ht
    exact ⟨Function.update_of_ne ht _ _, rfl⟩
  · intro hop _
    exact h.slots s hop (Or.inr (Or.inl hwaiting))
  · intro reply
    simp
  · intro hworker
    simp at hworker

theorem Located.lock (h : Located paths w place) (hstep : lock s w = some w') :
    Located paths w' place := by
  rcases lock_eq hstep with ⟨hready, hw'⟩
  -- the worker goes from `ready` to `handling`, or back to sleep when its slot is empty
  have hkept : ∀ u, Kept paths w w' u := by
    intro u
    subst hw'
    refine Kept.of_session s ?_ rfl rfl (fun _ hx _ => hx) (fun _ _ _ => rfl) (fun _ he => he)
      (fun _ hx => hx) id ?_ ?_ ?_
    · intro t ht
      exact ⟨rfl, rfl, rfl, Function.update_of_ne ht _ _, rfl⟩
    · intro ha
      refine ⟨ha.lt, ha.table, ha.fclient, ?_⟩
      intro hworker
      simp only [Function.update_self] at hworker
      split_ifs at hworker
    · intro _ hop _
      -- a request in the slot is taken up, not left
      exact ⟨rfl, rfl, Or.inr (by simp only [Function.update_self, if_pos hop])⟩
    · intro reply hworker
      simp [hready] at hworker
  subst hw'
  refine h.of_worker (s := s) rfl rfl rfl ?_ hkept ?_ ?_ ?_
  · intro t ht
    exact ⟨Function.update_of_ne ht _ _, rfl⟩
  · intro hop _
    exact h.slots s hop (Or.inl hready)
  · intro reply hworker
    simp only [Function.update_self] at hworker
    split_ifs at hworker
  · intro hworker
    simp only [Function.update_self] at hworker
    split_ifs at hworker with hop
    exact hop

theorem Located.clear (h : Located paths w place) (hstep : clear s w = some w') :
    Located paths w' place := by
  rcases clear_eq hstep with ⟨hclearing, hw'⟩
  -- the slot is emptied after the reply, so no request is in it; the pipe is closed after an
  -- unmount only, when nobody is attached
  have hkept : ∀ u, Kept paths w w' u := by
    intro u
    subst hw'
    refine Kept.of_session s ?_ rfl rfl (fun _ hx _ => hx) (fun _ _ _ => rfl) (fun _ he => he)
      (fun _ hx => hx) id ?_ ?_ ?_
    · intro t ht
      refine ⟨rfl, Function.update_of_ne ht _ _, rfl, Function.update_of_ne ht _ _, ?_⟩
      dsimp only
      split_ifs
      · exact Function.update_of_ne ht _ _
      · rfl
    · intro ha
      refine ⟨ha.lt, ha.table, ?_, by simp⟩
      simp only [if_neg (ha.open_ hclearing)]
      exact ha.fclient
    · rintro _ _ (hworker | hworker) <;> simp [hclearing] at hworker
    · intro reply hworker
      simp [hclearing] at hworker
  subst hw'
  refine h.of_worker (s := s) rfl rfl rfl ?_ hkept ?_ ?_ ?_
  · intro t ht
    exact ⟨Function.update_of_ne ht _ _, Function.update_of_ne ht _ _⟩
  · intro hop _
    simp at hop
  · intro reply
    simp
  · intro hworker
    simp at hworker

/-! ## Steps of a worker that move a request -/

/-- The request in the slot of a worker that holds its mutex. -/
theorem Located.inSlot (h : Located paths w place) (hhandling : w.worker s = .handling) :
    ∃ c r, (w.slotTag s) = (c, (w.client c).count) ∧ place c = .slot s ∧
      (w.client c).pending = some r ∧ w.pipe (paths c) = [] ∧
      w.clientPipesTable s = some (paths c) ∧
      (w.bufferEntryTable s).request s (some (paths c)) = some r ∧ Enrolled paths w c s r := by
  have hplace := h.slots s (h.handling s hhandling) (Or.inr (Or.inr hhandling))
  have hat := h.located (w.slotTag s).1
  rw [hplace] at hat
  rcases hat with ⟨r, hpending, hpipe, htag, _, hrequest, henrolled⟩
  exact ⟨_, r, htag, hplace, hpending, hpipe, henrolled.2.1, hrequest, henrolled⟩

/-- Worker `s` has performed the request of `c` in its slot. -/
theorem Located.performed (hpaths : Function.Injective paths) (h : Located paths w place)
    (hhandling : w.worker s = .handling) (htag : w.slotTag s = (c, (w.client c).count))
    (hplace : place c = .slot s) (hpending : (w.client c).pending = some r)
    (hpipe : w.pipe (paths c) = []) (hlt : s < maxSessionsAmount)
    (htable : w.clientPipesTable s = some (paths c))
    {lib : σ} {table fclient : ℕ → Option CString} {reply : Reply ρ}
    (hw' : w' = World.serve
      { w with lib := lib, clientPipesTable := table, fclient := fclient } s r reply)
    (hothers : ∀ t, t ≠ s → table t = w.clientPipesTable t ∧ fclient t = w.fclient t)
    (hfclient : fclient s = some (paths c)) (hreplies : Replies paths w' c s r reply) :
    w'.served = ⟨s, current w c r, reply⟩ :: w.served ∧
      Located paths w' (Function.update place c (.replying s)) := by
  have hserved : w'.served = ⟨s, current w c r, reply⟩ :: w.served := by
    rw [hw', World.serve, htag]
    rfl
  have hself : At paths w' c (.replying s) := by
    have hmem : ⟨s, current w c r, reply⟩ ∈ w'.served := by
      rw [hserved]
      exact List.mem_cons_self
    subst hw'
    exact ⟨r, reply, hpending, hpipe, htag, Function.update_self _ _ _, hlt, hfclient, hmem,
      hreplies⟩
  have hkept : ∀ u, u ≠ c → Kept paths w w' u := by
    intro u hu
    -- the step changes session `s` only, which is the one of `c`
    have hnot : w.clientPipesTable s ≠ some (paths u) := by
      rw [htable]
      intro he
      exact hu (hpaths (Option.some.inj he)).symm
    subst hw'
    refine Kept.of_session s ?_ rfl rfl (fun _ hx _ => hx) (fun _ _ _ => rfl)
      (fun _ he => List.mem_cons_of_mem _ he) (fun _ hx => hx) (fun ht => absurd ht hnot)
      (fun ha => absurd ha.table hnot) (fun ht => absurd ht hnot) ?_
    · intro t ht
      exact ⟨(hothers t ht).1, rfl, rfl, Function.update_of_ne ht _ _, (hothers t ht).2⟩
    · intro reply hworker
      rw [hhandling] at hworker
      cases hworker
  have hlocated := h.moved hself hkept
  refine ⟨hserved, ?_⟩
  subst hw'
  refine ⟨hlocated, ?_, h.inboxOnce, ?_, ?_, ?_, ?_, ?_⟩
  · intro x hx
    exact update_place (h.inbox x hx) hplace (by simp)
  · intro path x hx
    exact update_place (h.refusing path x hx) hplace (by simp)
  · intro t x hx
    exact update_place (h.storing t x hx) hplace (by simp)
  · intro t hop hworker
    by_cases hts : t = s
    · subst hts
      simp [World.serve] at hworker
    · simp only [World.serve, Function.update_of_ne hts] at hworker
      exact update_place (h.slots t hop hworker) hplace (by simp [hts])
  · intro t reply' hworker
    by_cases hts : t = s
    · subst hts
      simp [World.serve, htag]
    · simp only [World.serve, Function.update_of_ne hts] at hworker
      exact update_place (h.replying t reply' hworker) hplace (by simp)
  · intro t hworker
    by_cases hts : t = s
    · subst hts
      simp [World.serve] at hworker
    · simp only [World.serve, Function.update_of_ne hts] at hworker
      exact h.handling t hworker

/-- What a worker answers to the request of its client, and what becomes of the file system. -/
def Answers (exec : Operation → σ → ρ × σ) (paths : ℕ → CString) (c s : ℕ) (r : Request CString)
    (reply : Reply ρ) (lib lib' : σ) : Prop :=
  (r = .mount (paths c) ∧ reply = .mount s ∧ lib' = lib) ∨
    (r = .unmount s ∧ reply = .unmount 0 ∧ lib' = lib) ∨
    (r.sessionId = some (s : ℤ) ∧
      ∃ op, operation r = some op ∧ reply = .library (exec op lib).1 ∧ lib' = (exec op lib).2)

theorem Located.execute {exec : Operation → σ → ρ × σ} (hpaths : Function.Injective paths)
    (h : Located paths w place) (hlt : s < maxSessionsAmount)
    (hstep : execute exec s w = some w') :
    ∃ c r reply, place c = .slot s ∧ (w.client c).pending = some r ∧
      w'.served = ⟨s, current w c r, reply⟩ :: w.served ∧
      Answers exec paths c s r reply w.lib w'.lib ∧
      Located paths w' (Function.update place c (.replying s)) := by
  rcases execute_cases hstep with ⟨r', hhandling, hrequest', hcases⟩
  rcases h.inSlot hhandling with
    ⟨c, r, htag, hplace, hpending, hpipe, htable, hrequest, _, _, hissued⟩
  rw [htable, hrequest] at hrequest'
  rcases Option.some.inj hrequest' with rfl
  have hopcode : r ≠ .unmount s → (w.bufferEntryTable s).opcode ≠ tfsOpCodeUnmount :=
    fun hne hop => hne ((opcode_eq_unmount hrequest).1 hop)
  rcases hcases with ⟨path, hr, hw'⟩ | ⟨z, hr, hw'⟩ | ⟨op, hop, hw'⟩
  · -- a mount opens the client's pipe
    rcases hissued with ⟨hmount, hnone⟩ | ⟨_, _, hof⟩
    · rcases Request.mount.inj (hr.symm.trans hmount) with rfl
      have hreplies : Replies paths w' c s r (.mount s) := by
        subst hw'
        exact Or.inl ⟨hmount, hnone, rfl, htable, hopcode (by rw [hmount]; simp)⟩
      rcases h.performed hpaths hhandling htag hplace hpending hpipe hlt htable hw'
        (fun t ht => ⟨rfl, Function.update_of_ne ht _ _⟩) (Function.update_self _ _ _) hreplies with
        ⟨hserved, hlocated⟩
      exact ⟨c, r, .mount s, hplace, hpending, hserved,
        Or.inl ⟨hmount, rfl, by rw [hw']; rfl⟩, hlocated⟩
    · exact absurd (hr ▸ hof) not_ofSession_mount
  · -- an unmount frees the entry of the table; the pipe is closed later
    rcases hissued with ⟨hmount, _⟩ | ⟨_, ha, hof⟩
    · rw [hr] at hmount
      cases hmount
    · have hz : r = .unmount s := by
        rcases hof with hunmount | ⟨_, hsome⟩
        · exact hunmount
        · rw [hr] at hsome
          cases hsome
      rcases h.performed hpaths hhandling htag hplace hpending hpipe hlt htable
        hw' (fun t ht => ⟨Function.update_of_ne ht _ _, rfl⟩) ha.fclient
        (Or.inr (Or.inl ⟨hz, rfl⟩)) with ⟨hserved, hlocated⟩
      exact ⟨c, r, .unmount 0, hplace, hpending, hserved,
        Or.inr (Or.inl ⟨hz, rfl, by rw [hw']; rfl⟩), hlocated⟩
  · -- any other request is a call of the library
    rcases hissued with ⟨hmount, _⟩ | ⟨hsession, ha, hof⟩
    · rw [hmount] at hop
      cases hop
    · have hreplies : Replies paths w' c s r (.library (exec op w.lib).1) := by
        subst hw'
        refine Or.inr (Or.inr ⟨⟨_, rfl⟩, by rw [hop]; rfl, hsession, htable, hopcode ?_⟩)
        rintro rfl
        cases hop
      rcases h.performed hpaths hhandling htag hplace hpending hpipe hlt htable
        hw' (fun t _ => ⟨rfl, rfl⟩)
        ha.fclient hreplies with ⟨hserved, hlocated⟩
      exact ⟨c, r, .library (exec op w.lib).1, hplace, hpending, hserved,
        Or.inr (Or.inr ⟨hof.sessionId, op, hop, rfl, by rw [hw']; rfl⟩), hlocated⟩

theorem Located.write (hpaths : Function.Injective paths) (h : Located paths w place)
    (hstep : write s w = some w') :
    ∃ c r reply, place c = .replying s ∧ (w.client c).pending = some r ∧
      ⟨s, current w c r, reply⟩ ∈ w.served ∧
      w'.written = ⟨paths c, (c, (w.client c).count), reply⟩ :: w.written ∧
      Located paths w' (Function.update place c .answered) := by
  rcases write_eq hstep with ⟨reply', path, hworker, hfclient, hw'⟩
  have hplace := h.replying s reply' hworker
  have hat := h.located (w.slotTag s).1
  rw [hplace] at hat
  generalize hc : (w.slotTag s).1 = c at hplace hat
  rcases hat with
    ⟨r, reply, hpending, hpipe, htag, hworker₀, hlt, hfclient₀, hserved, hreplies⟩
  rcases Worker.replying.inj (hworker.symm.trans hworker₀) with rfl
  rcases Option.some.inj (hfclient.symm.trans hfclient₀) with rfl
  -- the reply goes to the pipe that the worker opened, which is the one of `c`
  have hself : At paths w' c .answered := by
    subst hw'
    refine ⟨r, reply', hpending, by simp [hpipe], ?_, ?_⟩
    · rw [← htag]
      exact List.mem_cons_self
    · rcases hreplies with ⟨hr, hnone, hreply, htable, hop⟩ | ⟨hr, hreply⟩ |
        ⟨hreply, hop, hsession, htable, hopcode⟩
      · exact Or.inl ⟨hr, hnone, Or.inr ⟨s, hreply, ⟨hlt, htable, hfclient, fun _ => hop⟩⟩⟩
      · exact Or.inr (Or.inl ⟨s, hr, hreply⟩)
      · exact Or.inr (Or.inr ⟨hreply, hop, s, hsession,
          ⟨hlt, htable, hfclient, fun _ => hopcode⟩⟩)
  have hkept : ∀ u, u ≠ c → Kept paths w w' u := by
    intro u hu
    subst hw'
    refine Kept.of_session s ?_ rfl (Function.update_of_ne (fun he => hu (hpaths he)) _ _)
      (fun _ hx _ => hx) (fun _ _ _ => rfl) (fun _ he => he)
      (fun _ hx => List.mem_cons_of_mem _ hx) id ?_ ?_ ?_
    · intro t ht
      exact ⟨rfl, rfl, rfl, Function.update_of_ne ht _ _, rfl⟩
    · intro ha
      exact absurd (hpaths (Option.some.inj (hfclient.symm.trans ha.fclient))).symm hu
    · rintro _ _ (hother | hother) <;> simp [hworker] at hother
    · intro _ _ htag'
      exact absurd (htag'.symm.trans hc) hu
  have hlocated := h.moved hself hkept
  subst hw'
  refine ⟨c, r, reply', hplace, hpending, hserved, by rw [← htag], hlocated, ?_, h.inboxOnce, ?_,
    ?_, ?_, ?_, ?_⟩
  · intro x hx
    exact update_place (h.inbox x hx) hplace (by simp)
  · intro path x hx
    exact update_place (h.refusing path x hx) hplace (by simp)
  · intro t x hx
    exact update_place (h.storing t x hx) hplace (by simp)
  · intro t hop hother
    by_cases hts : t = s
    · subst hts
      simp at hother
    · simp only [Function.update_of_ne hts] at hother
      exact update_place (h.slots t hop hother) hplace (by simp)
  · intro t reply hother
    by_cases hts : t = s
    · subst hts
      simp at hother
    · simp only [Function.update_of_ne hts] at hother
      exact update_place (h.replying t reply hother) hplace (by simp [hts])
  · intro t hother
    by_cases hts : t = s
    · subst hts
      simp at hother
    · simp only [Function.update_of_ne hts] at hother
      exact h.handling t hother

end Sessions
end TecnicoFs
