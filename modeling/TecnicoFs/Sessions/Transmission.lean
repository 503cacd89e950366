import TecnicoFs.Lib.Simulation
import TecnicoFs.Sessions.Answers
import TecnicoFs.Sessions.Linearizable

/-!
# Transmission — the byte level follows the protocol

Every step on pipes of bytes is the step of `Sessions.Protocol` with the same name: the bytes in the
server pipe are the messages of the requests in the inbox, and the bytes in the pipe of a client are the
answer that stands there. So a run of the byte level is followed by a run of the protocol in which the
clients see the same, and what the callers of the client functions get is linearizable as well.
-/

namespace TecnicoFs
namespace Sessions

open Lib Wire

universe u

variable {σ : Type u}

/-! ## The relation -/

/-- The receiver without the histories. -/
def readerOf : Receiver → Reader
  | .idle => .idle
  | .refusing path m => .refusing path m.tag
  | .storing s m => .storing s m.request m.tag

/-- A worker on bytes stands where the worker of the protocol stands; `p` is the request that the
client of its slot waits for. -/
inductive Stands (u : Unset) (p : Option (Request CString)) :
    Handler → Worker (Option Server.Reply) → Prop
  | ready : Stands u p .ready .ready
  | waiting : Stands u p .waiting .waiting
  | handling : Stands u p .handling .handling
  | clearing : Stands u p .clearing .clearing
  | replying {message : List Byte} {reply : Reply (Option Server.Reply)}
      (h : ∀ r, p = some r → Transmits u r reply message) :
      Stands u p (.replying message) (.replying reply)

/-- A process is the client with its static `session_id`. -/
structure SameClient (p : Process) (cl : Client) : Prop where
  session : cl.session = if p.mounted then some p.sessionId.toNat else none
  mounted : p.mounted = true → 0 ≤ p.sessionId
  pending : cl.pending = p.pending.map (Request.map fieldName)
  stopped : cl.stopped = p.stopped
  count : cl.count = p.count

structure Transmitted (u : Unset) (paths : ℕ → CString) (b : ByteWorld σ)
    (w : World σ (Option Server.Reply)) : Prop where
  lib : w.lib = b.lib
  inbox : ∃ rs, (∀ r ∈ rs, r.Typed) ∧ b.serverPipe.bytes = stream rs ∧
    w.inbox.map Message.request = rs.map (Request.map fieldName)
  tags : w.inbox.map Message.tag = b.tags
  reader : b.reader = readerOf w.receiver
  table : w.clientPipesTable = b.clientPipesTable
  buffers : w.bufferEntryTable = b.bufferEntryTable
  slotTag : w.slotTag = b.slotTag
  fclient : w.fclient = b.fclient
  handler : ∀ s, Stands u (w.client (w.slotTag s).1).pending (b.handler s) (w.worker s)
  empty : ∀ c, w.pipe (paths c) = [] → b.clientPipe (paths c) = []
  answer : ∀ c r reply, (w.client c).pending = some r → w.pipe (paths c) = [reply] →
    Transmits u r reply (b.clientPipe (paths c))
  process : ∀ c, SameClient (b.process c) (w.client c)

section Stands

variable {u : Unset} {p p' : Option (Request CString)} {q : Handler}
variable {q' : Worker (Option Server.Reply)}

theorem Stands.locked (h : Stands u p q q') : q.locked = q'.locked := by
  cases h <;> rfl

/-- Only a worker with a reply looks at what its client waits for. -/
theorem Stands.of_pending (h : Stands u p q q') (hp : ∀ reply, q' = .replying reply → p' = p) :
    Stands u p' q q' := by
  cases h with
  | ready => exact .ready
  | waiting => exact .waiting
  | handling => exact .handling
  | clearing => exact .clearing
  | replying h => exact .replying (by rw [hp _ rfl]; exact h)

/-- One worker moves. -/
theorem Stands.update {pend : ℕ → Option (Request CString)} {hs : ℕ → Handler}
    {ws : ℕ → Worker (Option Server.Reply)} (h : ∀ t, Stands u (pend t) (hs t) (ws t)) {s : ℕ}
    (hself : Stands u (pend s) q q') :
    ∀ t, Stands u (pend t) (Function.update hs s q t) (Function.update ws s q' t) := by
  intro t
  by_cases hts : t = s
  · subst hts
    simp only [Function.update_self]
    exact hself
  · simp only [Function.update_of_ne hts]
    exact h t

end Stands

/-! ## Workers that wake, look into their slot and clear it -/

section Steps

variable {u : Unset} {paths : ℕ → CString} {b b' : ByteWorld σ} {w : World σ (Option Server.Reply)}
variable {place : ℕ → Place} {c s : ℕ}

theorem Transmitted.wake (h : Transmitted u paths b w) (hstep : b.wake s = some b') :
    ∃ w', Sessions.wake s w = some w' ∧ Transmitted u paths b' w' := by
  unfold ByteWorld.wake at hstep
  split at hstep
  · rename_i hwaiting
    rcases Option.some.inj hstep with rfl
    have hs := h.handler s
    rw [hwaiting] at hs
    generalize hworker : w.worker s = q at hs
    cases hs
    refine ⟨{ w with worker := Function.update w.worker s .ready }, by rw [Sessions.wake, hworker], ?_⟩
    exact { h with handler := Stands.update h.handler .ready }
  · cases hstep

theorem Transmitted.lock (h : Transmitted u paths b w) (hstep : b.lock s = some b') :
    ∃ w', Sessions.lock s w = some w' ∧ Transmitted u paths b' w' := by
  unfold ByteWorld.lock at hstep
  split at hstep
  · rename_i hready
    have hs := h.handler s
    rw [hready] at hs
    generalize hworker : w.worker s = q at hs
    cases hs
    split_ifs at hstep with hop
    · rcases Option.some.inj hstep with rfl
      refine ⟨{ w with worker := Function.update w.worker s .handling }, ?_, ?_⟩
      · rw [Sessions.lock, hworker]
        dsimp only
        rw [h.buffers, if_pos hop]
      · exact { h with handler := Stands.update h.handler .handling }
    · rcases Option.some.inj hstep with rfl
      refine ⟨{ w with worker := Function.update w.worker s .waiting }, ?_, ?_⟩
      · rw [Sessions.lock, hworker]
        dsimp only
        rw [h.buffers, if_neg hop]
      · exact { h with handler := Stands.update h.handler .waiting }
  · cases hstep

theorem Transmitted.clear (h : Transmitted u paths b w) (hstep : b.clear s = some b') :
    ∃ w', Sessions.clear s w = some w' ∧ Transmitted u paths b' w' := by
  unfold ByteWorld.clear at hstep
  split at hstep
  · rename_i hclearing
    rcases Option.some.inj hstep with rfl
    have hs := h.handler s
    rw [hclearing] at hs
    generalize hworker : w.worker s = q at hs
    cases hs
    refine ⟨_, by rw [Sessions.clear, hworker], ?_⟩
    exact { h with
      buffers := by rw [h.buffers]
      fclient := by rw [h.buffers, h.fclient]
      handler := Stands.update h.handler .ready }
  · cases hstep

/-! ## The receiver -/

theorem receiver_of_storing {x : Receiver} {r : Request CString} {tag : ℕ × ℕ}
    (h : Reader.storing s r tag = readerOf x) :
    ∃ m, x = .storing s m ∧ m.request = r ∧ m.tag = tag := by
  rcases x with _ | ⟨path, m⟩ | ⟨t, m⟩
  · cases h
  · cases h
  · rcases Reader.storing.inj h with ⟨rfl, rfl, rfl⟩
    exact ⟨m, rfl, rfl, rfl⟩

theorem receiver_of_refusing {x : Receiver} {path : CString} {tag : ℕ × ℕ}
    (h : Reader.refusing path tag = readerOf x) : ∃ m, x = .refusing path m := by
  rcases x with _ | ⟨path', m⟩ | ⟨t, m⟩
  · cases h
  · rcases Reader.refusing.inj h with ⟨rfl, rfl⟩
    exact ⟨m, rfl⟩
  · cases h

theorem receiver_of_idle {x : Receiver} (h : Reader.idle = readerOf x) : x = .idle := by
  rcases x with _ | ⟨path, m⟩ | ⟨t, m⟩
  · rfl
  · cases h
  · cases h

theorem Transmitted.store (h : Transmitted u paths b w) (hstep : b.store = some b') :
    ∃ w', Sessions.store w = some w' ∧ Transmitted u paths b' w' := by
  unfold ByteWorld.store at hstep
  split at hstep
  · rename_i s r tag hreader
    split_ifs at hstep with hlocked
    rcases Option.some.inj hstep with rfl
    rcases receiver_of_storing (hreader.symm.trans h.reader) with ⟨m, hreceiver, rfl, rfl⟩
    have hunlocked : (w.worker s).locked = false := by
      rw [← (h.handler s).locked]
      exact Bool.eq_false_iff.2 hlocked
    refine ⟨_, by rw [Sessions.store, hreceiver]; exact if_neg (Bool.eq_false_iff.1 hunlocked), ?_⟩
    refine { h with
      reader := rfl
      buffers := by rw [h.buffers]
      slotTag := by rw [h.slotTag]
      handler := ?_ }
    intro t
    by_cases hts : t = s
    · subst hts
      simp only [Function.update_self]
      exact .ready
    · simp only [Function.update_of_ne hts]
      exact h.handler t
  · cases hstep

/-- An answer is written to the pipe of a client that has none. -/
theorem Transmitted.answered (hpaths : Function.Injective paths) (h : Transmitted u paths b w)
    {reply : Reply (Option Server.Reply)} {message : List Byte} (hpipe : w.pipe (paths c) = [])
    (htransmits : ∀ r, (w.client c).pending = some r → Transmits u r reply message) :
    (∀ c', Function.update w.pipe (paths c) (w.pipe (paths c) ++ [reply]) (paths c') = [] →
      Function.update b.clientPipe (paths c) (b.clientPipe (paths c) ++ message) (paths c') = []) ∧
    ∀ c' r reply', (w.client c').pending = some r →
      Function.update w.pipe (paths c) (w.pipe (paths c) ++ [reply]) (paths c') = [reply'] →
        Transmits u r reply'
          (Function.update b.clientPipe (paths c) (b.clientPipe (paths c) ++ message) (paths c')) := by
  have hnil := h.empty c hpipe
  constructor
  · intro c' hempty
    by_cases hc : c' = c
    · subst hc
      simp [hpipe] at hempty
    · have hne : paths c' ≠ paths c := fun heq => hc (hpaths heq)
      rw [Function.update_of_ne hne] at hempty ⊢
      exact h.empty c' hempty
  · intro c' r reply' hr hreply
    by_cases hc : c' = c
    · subst hc
      rw [Function.update_self, hpipe, List.nil_append, List.singleton_inj] at hreply
      rw [Function.update_self, hnil, List.nil_append, ← hreply]
      exact htransmits r hr
    · have hne : paths c' ≠ paths c := fun heq => hc (hpaths heq)
      rw [Function.update_of_ne hne] at hreply ⊢
      exact h.answer c' r reply' hr hreply

theorem Transmitted.refuse (hpaths : Function.Injective paths) (h : Transmitted u paths b w)
    (hl : Located paths w place) (hstep : b.refuse = some b') :
    ∃ w', Sessions.refuse w = some w' ∧ Transmitted u paths b' w' := by
  unfold ByteWorld.refuse at hstep
  split at hstep
  · rename_i path tag hreader
    rcases Option.some.inj hstep with rfl
    rcases receiver_of_refusing (hreader.symm.trans h.reader) with ⟨m, hreceiver⟩
    have hplace := hl.refusing path m hreceiver
    have hat := hl.located m.client
    rw [hplace] at hat
    rcases hat with ⟨hpending, hpipe, _, hreceiver'⟩
    rcases Receiver.refusing.inj (hreceiver.symm.trans hreceiver') with ⟨rfl, _⟩
    refine ⟨_, by rw [Sessions.refuse, hreceiver], ?_⟩
    -- the refused client waits for the answer to its mount
    have htransmits : ∀ r, (w.client m.client).pending = some r →
        Transmits u r (.mount (-1)) (intBytes (-1)) := by
      intro r hr
      rcases Option.some.inj (hr.symm.trans hpending) with rfl
      exact ⟨rfl, isInt_error⟩
    have hpipes := h.answered hpaths hpipe htransmits
    exact { h with reader := rfl, empty := hpipes.1, answer := hpipes.2 }
  · cases hstep

theorem Transmitted.write (hpaths : Function.Injective paths) (h : Transmitted u paths b w)
    (hl : Located paths w place) (hstep : b.write s = some b') :
    ∃ w', Sessions.write s w = some w' ∧ Transmitted u paths b' w' := by
  unfold ByteWorld.write at hstep
  split at hstep
  · rename_i message path hreplying hfclient
    rcases Option.some.inj hstep with rfl
    have hs := h.handler s
    rw [hreplying] at hs
    generalize hworker : w.worker s = q at hs
    cases hs with
    | @replying _ reply htransmits =>
        have hfclient' : w.fclient s = some path := by rw [h.fclient]; exact hfclient
        have hplace := hl.replying s reply hworker
        have hat := hl.located (w.slotTag s).1
        rw [hplace] at hat
        rcases hat with ⟨r, _, hpending, hpipe, _, _, _, hpath, _⟩
        rcases Option.some.inj (hfclient'.symm.trans hpath) with rfl
        refine ⟨_, by rw [Sessions.write, hworker, hfclient'], ?_⟩
        have hpipes := h.answered hpaths hpipe htransmits
        exact { h with
          handler := Stands.update h.handler .clearing
          empty := hpipes.1
          answer := hpipes.2 }
  · cases hstep

/-! ## The clients -/

theorem SameClient.mayIssue {p : Process} {cl : Client} {path : CString} {r : Request NameField}
    (h : SameClient p cl) (hcall : p.MayCall path r) : cl.MayIssue path (r.map fieldName) := by
  rcases hcall with ⟨hstopped, hpending, _, _, hkind⟩
  refine ⟨by rw [h.stopped]; exact hstopped, by rw [h.pending, hpending]; rfl, ?_⟩
  rw [h.session]
  by_cases hmounted : p.mounted = true
  · rw [if_pos hmounted] at hkind ⊢
    have hsession : ((p.sessionId.toNat : ℕ) : ℤ) = p.sessionId :=
      Int.toNat_of_nonneg (h.mounted hmounted)
    dsimp only
    rw [hsession, Request.sessionId_map]
    rcases hkind with rfl | hkind
    · exact Or.inl rfl
    · exact Or.inr hkind
  · rw [if_neg hmounted] at hkind ⊢
    exact hkind

theorem stream_concat (rs : List (Request NameField)) (r : Request NameField) :
    stream (rs ++ [r]) = stream rs ++ r.message := by
  simp [stream]

theorem Transmitted.send (h : Transmitted u paths b w) (hl : Located paths w place)
    {r : Request NameField} (hstep : b.send c (paths c) r = some b') :
    ∃ w', Sessions.send c (paths c) (r.map fieldName) w = some w' ∧ Transmitted u paths b' w' := by
  unfold ByteWorld.send at hstep
  split_ifs at hstep with hcall
  rcases Option.some.inj hstep with rfl
  have hissue := (h.process c).mayIssue hcall
  have haway : place c = .away := hl.away hissue.2.1
  refine ⟨_, by rw [Sessions.send, if_pos hissue], ?_⟩
  rcases h.inbox with ⟨rs, htyped, hbytes, hrequests⟩
  have hcount := (h.process c).count
  refine { h with inbox := ?_, tags := ?_, handler := ?_, answer := ?_, process := ?_ }
  · refine ⟨rs ++ [r], ?_, ?_, ?_⟩
    · intro x hx
      rcases List.mem_append.1 hx with hx | hx
      · exact htyped x hx
      · rw [List.mem_singleton.1 hx]
        exact hcall.2.2.1
    · rw [stream_concat, ← hbytes]
    · simp [hrequests]
  · simp [h.tags, Message.tag, hcount]
  · -- a worker with a reply has another client's
    intro t
    refine (h.handler t).of_pending ?_
    intro reply hreply
    have hne : (w.slotTag t).1 ≠ c := by
      refine ne_of_place (hl.replying t reply hreply) haway ?_
      simp
    simp only [Function.update_of_ne hne]
  · intro c' r' reply hr hreply
    by_cases hc : c' = c
    · subst hc
      have hat := hl.located c'
      rw [haway] at hat
      rw [hat.2.1] at hreply
      cases hreply
    · simp only [Function.update_of_ne hc] at hr
      exact h.answer c' r' reply hr hreply
  · intro c'
    by_cases hc : c' = c
    · subst hc
      simp only [Function.update_self]
      have hsame := h.process c'
      exact ⟨hsame.session, hsame.mounted, rfl, hsame.stopped, by rw [hcount]⟩
    · simp only [Function.update_of_ne hc]
      exact h.process c'

/-- The caller of a client function and the client take the same reply. -/
theorem SameClient.returned {p : Process} {cl : Client} {r : Request NameField}
    {reply : Reply (Option Server.Reply)} (h : SameClient p cl)
    (hreplied : Replied paths w c (r.map fieldName) reply) :
    ∃ cl', cl.answer (r.map fieldName) reply = some cl' ∧
      SameClient (p.returned r ⟨(resultOf reply).1, (resultOf reply).2,
        sessionAfter p.sessionId reply, []⟩) cl' := by
  -- a mount, an unmount or a call of the library
  rcases hreplied with ⟨hr, _, hreply⟩ | ⟨z, hr, rfl⟩ | ⟨⟨x, rfl⟩, hop, _⟩
  · cases r with
    | mount f =>
        have hz : ∃ z, reply = .mount z ∧ -1 ≤ z := by
          rcases hreply with rfl | ⟨s, rfl, _⟩
          · exact ⟨-1, rfl, by omega⟩
          · exact ⟨s, rfl, by omega⟩
        rcases hz with ⟨z, rfl, hz⟩
        refine ⟨_, rfl, ?_⟩
        by_cases herror : z = -1
        · subst herror
          refine ⟨by simp [Process.returned, resultOf], by simp [Process.returned, resultOf], rfl,
            h.stopped, h.count⟩
        · have hnonneg : 0 ≤ z := by omega
          refine ⟨by simp [Process.returned, resultOf, herror, sessionAfter], ?_, rfl, h.stopped,
            h.count⟩
          intro _
          exact hnonneg
    | _ => cases hr
  · cases r with
    | unmount s =>
        refine ⟨_, rfl, by simp [Process.returned], ?_, rfl, rfl, h.count⟩
        simp [Process.returned]
    | _ => cases hr
  · refine ⟨_, answer_library hop, ?_⟩
    have hfields : p.returned r ⟨(resultOf (.library x)).1, (resultOf (.library x)).2,
        p.sessionId, []⟩ = { p with pending := none } := by
      cases r <;> first | (cases hop; done) | rfl
    rw [sessionAfter, hfields]
    exact ⟨h.session, h.mounted, rfl, h.stopped, h.count⟩

/-- A process that finds its pipe filled reads the answer that stands there. -/
theorem Transmitted.answer_of_ne_nil (h : Transmitted u paths b w) (hl : Located paths w place)
    {r : Request NameField} (hpending : (b.process c).pending = some r)
    (hfilled : b.clientPipe (paths c) ≠ []) :
    ∃ reply, place c = .answered ∧ w.pipe (paths c) = [reply] ∧
      (w.client c).pending = some (r.map fieldName) ∧ Replied paths w c (r.map fieldName) reply ∧
      Transmits u (r.map fieldName) reply (b.clientPipe (paths c)) := by
  have hpending' : (w.client c).pending = some (r.map fieldName) := by
    rw [(h.process c).pending, hpending]
    rfl
  have hplace := hl.answered (c := c) fun hnil => hfilled (h.empty c hnil)
  have hat := hl.located c
  rw [hplace] at hat
  rcases hat with ⟨r', reply, hr', hpipe, _, hreplied⟩
  rcases Option.some.inj (hr'.symm.trans hpending') with rfl
  exact ⟨reply, hplace, hpipe, hpending', hreplied, h.answer c _ reply hpending' hpipe⟩

theorem Transmitted.receive (hpaths : Function.Injective paths) (h : Transmitted u paths b w)
    (hl : Located paths w place) (hstep : b.receive u c (paths c) = some b') :
    ∃ w', Sessions.receive c (paths c) w = some w' ∧ Transmitted u paths b' w' := by
  unfold ByteWorld.receive at hstep
  split at hstep
  · cases hstep
  · rename_i r hpending
    split_ifs at hstep with hfilled
    rcases h.answer_of_ne_nil hl hpending hfilled with
      ⟨reply, hplace, hpipe, hpending', hreplied, htransmits⟩
    rw [htransmits.clientReturn] at hstep
    rcases Option.some.inj hstep with rfl
    rcases (h.process c).returned hreplied with ⟨cl, hanswer, hsame⟩
    refine ⟨_, by rw [Sessions.receive, hpending', hpipe]; dsimp only; rw [hanswer]; rfl, ?_⟩
    refine { h with handler := ?_, empty := ?_, answer := ?_, process := ?_ }
    · -- no worker is answering this client, whose answer is in its pipe
      intro t
      refine (h.handler t).of_pending ?_
      intro reply' hreply'
      have hne : (w.slotTag t).1 ≠ c := by
        refine ne_of_place (hl.replying t reply' hreply') hplace ?_
        simp
      simp only [Function.update_of_ne hne]
    · intro c' hempty
      by_cases hc : c' = c
      · subst hc
        simp only [Function.update_self]
      · have hne : paths c' ≠ paths c := fun heq => hc (hpaths heq)
        simp only [Function.update_of_ne hne] at hempty ⊢
        exact h.empty c' hempty
    · intro c' r' reply' hr' hreply'
      by_cases hc : c' = c
      · subst hc
        simp at hreply'
      · have hne : paths c' ≠ paths c := fun heq => hc (hpaths heq)
        simp only [Function.update_of_ne hne, Function.update_of_ne hc] at hr' hreply' ⊢
        exact h.answer c' r' reply' hr' hreply'
    · intro c'
      by_cases hc : c' = c
      · subst hc
        simp only [Function.update_self]
        exact hsame
      · simp only [Function.update_of_ne hc]
        exact h.process c'

/-! ## A worker performs a request -/

variable {exec : Operation → σ → Option Server.Reply × σ}

/-- The `switch` of the byte level is the one of the protocol. -/
theorem execute_of_answer (h : Transmitted u paths b w) {r : Request CString}
    {reply : Reply (Option Server.Reply)} {b₁ : ByteWorld σ}
    (hhandling : w.worker s = .handling)
    (hrequest : (b.bufferEntryTable s).request s (b.clientPipesTable s) = some r)
    (hanswer : b.answer exec s r = some (reply, b₁)) :
    Sessions.execute exec s w =
        some (World.serve { w with
          lib := b₁.lib, clientPipesTable := b₁.clientPipesTable, fclient := b₁.fclient } s r reply) ∧
      b₁ = { b with
        lib := b₁.lib, clientPipesTable := b₁.clientPipesTable, fclient := b₁.fclient } ∧
      (reply = .mount s ∨ reply = .unmount 0 ∨
        ∃ op, operation r = some op ∧ reply = .library (exec op b.lib).1) := by
  -- the calls of the library differ in their operation only
  have hlibrary : ∀ op, operation r = some op →
      (operation r).map (fun op => (Reply.library (exec op b.lib).1,
        { b with lib := (exec op b.lib).2 })) = some (reply, b₁) →
      Sessions.execute exec s w =
          some (World.serve { w with
            lib := b₁.lib, clientPipesTable := b₁.clientPipesTable, fclient := b₁.fclient } s r reply) ∧
        b₁ = { b with
          lib := b₁.lib, clientPipesTable := b₁.clientPipesTable, fclient := b₁.fclient } ∧
        (reply = .mount s ∨ reply = .unmount 0 ∨
          ∃ op, operation r = some op ∧ reply = .library (exec op b.lib).1) := by
    intro op hop hmap
    rw [hop] at hmap
    rcases Prod.mk.inj (Option.some.inj hmap) with ⟨rfl, rfl⟩
    refine ⟨?_, rfl, Or.inr (Or.inr ⟨op, hop, rfl⟩)⟩
    unfold Sessions.execute
    rw [hhandling]
    dsimp only
    rw [h.buffers, h.table, hrequest]
    cases r <;> first
      | (cases hop; done)
      | (dsimp only; rw [hop, h.lib, h.fclient]; rfl)
  cases r with
  | mount path =>
      rcases Prod.mk.inj (Option.some.inj hanswer) with ⟨rfl, rfl⟩
      refine ⟨?_, rfl, Or.inl rfl⟩
      unfold Sessions.execute
      rw [hhandling]
      dsimp only
      rw [h.buffers, h.table, hrequest, h.fclient, h.lib]
  | unmount z =>
      rcases Prod.mk.inj (Option.some.inj hanswer) with ⟨rfl, rfl⟩
      refine ⟨?_, rfl, Or.inr (Or.inl rfl)⟩
      unfold Sessions.execute
      rw [hhandling]
      dsimp only
      rw [h.buffers, h.table, hrequest, h.fclient, h.lib]
  | «open» z name flags => exact hlibrary _ rfl hanswer
  | close z fhandle => exact hlibrary _ rfl hanswer
  | write z fhandle len buffer => exact hlibrary _ rfl hanswer
  | read z fhandle len => exact hlibrary _ rfl hanswer
  | shutdownAfterAllClosed z => cases hanswer

theorem Transmitted.execute (hpaths : Function.Injective paths) (hexec : RangedExec exec)
    (h : Transmitted u paths b w) (hl : Located paths w place) (hlt : s < maxSessionsAmount)
    (hstep : b.execute u exec s = some b') :
    ∃ w', Sessions.execute exec s w = some w' ∧ Transmitted u paths b' w' := by
  unfold ByteWorld.execute at hstep
  split at hstep
  · rename_i hhandling
    split at hstep
    · cases hstep
    · rename_i r hrequest
      rcases Option.bind_eq_some_iff.1 hstep with ⟨⟨reply, b₁⟩, hanswer, hreply⟩
      rcases Option.map_eq_some_iff.1 hreply with ⟨message, hmessage, rfl⟩
      have hs := h.handler s
      rw [hhandling] at hs
      generalize hworker : w.worker s = q at hs
      cases hs
      rcases execute_of_answer h hworker hrequest hanswer with ⟨hstep', hb₁, hkind⟩
      refine ⟨_, hstep', ?_⟩
      -- the request in the slot is the one that its client waits for
      rcases hl.execute hpaths hlt hstep' with ⟨c, r', reply', _, hpending, hserved, _⟩
      have hhead := (List.cons.inj hserved).1
      have hr : r = r' := congrArg (fun e => e.message.request) hhead
      have hc : (w.slotTag s).1 = c := congrArg (fun e => e.message.client) hhead
      have htransmits : ∀ r₀, (w.client (w.slotTag s).1).pending = some r₀ →
          Transmits u r₀ reply message := by
        intro r₀ hr₀
        rw [hc, hpending] at hr₀
        rcases Option.some.inj hr₀ with rfl
        rw [← hr]
        refine ⟨hmessage, ?_⟩
        have hsmall : s < 20 := hlt
        rcases hkind with rfl | rfl | ⟨op, hop, rfl⟩
        · cases r <;> first
            | exact isInt_of_small (by omega) (by omega)
            | cases hmessage
        · cases r <;> first
            | exact isInt_of_small (by omega) (by omega)
            | cases hmessage
        · exact hexec r op b.lib hop
      rw [hb₁]
      exact { h with
        lib := rfl
        table := rfl
        fclient := rfl
        handler := Stands.update h.handler (.replying htransmits) }
  · cases hstep

/-! ## The receiver reads a message -/

theorem map_bufferName (r : Request NameField) :
    (r.map NameField.bytes).map bufferName = r.map fieldName := by
  rw [Request.map_map]
  exact congrArg (fun g => r.map g) (funext bufferName_bytes)

/-- What the receiver reads is the request at the head of the inbox. -/
theorem Transmitted.readRequest (h : Transmitted u paths b w) {d : PromptDelivery} {stale : Byte}
    {r : Request (List Byte)} {pipe : Pipe} (hread : readRequest d stale b.serverPipe = .ok (r, pipe)) :
    ∃ m rest, w.inbox = m :: rest ∧ m.request = r.map bufferName ∧ b.tags.headD (0, 0) = m.tag ∧
      (∃ rs, (∀ r ∈ rs, r.Typed) ∧ pipe.bytes = stream rs ∧
        rest.map Message.request = rs.map (Request.map fieldName)) ∧
      rest.map Message.tag = b.tags.tail := by
  rcases h.inbox with ⟨rs, htyped, hbytes, hrequests⟩
  have hpipe : b.serverPipe = ⟨stream rs, b.serverPipe.clock⟩ := by rw [← hbytes]
  rcases rs with _ | ⟨r₀, rs⟩
  · rw [hpipe, stream_nil, readRequest_nil] at hread
    cases hread
  · rcases takes_readRequest d stale (htyped r₀ List.mem_cons_self) (stream rs) b.serverPipe.clock
      with ⟨clock, htakes⟩
    rw [hpipe, stream_cons, htakes] at hread
    rcases Prod.mk.inj (Except.ok.inj hread) with ⟨rfl, rfl⟩
    rcases hinbox : w.inbox with _ | ⟨m, rest⟩
    · rw [hinbox] at hrequests
      cases hrequests
    · rw [hinbox, List.map_cons, List.map_cons] at hrequests
      rcases List.cons.inj hrequests with ⟨hm, hrest⟩
      have htags := h.tags
      rw [hinbox, List.map_cons] at htags
      refine ⟨m, rest, rfl, by rw [map_bufferName]; exact hm, by rw [← htags]; rfl,
        ⟨rs, fun x hx => htyped x (List.mem_cons_of_mem _ hx), rfl, hrest⟩, by rw [← htags]; rfl⟩

theorem Transmitted.take (h : Transmitted u paths b w) {d : PromptDelivery} {stale : Byte}
    (hstep : b.take d stale = some b') :
    ∃ w', Sessions.take w = some w' ∧ Transmitted u paths b' w' := by
  unfold ByteWorld.take at hstep
  split at hstep
  · rename_i r pipe hreader hread
    -- the bytes at the head of the server pipe are the oldest request of the protocol
    rcases h.readRequest hread with ⟨m, rest, hinbox, hm, htag, hbytes, htags⟩
    have hidle := receiver_of_idle (hreader.symm.trans h.reader)
    split at hstep
    · -- the receiver itself takes a session for a mount
      rename_i path hmount
      rw [hmount] at hm
      split at hstep
      · rename_i hadd
        rcases Option.some.inj hstep with rfl
        refine ⟨{ w with inbox := rest, receiver := .refusing path m }, ?_, ?_⟩
        · unfold Sessions.take
          rw [hidle, hinbox]
          dsimp only
          rw [hm]
          dsimp only
          rw [h.table, hadd]
        · exact { h with
            inbox := hbytes
            tags := htags
            reader := by rw [htag]; rfl }
      · rename_i s hadd
        rcases Option.some.inj hstep with rfl
        refine ⟨{ w with
          inbox := rest
          receiver := .storing s m
          clientPipesTable := Function.update w.clientPipesTable s (some path) }, ?_, ?_⟩
        · unfold Sessions.take
          rw [hidle, hinbox]
          dsimp only
          rw [hm]
          dsimp only
          rw [h.table, hadd]
        · exact { h with
            inbox := hbytes
            tags := htags
            reader := by rw [htag, ← hm]; rfl
            table := by rw [h.table] }
    · -- any other request goes to the slot that its session id names
      rename_i r' hother
      rw [← hm] at hother hstep
      split at hstep
      · cases hstep
      · rename_i z hz
        split_ifs at hstep with hrange
        rcases Option.some.inj hstep with rfl
        refine ⟨{ w with inbox := rest, receiver := .storing z.toNat m }, ?_, ?_⟩
        · unfold Sessions.take
          rw [hidle, hinbox]
          dsimp only
          split
          · rename_i path hmount
            exact absurd hmount (hother path)
          · rw [hz]
            dsimp only
            rw [if_pos hrange]
        · exact { h with
            inbox := hbytes
            tags := htags
            reader := by rw [htag]; rfl }
  · cases hstep

end Steps

/-! ## What the callers see -/

/-- The result that the caller of a client function gets at a step, and the call itself. -/
def callsSeen (u : Unset) (paths : ℕ → CString) (b : ByteWorld σ) :
    ByteLabel → Option (Action (ℕ × ℕ) (Request CString) Result)
  | .send c r => some (.invoke (c, (b.process c).count + 1) (r.map fieldName))
  | .receive c =>
      (b.process c).pending.map fun r =>
        let x := clientReturn u r (b.process c).sessionId (b.clientPipe (paths c))
        .respond (c, (b.process c).count) (x.value, x.data)
  | _ => none

/-- The mount that the receiver reads from the server pipe. -/
def mountRead (d : PromptDelivery) (stale : Byte) (b : ByteWorld σ) :
    Option (Event (ℕ × ℕ) (Request CString) Result) :=
  match readRequest d stale b.serverPipe with
  | .error _ => none
  | .ok (r, _) =>
      match r.map bufferName with
      | .mount path => some ⟨b.tags.headD (0, 0), .mount path,
          resultOf (.mount (mountReply (addClientPipe path b.clientPipesTable)))⟩
      | _ => none

/-- The request that worker `s` performs. -/
def requestAnswered (exec : Operation → σ → Option Server.Reply × σ) (s : ℕ) (b : ByteWorld σ) :
    Option (Event (ℕ × ℕ) (Request CString) Result) :=
  match (b.bufferEntryTable s).request s (b.clientPipesTable s) with
  | none => none
  | some (.mount _) => none
  | some (.unmount z) => some ⟨b.slotTag s, .unmount z, resultOf (.unmount 0)⟩
  | some r => (operation r).map fun op =>
      ⟨b.slotTag s, r, resultOf (.library (exec op b.lib).1)⟩

/-- The callers' view of the server. -/
def callers (E : Surroundings) (exec : Operation → σ → Option Server.Reply × σ)
    (paths : ℕ → CString) :
    System.Observer (ByteWorld σ) ByteLabel (ℕ × ℕ) (Request CString) Result where
  action := callsSeen E.unset paths
  event b a :=
    match a with
    | .take => mountRead E.delivery E.stale b
    | .execute s => requestAnswered exec s b
    | _ => none

section Views

variable {E : Surroundings} {exec : Operation → σ → Option Server.Reply × σ} {paths : ℕ → CString}
variable {b b' : ByteWorld σ} {w : World σ (Option Server.Reply)} {place : ℕ → Place}

theorem Transmitted.mountRead (h : Transmitted E.unset paths b w) {c' : ByteWorld σ}
    (hstep : b.take E.delivery E.stale = some c') :
    Sessions.mountRead E.delivery E.stale b = (mountTaken w).map (Event.mapReply resultOf) := by
  unfold ByteWorld.take at hstep
  split at hstep
  · rename_i r pipe hreader hread
    rcases h.readRequest hread with ⟨m, rest, hinbox, hm, htag, _, _⟩
    unfold Sessions.mountRead mountTaken
    rw [hread, hinbox]
    dsimp only
    rw [← hm, htag, h.table]
    cases m.request <;> rfl
  · cases hstep

theorem Transmitted.requestAnswered (h : Transmitted E.unset paths b w) (s : ℕ) :
    Sessions.requestAnswered exec s b =
      (requestPerformed exec s w).map (Event.mapReply resultOf) := by
  unfold Sessions.requestAnswered requestPerformed
  rw [h.buffers, h.table, h.slotTag, h.lib]
  rcases (b.bufferEntryTable s).request s (b.clientPipesTable s) with _ | r
  · rfl
  · cases r <;> rfl

/-- A step of the byte level is a step of the protocol, and shows the same. -/
theorem Transmitted.step (hpaths : Function.Injective paths) (hexec : RangedExec exec)
    (h : Transmitted E.unset paths b w) (hl : Located paths w place) {a : ByteLabel}
    (hstep : b.perform E exec paths a = some b') :
    ∃ w', Sessions.perform exec paths a.label w = some w' ∧ Transmitted E.unset paths b' w' ∧
      System.SeesAlike (callers E exec paths) (clients exec paths) resultOf (b, a) (w, a.label) := by
  -- what the steps of the workers share
  have hworker : ∀ {s : ℕ} {f : ByteWorld σ → Option (ByteWorld σ)}
      {g : World σ (Option Server.Reply) → Option (World σ (Option Server.Reply))},
      ByteWorld.ofWorker s f b = some b' →
      (s < maxSessionsAmount → f b = some b' →
        ∃ w', g w = some w' ∧ Transmitted E.unset paths b' w') →
      ∃ w', Sessions.ofWorker s g w = some w' ∧ Transmitted E.unset paths b' w' := by
    intro s f g hstep hstep'
    unfold ByteWorld.ofWorker at hstep
    split_ifs at hstep with hlt
    rcases hstep' hlt hstep with ⟨w', hw', hR⟩
    exact ⟨w', by rw [Sessions.ofWorker, if_pos hlt]; exact hw', hR⟩
  cases a with
  | send c r =>
      rcases h.send hl hstep with ⟨w', hw', hR⟩
      refine ⟨w', hw', hR, ?_, rfl⟩
      change some _ = some _
      rw [(h.process c).count]
      rfl
  | receive c =>
      rcases h.receive hpaths hl hstep with ⟨w', hw', hR⟩
      refine ⟨w', hw', hR, ?_, rfl⟩
      change ByteWorld.receive E.unset c (paths c) b = some b' at hstep
      unfold ByteWorld.receive at hstep
      split at hstep
      · cases hstep
      · rename_i r hpending
        split_ifs at hstep with hfilled
        rcases h.answer_of_ne_nil hl hpending hfilled with ⟨reply, _, hpipe, _, _, htransmits⟩
        change ((b.process c).pending.map _) = (((w.pipe (paths c)).head?.map _).map _)
        rw [hpending, hpipe, Option.map_some, htransmits.clientReturn, ← (h.process c).count]
        rfl
  | wake s =>
      rcases hworker hstep fun _ hs => h.wake hs with ⟨w', hw', hR⟩
      exact ⟨w', hw', hR, rfl, rfl⟩
  | take =>
      rcases h.take hstep with ⟨w', hw', hR⟩
      exact ⟨w', hw', hR, rfl, h.mountRead hstep⟩
  | refuse =>
      rcases h.refuse hpaths hl hstep with ⟨w', hw', hR⟩
      exact ⟨w', hw', hR, rfl, rfl⟩
  | store =>
      rcases h.store hstep with ⟨w', hw', hR⟩
      exact ⟨w', hw', hR, rfl, rfl⟩
  | lock s =>
      rcases hworker hstep fun _ hs => h.lock hs with ⟨w', hw', hR⟩
      exact ⟨w', hw', hR, rfl, rfl⟩
  | execute s =>
      rcases hworker hstep fun hlt hs => h.execute hpaths hexec hl hlt hs with ⟨w', hw', hR⟩
      exact ⟨w', hw', hR, rfl, h.requestAnswered s⟩
  | write s =>
      rcases hworker hstep fun _ hs => h.write hpaths hl hs with ⟨w', hw', hR⟩
      exact ⟨w', hw', hR, rfl, rfl⟩
  | clear s =>
      rcases hworker hstep fun _ hs => h.clear hs with ⟨w', hw', hR⟩
      exact ⟨w', hw', hR, rfl, rfl⟩

theorem transmitted_start (u : Unset) (lib : σ) :
    Transmitted u paths (ByteWorld.start lib) (World.start lib) where
  lib := rfl
  inbox := ⟨[], fun _ hr => (by cases hr), rfl, rfl⟩
  tags := rfl
  reader := rfl
  table := rfl
  buffers := rfl
  slotTag := rfl
  fclient := rfl
  handler := fun _ => .ready
  empty := fun _ _ => rfl
  answer := fun _ _ _ hr => by cases hr
  process := fun _ => ⟨rfl, fun hmounted => (by cases hmounted), rfl, rfl, rfl⟩

/-- A run on pipes of bytes is followed by a run of the protocol in which the clients see the same. -/
theorem bytes_follow_protocol (hpaths : Function.Injective paths) (hexec : RangedExec exec) {lib : σ}
    {h : List (ByteWorld σ × ByteLabel)} (he : (byteSessions E exec paths lib).Execution h b) :
    ∃ h' w, (sessions exec paths lib).Execution h' w ∧ Transmitted E.unset paths b w ∧
      List.Forall₂ (System.SeesAlike (callers E exec paths) (clients exec paths) resultOf) h h' := by
  refine System.Execution.simulates (R := Transmitted E.unset paths) ?_ ?_ he
  · rintro b rfl
    exact ⟨World.start lib, rfl, transmitted_start E.unset lib⟩
  · intro h' b w a b' he' hR hstep
    rcases inv_of_reachable hpaths ⟨h', he'⟩ with ⟨place, hl, _⟩
    rcases hR.step hpaths hexec hl hstep with ⟨w', hw', hR', hsees⟩
    exact ⟨a.label, w', hw', hR', hsees⟩

/-- **The client functions are linearizable.** Whatever way `read(2)` delivers and whatever memory
held before, the results that the callers of the client functions get in a run on pipes of bytes are
those of the service, in one order that keeps real time, if each call of the file system is one that
its specification covers at the moment when it is performed. -/
theorem bytes_linearizable (E : Surroundings) (hpaths : Function.Injective paths)
    {h : List (ByteWorld (Option Server.State) × ByteLabel)}
    {b : ByteWorld (Option Server.State)}
    (he : (byteSessions E serverExec paths (some Server.tfsInit.2)).Execution h b)
    (hok : (service.mapReply resultOf).RunOk Service.Allowed
      (((callers E serverExec paths).order h).map Event.call) Service.start) :
    Linearizes (service.mapReply resultOf) Service.start ((callers E serverExec paths).history h)
      ((callers E serverExec paths).order h) := by
  rcases bytes_follow_protocol hpaths rangedExec_serverExec he with ⟨h', w, he', _, hsees⟩
  rw [System.history_of_seesAlike hsees, System.order_of_seesAlike hsees] at *
  have hcalls : (((clients serverExec paths).order h').map (Event.mapReply resultOf)).map
      Event.call = ((clients serverExec paths).order h').map Event.call := by
    rw [List.map_map]
    rfl
  rw [hcalls] at hok
  exact (served_linearizes hpaths he' hok.of_mapReply).1.mapReply

/-- The pipe of client 0. -/
def oneField : NameField where
  name := [0x31]
  after := List.replicate 38 0
  noNul := by decide
  size := by simp

/-- Client 0 mounts and opens `/f1`, over pipes that deliver one byte at a time. -/
def oneClient : List ByteLabel :=
  [.send 0 (.mount oneField), .take, .store, .lock 0, .execute 0, .write 0, .clear 0, .receive 0,
    .send 0 (.open 0 f1Field 1), .take, .store, .lock 0, .execute 0, .write 0, .receive 0]

def oneClientOrder : List (Request CString) :=
  [.mount (onesPath 0), .open 0 (fieldName f1Field) 1]

theorem bytes_linearizable_oneClient : ∃ h b,
    ((callers ⟨.byteWise, 0, zeros⟩ serverExec onesPath).order h).map Event.call = oneClientOrder ∧
      (byteSessions ⟨.byteWise, 0, zeros⟩ serverExec onesPath (some Server.tfsInit.2)).Execution h b ∧
      Linearizes (service.mapReply resultOf) Service.start
        ((callers ⟨.byteWise, 0, zeros⟩ serverExec onesPath).history h)
        ((callers ⟨.byteWise, 0, zeros⟩ serverExec onesPath).order h) := by
  have hrun : (System.performAll (System.record (ByteWorld.perform ⟨.byteWise, 0, zeros⟩ serverExec
      onesPath)) oneClient ([], ByteWorld.start (some Server.tfsInit.2))).any
        (fun x => ((callers ⟨.byteWise, 0, zeros⟩ serverExec onesPath).order x.1).map Event.call =
          oneClientOrder) = true := by
    rw [Server.tfsInit_eq]
    decide +kernel
  rcases System.execution_of_any
    (M := byteSessions ⟨.byteWise, 0, zeros⟩ serverExec onesPath (some Server.tfsInit.2))
    (ByteWorld.perform ⟨.byteWise, 0, zeros⟩ serverExec onesPath) (fun _ _ _ hst => hst) rfl hrun with
    ⟨h, b, he, _, horder⟩
  refine ⟨h, b, horder, he, bytes_linearizable ⟨.byteWise, 0, zeros⟩ onesPath_injective he ?_⟩
  rw [horder]
  refine ⟨fun op hop => (by cases hop), ?_⟩
  intro r x hexec
  cases hexec
  refine ⟨?_, fun _ _ _ => trivial⟩
  intro op hop
  rcases Option.some.inj hop with rfl
  refine ⟨⟨⟨[0x66, 0x31], by simp⟩, by decide, by decide⟩, by decide, ?_⟩
  intro htrunc
  exact absurd htrunc (by decide)

end Views

end Sessions
end TecnicoFs
