import TecnicoFs.Sessions.Protocol

/-!
# Invariant — where the request of each client is

Each client waits for at most one request, and that request is in exactly one place: in the server
pipe, with the receiver, in a slot, with a worker that has performed it, or answered. The invariant
assigns a place to every client and says what the tables hold for a request in that place. What a
client relies on at its session is protected by the entry of `client_pipes_table`: while it is the
client's path, no step made for another client touches the slot, the worker or the descriptor of that
session.
-/

namespace TecnicoFs
namespace Sessions

open Lib Wire

universe u v

variable {σ : Type u} {ρ : Type v}

/-! ## Slots -/

section Slots

variable {b : BufferEntry} {s : ℕ} {r : Request CString} {path : CString}

/-- A request that a client of session `s` sends. -/
def OfSession (s : ℕ) (r : Request CString) : Prop :=
  r = .unmount s ∨ (r.sessionId = some (s : ℤ) ∧ (operation r).isSome)

/-- The worker reads from its slot the request that the receiver stored. -/
theorem request_store (h : r = .mount path ∨ OfSession s r) :
    (b.store r).request s (some path) = some r := by
  rcases h with rfl | rfl | ⟨hsession, hop⟩
  · rfl
  · rfl
  · cases r with
    | «open» z name flags =>
        rcases Option.some.inj hsession with rfl
        rfl
    | close z fhandle =>
        rcases Option.some.inj hsession with rfl
        rfl
    | write z fhandle len buffer =>
        rcases Option.some.inj hsession with rfl
        rfl
    | read z fhandle len =>
        rcases Option.some.inj hsession with rfl
        rfl
    | mount p => simp [operation] at hop
    | unmount z => simp [operation] at hop
    | shutdownAfterAllClosed z => simp [operation] at hop

/-- A slot that holds a request is not empty. -/
theorem opcode_pos_of_request (h : b.request s (some path) = some r) :
    b.opcode > tfsOpCodeNull := by
  by_contra hzero
  have hop : b.opcode = 0 := by
    have hle : ¬ (0 : UInt8) < b.opcode := hzero
    apply UInt8.toNat_inj.1
    rw [UInt8.lt_iff_toNat_lt] at hle
    have hz : (0 : UInt8).toNat = 0 := rfl
    omega
  simp +decide [BufferEntry.request, hop] at h

theorem opcode_eq_unmount (h : b.request s (some path) = some r) :
    b.opcode = tfsOpCodeUnmount ↔ r = .unmount s := by
  unfold BufferEntry.request at h
  constructor
  · intro hop
    simpa +decide [hop, eq_comm] using h
  · rintro rfl
    by_contra hne
    rw [if_neg hne] at h
    split_ifs at h <;> simp at h

/-- What the `switch` of the worker does with the request in its slot. -/
theorem request_cases (h : r = .mount path ∨ OfSession s r) :
    r = .mount path ∨ r = .unmount s ∨ (∃ op, operation r = some op) := by
  rcases h with h | h | ⟨_, hop⟩
  · exact Or.inl h
  · exact Or.inr (Or.inl h)
  · exact Or.inr (Or.inr (Option.isSome_iff_exists.1 hop))

end Slots

/-! ## Places -/

/-- Where the request of a client is. -/
inductive Place
  | away
  | inbox
  | refusing
  | storing (s : ℕ)
  | slot (s : ℕ)
  | replying (s : ℕ)
  | answered
  deriving DecidableEq

/-- A worker has performed the request, or no request is on its way. -/
def Place.performed : Place → Bool
  | replying _ => true
  | answered => true
  | away => true
  | _ => false

/-- The reply has been written, or no request is on its way. -/
def Place.settled : Place → Bool
  | answered => true
  | away => true
  | _ => false

section Places

variable (paths : ℕ → CString) (w : World σ ρ) (c s : ℕ) (r : Request CString)

/-- The request a client waits for, with its tag. -/
def current : Message :=
  ⟨c, (w.client c).count, r⟩

/-- Session `s` is the client's: the table and the worker have its pipe, and the worker is not about
to close it. -/
structure Attached : Prop where
  lt : s < maxSessionsAmount
  table : w.clientPipesTable s = some (paths c)
  fclient : w.fclient s = some (paths c)
  open_ : w.worker s = .clearing → (w.bufferEntryTable s).opcode ≠ tfsOpCodeUnmount

/-- A client without a session mounts; one with a session uses it. -/
def Issued : Prop :=
  (r = .mount (paths c) ∧ (w.client c).session = none) ∨
    ∃ s, (w.client c).session = some s ∧ Attached paths w c s ∧ OfSession s r

/-- The receiver has found session `s` for the request, and no worker has performed it yet. -/
def Enrolled : Prop :=
  s < maxSessionsAmount ∧ w.clientPipesTable s = some (paths c) ∧
    ((r = .mount (paths c) ∧ (w.client c).session = none) ∨
      ((w.client c).session = some s ∧ Attached paths w c s ∧ OfSession s r))

/-- A worker's reply to the request, before it is written. -/
def Replies (reply : Reply ρ) : Prop :=
  (r = .mount (paths c) ∧ (w.client c).session = none ∧ reply = .mount s ∧
      w.clientPipesTable s = some (paths c) ∧
      (w.bufferEntryTable s).opcode ≠ tfsOpCodeUnmount) ∨
    (r = .unmount s ∧ reply = .unmount 0) ∨
    ((∃ x, reply = .library x) ∧ (operation r).isSome ∧ (w.client c).session = some s ∧
      w.clientPipesTable s = some (paths c) ∧
      (w.bufferEntryTable s).opcode ≠ tfsOpCodeUnmount)

/-- A reply to the request, after it was written. -/
def Replied (reply : Reply ρ) : Prop :=
  (r = .mount (paths c) ∧ (w.client c).session = none ∧
      (reply = .mount (-1) ∨ ∃ s : ℕ, reply = .mount s ∧ Attached paths w c s)) ∨
    (∃ z, r = .unmount z ∧ reply = .unmount 0) ∨
    ((∃ x, reply = .library x) ∧ (operation r).isSome ∧
      ∃ s, (w.client c).session = some s ∧ Attached paths w c s)

/-- What holds for client `c` when its request is in a place. -/
def At : Place → Prop
  | .away =>
      (w.client c).pending = none ∧ w.pipe (paths c) = [] ∧
        ∀ s, (w.client c).session = some s → Attached paths w c s
  | .inbox =>
      ∃ r, (w.client c).pending = some r ∧ w.pipe (paths c) = [] ∧ current w c r ∈ w.inbox ∧
        Issued paths w c r
  | .refusing =>
      (w.client c).pending = some (.mount (paths c)) ∧ w.pipe (paths c) = [] ∧
        (w.client c).session = none ∧
        w.receiver = .refusing (paths c) (current w c (.mount (paths c)))
  | .storing s =>
      ∃ r, (w.client c).pending = some r ∧ w.pipe (paths c) = [] ∧
        w.receiver = .storing s (current w c r) ∧ Enrolled paths w c s r
  | .slot s =>
      ∃ r, (w.client c).pending = some r ∧ w.pipe (paths c) = [] ∧
        w.slotTag s = (c, (w.client c).count) ∧ (w.worker s = .ready ∨ w.worker s = .handling) ∧
        (w.bufferEntryTable s).request s (some (paths c)) = some r ∧ Enrolled paths w c s r
  | .replying s =>
      ∃ r reply, (w.client c).pending = some r ∧ w.pipe (paths c) = [] ∧
        w.slotTag s = (c, (w.client c).count) ∧ w.worker s = .replying reply ∧
        s < maxSessionsAmount ∧ w.fclient s = some (paths c) ∧
        ⟨s, current w c r, reply⟩ ∈ w.served ∧ Replies paths w c s r reply
  | .answered =>
      ∃ r reply, (w.client c).pending = some r ∧ w.pipe (paths c) = [reply] ∧
        ⟨paths c, (c, (w.client c).count), reply⟩ ∈ w.written ∧ Replied paths w c r reply

end Places

/-! ## The invariant -/

/-- Every client's request is where `place` says, and nothing is anywhere else. -/
structure Located (paths : ℕ → CString) (w : World σ ρ) (place : ℕ → Place) : Prop where
  located : ∀ c, At paths w c (place c)
  inbox : ∀ m ∈ w.inbox, place m.client = .inbox
  inboxOnce : (w.inbox.map Message.client).Nodup
  refusing : ∀ path m, w.receiver = .refusing path m → place m.client = .refusing
  storing : ∀ s m, w.receiver = .storing s m → place m.client = .storing s
  slots : ∀ s, (w.bufferEntryTable s).opcode > tfsOpCodeNull →
    (w.worker s = .ready ∨ w.worker s = .waiting ∨ w.worker s = .handling) →
      place (w.slotTag s).1 = .slot s
  replying : ∀ s reply, w.worker s = .replying reply → place (w.slotTag s).1 = .replying s
  handling : ∀ s, w.worker s = .handling → (w.bufferEntryTable s).opcode > tfsOpCodeNull

/-- What client `c` relies on is as before. -/
structure Kept (paths : ℕ → CString) (w w' : World σ ρ) (c : ℕ) : Prop where
  client : w'.client c = w.client c
  pipe : w'.pipe (paths c) = w.pipe (paths c)
  inbox : ∀ m ∈ w.inbox, m.client = c → m ∈ w'.inbox
  receiver : ∀ m, w.receiver.message = some m → m.client = c → w'.receiver = w.receiver
  served : ∀ e ∈ w.served, e ∈ w'.served
  written : ∀ x ∈ w.written, x ∈ w'.written
  table : ∀ s, w.clientPipesTable s = some (paths c) → w'.clientPipesTable s = some (paths c)
  attached : ∀ s, Attached paths w c s → Attached paths w' c s
  slot : ∀ s, w.clientPipesTable s = some (paths c) →
    (w.bufferEntryTable s).opcode > tfsOpCodeNull →
    (w.worker s = .ready ∨ w.worker s = .handling) →
      w'.slotTag s = w.slotTag s ∧ w'.bufferEntryTable s = w.bufferEntryTable s ∧
        (w'.worker s = .ready ∨ w'.worker s = .handling)
  replying : ∀ s reply, w.worker s = .replying reply → (w.slotTag s).1 = c →
    w'.worker s = .replying reply ∧ w'.slotTag s = w.slotTag s ∧ w'.fclient s = w.fclient s ∧
      w'.bufferEntryTable s = w.bufferEntryTable s

section Kept

variable {paths : ℕ → CString} {w w' : World σ ρ} {c s : ℕ} {r : Request CString} {p : Place}

theorem Kept.enrolled (h : Kept paths w w' c) (he : Enrolled paths w c s r) :
    Enrolled paths w' c s r := by
  rcases he with ⟨hlt, htable, hcases⟩
  refine ⟨hlt, h.table s htable, ?_⟩
  rw [h.client]
  rcases hcases with hmount | ⟨hsession, hattached, hof⟩
  · exact Or.inl hmount
  · exact Or.inr ⟨hsession, h.attached s hattached, hof⟩

theorem Kept.located (h : Kept paths w w' c) (hat : At paths w c p) : At paths w' c p := by
  -- place by place: all that it says of `c` is kept
  have hcurrent : ∀ r, current w' c r = current w c r := by
    intro r
    rw [current, current, h.client]
  cases p with
  | away =>
      rcases hat with ⟨hpending, hpipe, hsession⟩
      refine ⟨by rw [h.client]; exact hpending, by rw [h.pipe]; exact hpipe, ?_⟩
      intro s hs
      rw [h.client] at hs
      exact h.attached s (hsession s hs)
  | inbox =>
      rcases hat with ⟨r, hpending, hpipe, hmem, hissued⟩
      refine ⟨r, by rw [h.client]; exact hpending, by rw [h.pipe]; exact hpipe, ?_, ?_⟩
      · rw [hcurrent]
        exact h.inbox _ hmem rfl
      · rw [Issued, h.client]
        rcases hissued with hmount | ⟨s, hs, hattached, hof⟩
        · exact Or.inl hmount
        · exact Or.inr ⟨s, hs, h.attached s hattached, hof⟩
  | refusing =>
      rcases hat with ⟨hpending, hpipe, hsession, hreceiver⟩
      refine ⟨by rw [h.client]; exact hpending, by rw [h.pipe]; exact hpipe,
        by rw [h.client]; exact hsession, ?_⟩
      rw [h.receiver _ (by rw [hreceiver]; rfl) rfl, hcurrent]
      exact hreceiver
  | storing s =>
      rcases hat with ⟨r, hpending, hpipe, hreceiver, henrolled⟩
      refine ⟨r, by rw [h.client]; exact hpending, by rw [h.pipe]; exact hpipe, ?_,
        h.enrolled henrolled⟩
      rw [h.receiver _ (by rw [hreceiver]; rfl) rfl, hcurrent]
      exact hreceiver
  | slot s =>
      rcases hat with ⟨r, hpending, hpipe, htag, hworker, hrequest, henrolled⟩
      rcases h.slot s henrolled.2.1 (opcode_pos_of_request hrequest) hworker with
        ⟨htag', hbuffer', hworker'⟩
      refine ⟨r, by rw [h.client]; exact hpending, by rw [h.pipe]; exact hpipe, ?_, hworker', ?_,
        h.enrolled henrolled⟩
      · rw [htag', h.client]
        exact htag
      · rw [hbuffer']
        exact hrequest
  | replying s =>
      rcases hat with ⟨r, reply, hpending, hpipe, htag, hworker, hlt, hfclient, hserved, hreplies⟩
      rcases h.replying s reply hworker (by rw [htag]) with
        ⟨hworker', htag', hfclient', hbuffer'⟩
      refine ⟨r, reply, by rw [h.client]; exact hpending, by rw [h.pipe]; exact hpipe, ?_, hworker',
        hlt, by rw [hfclient']; exact hfclient, ?_, ?_⟩
      · rw [htag', h.client]
        exact htag
      · rw [hcurrent]
        exact h.served _ hserved
      · rw [Replies, h.client, hbuffer']
        rcases hreplies with ⟨hr, hsession, hreply, htable, hop⟩ | hunmount |
          ⟨hreply, hop, hsession, htable, hopcode⟩
        · exact Or.inl ⟨hr, hsession, hreply, h.table s htable, hop⟩
        · exact Or.inr (Or.inl hunmount)
        · exact Or.inr (Or.inr ⟨hreply, hop, hsession, h.table s htable, hopcode⟩)
  | answered =>
      rcases hat with ⟨r, reply, hpending, hpipe, hwritten, hreplied⟩
      refine ⟨r, reply, by rw [h.client]; exact hpending, by rw [h.pipe]; exact hpipe, ?_, ?_⟩
      · rw [h.client]
        exact h.written _ hwritten
      · rw [Replied, h.client]
        rcases hreplied with ⟨hr, hsession, hreply⟩ | hunmount | ⟨hreply, hop, s, hs, hattached⟩
        · refine Or.inl ⟨hr, hsession, ?_⟩
          rcases hreply with hrefused | ⟨s, hs, hattached⟩
          · exact Or.inl hrefused
          · exact Or.inr ⟨s, hs, h.attached s hattached⟩
        · exact Or.inr (Or.inl hunmount)
        · exact Or.inr (Or.inr ⟨hreply, hop, s, hs, h.attached s hattached⟩)

/-- Nothing at session `s` has changed. -/
structure SameSession (w w' : World σ ρ) (s : ℕ) : Prop where
  table : w'.clientPipesTable s = w.clientPipesTable s
  buffer : w'.bufferEntryTable s = w.bufferEntryTable s
  tag : w'.slotTag s = w.slotTag s
  worker : w'.worker s = w.worker s
  fclient : w'.fclient s = w.fclient s

theorem SameSession.attached (h : SameSession w w' s) (ha : Attached paths w c s) :
    Attached paths w' c s where
  lt := ha.lt
  table := by rw [h.table]; exact ha.table
  fclient := by rw [h.fclient]; exact ha.fclient
  open_ := by rw [h.worker, h.buffer]; exact ha.open_

/-- A step that changes one session at most, and keeps there what the client relies on. -/
theorem Kept.of_session (s : ℕ) (hsame : ∀ t, t ≠ s → SameSession w w' t)
    (hclient : w'.client c = w.client c) (hpipe : w'.pipe (paths c) = w.pipe (paths c))
    (hinbox : ∀ m ∈ w.inbox, m.client = c → m ∈ w'.inbox)
    (hreceiver : ∀ m, w.receiver.message = some m → m.client = c → w'.receiver = w.receiver)
    (hserved : ∀ e ∈ w.served, e ∈ w'.served) (hwritten : ∀ x ∈ w.written, x ∈ w'.written)
    (htable : w.clientPipesTable s = some (paths c) → w'.clientPipesTable s = some (paths c))
    (hattached : Attached paths w c s → Attached paths w' c s)
    (hslot : w.clientPipesTable s = some (paths c) →
      (w.bufferEntryTable s).opcode > tfsOpCodeNull →
      (w.worker s = .ready ∨ w.worker s = .handling) →
        w'.slotTag s = w.slotTag s ∧ w'.bufferEntryTable s = w.bufferEntryTable s ∧
          (w'.worker s = .ready ∨ w'.worker s = .handling))
    (hreplying : ∀ reply, w.worker s = .replying reply → (w.slotTag s).1 = c →
      w'.worker s = .replying reply ∧ w'.slotTag s = w.slotTag s ∧ w'.fclient s = w.fclient s ∧
        w'.bufferEntryTable s = w.bufferEntryTable s) :
    Kept paths w w' c := by
  -- session `s` is given; the others are as they were
  refine ⟨hclient, hpipe, hinbox, hreceiver, hserved, hwritten, ?_, ?_, ?_, ?_⟩
  · intro t ht
    by_cases hts : t = s
    · subst hts
      exact htable ht
    · rw [(hsame t hts).table]
      exact ht
  · intro t ht
    by_cases hts : t = s
    · subst hts
      exact hattached ht
    · exact (hsame t hts).attached ht
  · intro t ht hop hworker
    by_cases hts : t = s
    · subst hts
      exact hslot ht hop hworker
    · have h := hsame t hts
      exact ⟨h.tag, h.buffer, by rw [h.worker]; exact hworker⟩
  · intro t reply hworker htag
    by_cases hts : t = s
    · subst hts
      exact hreplying reply hworker htag
    · have h := hsame t hts
      exact ⟨by rw [h.worker]; exact hworker, h.tag, h.fclient, h.buffer⟩

/-- A step that changes no session. -/
theorem Kept.of_sessions (hsame : ∀ t, SameSession w w' t)
    (hclient : w'.client c = w.client c) (hpipe : w'.pipe (paths c) = w.pipe (paths c))
    (hinbox : ∀ m ∈ w.inbox, m.client = c → m ∈ w'.inbox)
    (hreceiver : ∀ m, w.receiver.message = some m → m.client = c → w'.receiver = w.receiver)
    (hserved : ∀ e ∈ w.served, e ∈ w'.served) (hwritten : ∀ x ∈ w.written, x ∈ w'.written) :
    Kept paths w w' c := by
  have h := hsame 0
  refine Kept.of_session 0 (fun t _ => hsame t) hclient hpipe hinbox hreceiver hserved hwritten
    ?_ h.attached ?_ ?_
  · intro ht
    rw [h.table]
    exact ht
  · intro _ _ hworker
    exact ⟨h.tag, h.buffer, by rw [h.worker]; exact hworker⟩
  · intro reply hworker _
    exact ⟨by rw [h.worker]; exact hworker, h.tag, h.fclient, h.buffer⟩

end Kept

end Sessions
end TecnicoFs
