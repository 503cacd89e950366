import TecnicoFs.Sessions.ByteLevel
import TecnicoFs.Sessions.Progress
import TecnicoFs.Wire.ReadReplies

/-!
# Crash — the server up to the end of its process

The workers of `Sessions.Protocol` have an answer to every reply of the library. `write_read` has none
to the error value, no function asks whether `malloc` gave it memory, and nothing is defined after a
`memcpy` that leaves `fs_data`: at such a step the process ends, with all its threads. What stands in
the pipe of a client by then can still be read, and the server takes no step any more.

Up to its end a run of the process is a run of the protocol. So what was performed and written is as the
protocol has it, in every run; that every request is settled holds in the runs that no step ends.
-/

namespace TecnicoFs
namespace Sessions

open Lib Wire

/-- The protocol over the library of the server. -/
abbrev FileServer := World (Option Server.State) (Option Server.Reply)

/-! ## Requests that the process survives -/

/-- A call that has a defined result and an answer. -/
def CallAnswerable (s : Server.State) (op : Operation) : Prop :=
  (Server.exec (libraryCall op) s).isSome = true ∧
    match op with
    | .read fhandle len => ReadAccepted fhandle len s
    | _ => True

instance (s : Server.State) (op : Operation) : Decidable (CallAnswerable s op) :=
  match op with
  | .open _ _ => inferInstanceAs (Decidable (_ ∧ True))
  | .close _ => inferInstanceAs (Decidable (_ ∧ True))
  | .write _ _ _ => inferInstanceAs (Decidable (_ ∧ True))
  | .read fhandle len => inferInstanceAs (Decidable (_ ∧ ReadAccepted fhandle len s))

/-- The worker has an answer to the request, if it makes the call in `lib`. -/
def Answerable (lib : Option Server.State) (r : Request CString) : Prop :=
  match operation r, lib with
  | none, _ => True
  | some _, none => False
  | some op, some s => CallAnswerable s op

instance (lib : Option Server.State) (r : Request CString) : Decidable (Answerable lib r) :=
  match h : operation r, lib with
  | none, _ => isTrue (by simp [Answerable, h])
  | some _, none => isFalse (by simp [Answerable, h])
  | some op, some s => decidable_of_iff (CallAnswerable s op) (by simp [Answerable, h])

/-! ## The process -/

/-- The server with its clients, and whether its process has ended. -/
structure ServerProcess where
  world : FileServer
  ended : Bool

/-- The request that worker `s` finds. -/
def requestOf (w : FileServer) (s : ℕ) : Option (Request CString) :=
  (w.bufferEntryTable s).request s (w.clientPipesTable s)

/-- Worker `s` can write the reply to its request. -/
def hasAnswer (u : Unset) (w : FileServer) (s : ℕ) : Bool :=
  match requestOf w s with
  | none => true
  | some r =>
      match operation r with
      | none => true
      | some op => (replyBytes u r (.library (serverExec op w.lib).1)).isSome

/-- The step of a worker that cannot answer. -/
def unanswered (u : Unset) (w : FileServer) : Label → Bool
  | .execute s => !hasAnswer u w s
  | _ => false

/-- The step asks for memory that it fills: `addClientPipe` for the path, `read_write` for the bytes of
a write, `write_read` for the bytes of the answer. -/
def allocates (w : FileServer) : Label → Bool
  | .take =>
      match w.inbox with
      | ⟨_, _, .mount path⟩ :: _ => (addClientPipe path w.clientPipesTable).isSome
      | _ => false
  | .store =>
      match w.receiver with
      | .storing _ ⟨_, _, .write _ _ len _⟩ => decide (0 < len)
      | _ => false
  | .execute s =>
      match requestOf w s with
      | some (.read _ _ _) => true
      | _ => false
  | _ => false

/-- A step of the protocol, or one at which a `malloc` fails whose memory is filled. -/
inductive ProcessStep
  | step (a : Label)
  | noMemory (a : Label)

/-- What a step does; `none` where it cannot be taken. -/
def ServerProcess.perform (u : Unset) (paths : ℕ → CString) :
    ProcessStep → ServerProcess → Option ServerProcess
  | .step (.receive c), p =>
      -- a client reads from its own pipe
      (Sessions.perform serverExec paths (.receive c) p.world).map fun w => { p with world := w }
  | .step a, p =>
      if p.ended then
        none
      else
        (Sessions.perform serverExec paths a p.world).map fun w =>
          if unanswered u p.world a then { p with ended := true } else { p with world := w }
  | .noMemory a, p =>
      if p.ended || !allocates p.world a then
        none
      else
        (Sessions.perform serverExec paths a p.world).map fun _ => { p with ended := true }

/-- Any number of clients and the process of the server, in any interleaving. -/
def process (u : Unset) (paths : ℕ → CString) : System ServerProcess ProcessStep where
  init p := p = ⟨World.start (some Server.tfsInit.2), false⟩
  step p e p' := p.perform u paths e = some p'

/-- A step at which the process does not end: every `malloc` gives memory, and a worker has an answer. -/
def Survives (p : ServerProcess) : ProcessStep → Prop
  | .step (.execute s) =>
      match requestOf p.world s with
      | none => True
      | some r => Answerable p.world.lib r
  | .step _ => True
  | .noMemory _ => False

instance (p : ServerProcess) (e : ProcessStep) : Decidable (Survives p e) :=
  match e with
  | .step (.execute s) =>
      match h : requestOf p.world s with
      | none => isTrue (by simp [Survives, h])
      | some r => decidable_of_iff (Answerable p.world.lib r) (by simp [Survives, h])
  | .step (.send _ _) => isTrue trivial
  | .step (.receive _) => isTrue trivial
  | .step (.wake _) => isTrue trivial
  | .step .take => isTrue trivial
  | .step .refuse => isTrue trivial
  | .step .store => isTrue trivial
  | .step (.lock _) => isTrue trivial
  | .step (.write _) => isTrue trivial
  | .step (.clear _) => isTrue trivial
  | .noMemory _ => isFalse not_false

instance (h : List (ServerProcess × ProcessStep)) : Decidable (System.EachStep Survives h) :=
  inferInstanceAs (Decidable (∀ p ∈ h, Survives p.1 p.2))

/-! ## Which steps end the process -/

section Ends

variable {u : Unset} {w : FileServer} {p p' : ServerProcess} {paths : ℕ → CString} {s : ℕ}

/-- A call without a defined result has no answer. -/
theorem replyBytes_none (r : Request CString) : replyBytes u r (.library none) = none := by
  cases r <;> rfl

/-- The worker has an answer exactly if the library accepts the request. -/
theorem replyBytes_isSome_iff {r : Request CString} {op : Operation} (hop : operation r = some op)
    (lib : Option Server.State) :
    (replyBytes u r (.library (serverExec op lib).1)).isSome = true ↔ Answerable lib r := by
  unfold Answerable
  rw [hop]
  rcases lib with _ | s
  · simp [serverExec, replyBytes_none]
  dsimp only
  unfold CallAnswerable
  rcases hexec : Server.exec (libraryCall op) s with _ | ⟨reply, t⟩
  · have hnone : (serverExec op (some s)).1 = none := by rw [serverExec, hexec]
    simp [hnone, replyBytes_none]
  have hsome : (serverExec op (some s)).1 = some reply := by rw [serverExec, hexec]
  rw [hsome]
  cases r with
  | mount path => cases hop
  | unmount z => cases hop
  | shutdownAfterAllClosed z => cases hop
  | «open» z name flags =>
      rcases Option.some.inj hop with rfl
      simp [replyBytes]
  | close z fhandle =>
      rcases Option.some.inj hop with rfl
      simp [replyBytes]
  | write z fhandle len buffer =>
      rcases Option.some.inj hop with rfl
      simp [replyBytes]
  | read z fhandle len =>
      -- the one reply whose length depends on the result
      rcases Option.some.inj hop with rfl
      rcases Option.map_eq_some_iff.1 hexec with ⟨⟨ret, data, t'⟩, hread, heq⟩
      rcases Prod.mk.inj heq with ⟨rfl, _⟩
      simp only [replyBytes, Option.isSome_some, true_and]
      rcases tfsRead_result hread with ⟨haccepted, hret, hdata, hsize⟩ | ⟨hnot, hret, _⟩
      · have hfits : data.length ≤ (u.bytes len).length := by
          rw [hdata, u.length]
          exact readCount_le _ _ _
        rw [fsDataSize_eq] at hsize
        rw [hret, ← hdata, writeRead_natCast (by rw [length_storeOver hfits]; exact hfits)
          (by simp only [tfsLenSize]; omega)]
        simp [haccepted]
      · rw [hret, writeRead_error]
        simp [hnot]

theorem hasAnswer_iff : hasAnswer u p.world s = true ↔ Survives p (.step (.execute s)) := by
  rcases hrequest : requestOf p.world s with _ | r
  · simp [hasAnswer, Survives, hrequest]
  rcases hop : operation r with _ | op
  · simp [hasAnswer, Survives, Answerable, hrequest, hop]
  · simp only [hasAnswer, Survives, hrequest, hop]
    exact replyBytes_isSome_iff hop p.world.lib

theorem unanswered_iff {a : Label} : unanswered u p.world a = true ↔ ¬ Survives p (.step a) := by
  cases a with
  | execute s =>
      rw [← hasAnswer_iff (u := u)]
      simp [unanswered]
  | _ => simp [unanswered, Survives]

/-- A step of the process is a step of the protocol, or the end. -/
theorem ServerProcess.perform_cases {e : ProcessStep} (h : p.perform u paths e = some p') :
    (Survives p e ∧ ∃ a w, e = .step a ∧ Sessions.perform serverExec paths a p.world = some w ∧
        p' = ⟨w, p.ended⟩) ∨
      (¬ Survives p e ∧ p.ended = false ∧ p' = ⟨p.world, true⟩) := by
  rcases p with ⟨w₀, ended⟩
  cases e with
  | step a =>
      by_cases hreceive : ∃ c, a = .receive c
      · rcases hreceive with ⟨c, rfl⟩
        rcases Option.map_eq_some_iff.1 h with ⟨w, hw, rfl⟩
        exact Or.inl ⟨trivial, _, w, rfl, hw, rfl⟩
      · -- a thread of the server, which has ended, survives the step or ends with it
        have hrun : (if ended then none else (Sessions.perform serverExec paths a w₀).map fun w =>
            if unanswered u w₀ a then ServerProcess.mk w₀ true else ⟨w, ended⟩) = some p' := by
          cases a with
          | receive c => exact absurd ⟨c, rfl⟩ hreceive
          | _ => exact h
        cases ended with
        | true => cases hrun
        | false =>
            rcases Option.map_eq_some_iff.1 hrun with ⟨w, hw, rfl⟩
            by_cases hfatal : unanswered u w₀ a = true
            · have hdies := (unanswered_iff (p := ⟨w₀, false⟩)).1 hfatal
              exact Or.inr ⟨hdies, rfl, by rw [if_pos hfatal]⟩
            · have hlives := not_not.1 (mt (unanswered_iff (p := ⟨w₀, false⟩)).2 hfatal)
              exact Or.inl ⟨hlives, a, w, rfl, hw, by rw [if_neg hfatal]⟩
  | noMemory a =>
      cases ended with
      | true => cases h
      | false =>
          have hrun : (if !allocates w₀ a then none else (Sessions.perform serverExec paths a w₀).map
              fun _ => ServerProcess.mk w₀ true) = some p' := h
          split at hrun
          · cases hrun
          · rcases Option.map_eq_some_iff.1 hrun with ⟨w, _, rfl⟩
            exact Or.inr ⟨not_false, rfl, rfl⟩

/-- While the process runs, its threads can do what the threads of the protocol can do. -/
theorem ServerProcess.perform_isSome {a : Label} (hrunning : p.ended = false)
    (h : (Sessions.perform serverExec paths a p.world).isSome = true) :
    (p.perform u paths (.step a)).isSome = true := by
  rcases Option.isSome_iff_exists.1 h with ⟨w, hw⟩
  cases a <;> simp [ServerProcess.perform, hrunning, hw]

end Ends

/-! ## Runs -/

section Runs

variable {u : Unset} {p : ServerProcess} {paths : ℕ → CString} {h : List (ServerProcess × ProcessStep)}

/-- Up to its end the process is the server of the protocol. -/
theorem world_reachable (hr : (process u paths).Reachable p) :
    (sessions serverExec paths (some Server.tfsInit.2)).Reachable p.world := by
  refine hr.invariant (I := fun p => (sessions serverExec paths (some Server.tfsInit.2)).Reachable p.world)
    ?_ ?_
  · rintro p rfl
    exact ⟨[], .start rfl⟩
  · intro p e p' hp hstep
    rcases ServerProcess.perform_cases hstep with ⟨_, a, w, _, hw, rfl⟩ | ⟨_, _, rfl⟩
    · exact hp.next hw
    · exact hp

/-- The process runs on exactly if it survives each step. -/
theorem running_iff (he : (process u paths).Execution h p) :
    p.ended = false ↔ System.EachStep Survives h := by
  induction he with
  | @start p hinit =>
      rw [show p = ⟨World.start (some Server.tfsInit.2), false⟩ from hinit]
      simp [System.EachStep]
  | @next h p p' e _ hstep ih =>
      rw [System.eachStep_cons, ← ih]
      rcases ServerProcess.perform_cases hstep with ⟨hlives, a, w, _, _, rfl⟩ | ⟨hdies, _, rfl⟩
      · simp [hlives]
      · simp [hdies]

/-- What was performed and written is as the protocol has it; the server takes only so many steps before
it is at rest or its process ends; and where no thread can move every request that was sent is settled. -/
def ExactlyOnce (u : Unset) (paths : ℕ → CString) (p : ServerProcess) : Prop :=
  Law serverExec paths (some Server.tfsInit.2) p.world ∧
    (∀ a p', Label.isServer a = true → p.perform u paths (.step a) = some p' →
      work p'.world < work p.world ∨ p'.ended = true) ∧
    ((∀ a, Label.isServer a = true → p.perform u paths (.step a) = none) →
      ∀ m ∈ p.world.sent, Settled p.world m)

/-- The law holds in every run, whether the process ends or not. -/
theorem law_of_reachable (hpaths : Function.Injective paths) (hr : (process u paths).Reachable p) :
    Law serverExec paths (some Server.tfsInit.2) p.world :=
  (exactlyOnce hpaths (world_reachable hr)).1

/-- Two clients mount, and the first one opens the file `/a` and reads from it. -/
def readAfterOpen : List Label :=
  twoClients ++ [.receive 0, .send 0 (.read 0 0 5), .take, .clear 0, .store, .lock 0, .execute 0, .write 0]

/-- Four requests are settled. -/
def FourServed (p : ServerProcess) : Prop :=
  p.world.served.map (fun e => (e.worker, e.message.tag)) =
      [(0, (0, 3)), (1, (1, 1)), (0, (0, 2)), (0, (0, 1))] ∧
    p.world.written.map Written.tag = [(0, 3), (0, 2), (1, 1), (0, 1)]

instance (p : ServerProcess) : Decidable (FourServed p) :=
  inferInstanceAs (Decidable (_ ∧ _))

/-- A mounted client reads from handle -1. -/
def readError : List Label :=
  [.send 0 (.mount (onesPath 0)), .take, .store, .lock 0, .execute 0, .write 0, .receive 0, .clear 0,
    .send 0 (.read 0 (-1) 10), .take, .store, .lock 0, .execute 0]

/-- The process has ended, and the second of the two requests has no reply. -/
def EndedBeforeReply (p : ServerProcess) : Prop :=
  p.ended = true ∧ ⟨0, 2, .read 0 (-1) 10⟩ ∈ p.world.sent ∧ p.world.written.map Written.tag = [(0, 1)]

instance (p : ServerProcess) : Decidable (EndedBeforeReply p) :=
  inferInstanceAs (Decidable (_ ∧ _))

/-- No thread can move once the process has ended. -/
theorem perform_of_ended {a : Label} (hended : p.ended = true) (hserver : a.isServer = true) :
    p.perform u paths (.step a) = none := by
  cases a with
  | receive c => cases hserver
  | _ => simp [ServerProcess.perform, hended]

end Runs

end Sessions
end TecnicoFs
