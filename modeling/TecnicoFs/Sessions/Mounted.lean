import TecnicoFs.Sessions.Intake
import TecnicoFs.Sessions.Routing

/-!
# Mounted — requests and the sessions they name

No `read_*` function checks the session id it has read. The tables are indexed in range, and a worker
finds its client's pipe open, as long as every request names a session that is mounted when the
receiver reads it. The invariant carries this over the steps that the workers take until the request
is stored and performed.
-/

namespace TecnicoFs
namespace Sessions
namespace Intake

open Lib Wire

variable {d : Delivery} {w w' : Tables}

/-! ## Law and condition -/

/-- The receiver indexes its tables in range, hands a request other than a mount over to a mounted
session only, and a worker performs such a request only with its client's pipe open. -/
structure Safe (w : Tables) : Prop where
  inRange : ∀ opcode session, w.reader = .locking opcode session →
    0 ≤ session ∧ session < maxSessionsAmount
  handedOver : ∀ opcode s, w.reader = .storing opcode s → opcode ≠ tfsOpCodeMount →
    w.clientPipesTable s ≠ none
  performed : ∀ s, w.worker s = .handling → w.opcode s ≠ tfsOpCodeMount → w.fclient s ≠ none

/-- The worker of the session has its client's pipe open, or is about to open it, and no unmount is
waiting for it. -/
def Attended (w : Tables) (s : ℕ) : Prop :=
  (w.fclient s ≠ none ∧ w.opcode s ≠ tfsOpCodeUnmount) ∨
    (w.worker s = .handling ∧ w.opcode s = tfsOpCodeMount)

/-- A header that the receiver acts on, its opcode read from the pipe or stale, is that of a mount or names a
session that is attended. -/
def Addressed (d : Delivery) (w : Tables) : Label → Prop
  | .hear stale => ∀ opcode session p, readHeader d stale w.pipe = .ok (.request opcode session, p) →
      0 ≤ session ∧ session < maxSessionsAmount ∧ Attended w session.toNat
  | _ => True

instance (w : Tables) (s : ℕ) : Decidable (Attended w s) :=
  inferInstanceAs (Decidable (_ ∨ _))

/-- The condition read off the next header. -/
def Addressed.check (d : Delivery) (w : Tables) : Label → Bool
  | .hear stale =>
      match readHeader d stale w.pipe with
      | .ok (.request _ session, _) =>
          decide (0 ≤ session ∧ session < maxSessionsAmount ∧ Attended w session.toNat)
      | _ => true
  | _ => true

theorem addressed_of_check {a : Label} (h : Addressed.check d w a = true) : Addressed d w a := by
  cases a with
  | hear stale =>
      intro opcode session p hheader
      simpa [Addressed.check, hheader] using h
  | _ => trivial

/-! ## The invariant -/

/-- What the receiver relies on at session `s` until it has stored a request. -/
def Admitted (w : Tables) (opcode : Byte) (s : ℕ) : Prop :=
  (opcode = tfsOpCodeMount ∧ w.clientPipesTable s ≠ none ∧
      (w.opcode s = tfsOpCodeNull ∨
        (w.opcode s = tfsOpCodeUnmount ∧ w.worker s = .clearing))) ∨
    (opcode ≠ tfsOpCodeMount ∧ Attended w s)

structure Inv (w : Tables) : Prop where
  locking : ∀ opcode session, w.reader = .locking opcode session →
    0 ≤ session ∧ session < maxSessionsAmount ∧ Admitted w opcode session.toNat
  storing : ∀ opcode s, w.reader = .storing opcode s →
    (w.worker s).locked = false ∧ Admitted w opcode s
  table : ∀ s, w.fclient s ≠ none → w.clientPipesTable s ≠ none
  slot : ∀ s, w.opcode s ≠ tfsOpCodeNull → w.opcode s ≠ tfsOpCodeMount →
    w.fclient s ≠ none ∨ (w.opcode s = tfsOpCodeUnmount ∧ w.worker s = .clearing)
  mount : ∀ s, w.opcode s = tfsOpCodeMount → w.clientPipesTable s ≠ none
  handling : ∀ s, w.worker s = .handling → w.opcode s ≠ tfsOpCodeNull

theorem inv_start (bytes : List Byte) : Inv (Tables.start bytes) where
  locking := by
    intro opcode session h
    cases h
  storing := by
    intro opcode s h
    cases h
  table := fun s h => absurd rfl h
  slot := fun s h _ => absurd rfl h
  mount := by
    intro s h
    have hnull : tfsOpCodeNull = tfsOpCodeMount := h
    exact absurd hnull (by decide)
  handling := by
    intro s h
    cases h

/-- A request that waits for the mutex of a slot has its client's pipe open. -/
theorem Admitted.fclient {opcode : Byte} {s : ℕ} (h : Admitted w opcode s)
    (hop : opcode ≠ tfsOpCodeMount) (hfree : (w.worker s).locked = false) : w.fclient s ≠ none := by
  rcases h with ⟨hmount, _⟩ | ⟨_, hopen | ⟨hhandling, _⟩⟩
  · exact absurd hmount hop
  · exact hopen.1
  · rw [hhandling] at hfree
    cases hfree

theorem Inv.safe (hw : Inv w) : Safe w where
  inRange := by
    intro opcode session hreader
    rcases hw.locking opcode session hreader with ⟨hlo, hhi, _⟩
    exact ⟨hlo, hhi⟩
  handedOver := by
    intro opcode s hreader hop
    rcases hw.storing opcode s hreader with ⟨hfree, hadmitted⟩
    exact hw.table s (hadmitted.fclient hop hfree)
  performed := by
    intro s hhandling hop
    rcases hw.slot s (hw.handling s hhandling) hop with hopen | ⟨_, hclearing⟩
    · exact hopen
    · rw [hhandling] at hclearing
      cases hclearing

/-- A request with a session id is not a mount, and has an opcode. -/
theorem readHeader_carries {p q : Pipe} {stale opcode : Byte} {session : ℤ}
    (h : readHeader d stale p = .ok (.request opcode session, q)) : CarriesSession opcode := by
  unfold readHeader at h
  rcases hop : readOpcode d stale p with stop | ⟨op, p₁⟩
  · simp [hop, bind, Except.bind] at h
  · simp only [hop, bind, Except.bind] at h
    split_ifs at h with hmount hcarries
    · split at h <;> cases h
    · split at h
      · cases h
      · cases h
        exact hcarries

/-- A session that is free has nothing in its slot, but for an unmount that is being cleared. -/
theorem Inv.slot_of_free (hw : Inv w) {s : ℕ} (hfree : w.clientPipesTable s = none) :
    w.opcode s = tfsOpCodeNull ∨ (w.opcode s = tfsOpCodeUnmount ∧ w.worker s = .clearing) := by
  by_cases hnull : w.opcode s = tfsOpCodeNull
  · exact Or.inl hnull
  · have hmount : w.opcode s ≠ tfsOpCodeMount := fun h => hw.mount s h hfree
    rcases hw.slot s hnull hmount with hopen | hclearing
    · exact absurd hfree (hw.table s hopen)
    · exact Or.inr hclearing

/-! ## Steps -/

section Steps

variable {s : ℕ} {opcode : Byte}

/-- Nothing at session `s` has changed. -/
structure SameAt (w w' : Tables) (s : ℕ) : Prop where
  table : w'.clientPipesTable s = w.clientPipesTable s
  opcode : w'.opcode s = w.opcode s
  worker : w'.worker s = w.worker s
  fclient : w'.fclient s = w.fclient s

theorem SameAt.admitted (h : SameAt w w' s) (ha : Admitted w opcode s) : Admitted w' opcode s := by
  unfold Admitted Attended
  rw [h.table, h.opcode, h.worker, h.fclient]
  exact ha

/-- A step of worker `s`: the receiver stays where it is, and so do the other sessions. -/
theorem Inv.of_worker (hw : Inv w) (hreader : w'.reader = w.reader)
    (hsame : ∀ t, t ≠ s → SameAt w w' t)
    (hadmitted : ∀ opcode, Admitted w opcode s → Admitted w' opcode s)
    (hstoring : ∀ opcode, w.reader = .storing opcode s → (w'.worker s).locked = false)
    (htable : w'.fclient s ≠ none → w'.clientPipesTable s ≠ none)
    (hslot : w'.opcode s ≠ tfsOpCodeNull → w'.opcode s ≠ tfsOpCodeMount →
      w'.fclient s ≠ none ∨ (w'.opcode s = tfsOpCodeUnmount ∧ w'.worker s = .clearing))
    (hmount : w'.opcode s = tfsOpCodeMount → w'.clientPipesTable s ≠ none)
    (hhandling : w'.worker s = .handling → w'.opcode s ≠ tfsOpCodeNull) : Inv w' := by
  -- each clause speaks of one session: `s` is given, the others are as they were
  have hkept : ∀ opcode t, Admitted w opcode t → Admitted w' opcode t := by
    intro opcode t ht
    by_cases hts : t = s
    · subst hts
      exact hadmitted opcode ht
    · exact (hsame t hts).admitted ht
  constructor
  · intro opcode session hlocking
    rw [hreader] at hlocking
    rcases hw.locking opcode session hlocking with ⟨hlo, hhi, ha⟩
    exact ⟨hlo, hhi, hkept opcode _ ha⟩
  · intro opcode t hst
    rw [hreader] at hst
    rcases hw.storing opcode t hst with ⟨hfree, ha⟩
    refine ⟨?_, hkept opcode t ha⟩
    by_cases hts : t = s
    · subst hts
      exact hstoring opcode hst
    · rw [(hsame t hts).worker]
      exact hfree
  · intro t
    by_cases hts : t = s
    · subst hts
      exact htable
    · rw [(hsame t hts).table, (hsame t hts).fclient]
      exact hw.table t
  · intro t
    by_cases hts : t = s
    · subst hts
      exact hslot
    · rw [(hsame t hts).opcode, (hsame t hts).fclient, (hsame t hts).worker]
      exact hw.slot t
  · intro t
    by_cases hts : t = s
    · subst hts
      exact hmount
    · rw [(hsame t hts).opcode, (hsame t hts).table]
      exact hw.mount t
  · intro t
    by_cases hts : t = s
    · subst hts
      exact hhandling
    · rw [(hsame t hts).worker, (hsame t hts).opcode]
      exact hw.handling t

/-! ### The receiver -/

theorem Inv.hear {stale : Byte} (hw : Inv w) (haddressed : Addressed d w (.hear stale))
    (hstep : hear d stale w = some w') :
    Inv w' := by
  unfold Intake.hear at hstep
  split at hstep
  · rename_i path p hidle hheader
    -- a mount: refused, or given the first free entry
    split at hstep
    · rcases Option.some.inj hstep with rfl
      refine ⟨?_, ?_, hw.table, hw.slot, hw.mount, hw.handling⟩
      · intro opcode session h
        cases h
      · intro opcode s h
        cases h
    · rename_i s hadd
      rcases addClientPipe_eq hadd with ⟨hlt, hfree⟩
      rcases Option.some.inj hstep with rfl
      -- An entry that is added takes nothing from a session that has one.
      have hgrows : ∀ t, w.clientPipesTable t ≠ none →
          Function.update w.clientPipesTable s (some path) t ≠ none := by
        intro t ht
        by_cases hts : t = s
        · subst hts
          simp
        · rw [Function.update_of_ne hts]
          exact ht
      refine ⟨?_, ?_, fun t ht => hgrows t (hw.table t ht), hw.slot,
        fun t ht => hgrows t (hw.mount t ht), hw.handling⟩
      · intro opcode session h
        cases h
        refine ⟨Int.natCast_nonneg s, by exact_mod_cast hlt, Or.inl ⟨rfl, ?_, ?_⟩⟩
        · simp
        · simpa using hw.slot_of_free hfree
      · intro opcode t h
        cases h
  · rename_i opcode session p hidle hheader
    rcases Option.some.inj hstep with rfl
    -- any other request is addressed, by assumption
    rcases haddressed opcode session p hheader with ⟨hlo, hhi, hattended⟩
    refine ⟨?_, ?_, hw.table, hw.slot, hw.mount, hw.handling⟩
    · intro opcode' session' h
      cases h
      exact ⟨hlo, hhi, Or.inr ⟨(readHeader_carries hheader).ne_mount, hattended⟩⟩
    · intro opcode' t h
      cases h
  · cases hstep

theorem Inv.refuse (hw : Inv w) (hstep : refuse w = some w') : Inv w' := by
  unfold Intake.refuse at hstep
  split at hstep
  · rcases Option.some.inj hstep with rfl
    refine ⟨?_, ?_, hw.table, hw.slot, hw.mount, hw.handling⟩
    · intro opcode session h
      cases h
    · intro opcode s h
      cases h
  · cases hstep

theorem Inv.lockBuffer (hw : Inv w) (hstep : lockBuffer w = some w') : Inv w' := by
  unfold Intake.lockBuffer at hstep
  split at hstep
  · rename_i opcode session hreader
    split_ifs at hstep with hrange
    rcases Option.some.inj hstep with rfl
    refine ⟨?_, ?_, hw.table, hw.slot, hw.mount, hw.handling⟩
    · intro opcode' session' h
      cases h
    · intro opcode' s h
      cases h
      exact ⟨hrange.2.2, (hw.locking opcode session hreader).2.2⟩
  · cases hstep

/-- The state after a request was stored in slot `s`. -/
def stored (w : Tables) (opcode : Byte) (s : ℕ) (p : Pipe) : Tables :=
  { w with
    pipe := p
    reader := .idle
    opcode := Function.update w.opcode s opcode
    worker := Function.update w.worker s .ready }

theorem store_eq (hstep : store d w = some w') :
    ∃ opcode s p, w.reader = .storing opcode s ∧ w' = stored w opcode s p := by
  unfold Intake.store at hstep
  split at hstep
  · rename_i opcode s hreader
    refine ⟨opcode, s, ?_⟩
    split_ifs at hstep with hmount
    · exact ⟨w.pipe, hreader, (Option.some.inj hstep).symm⟩
    · split at hstep
      · rename_i r p _
        exact ⟨p, hreader, (Option.some.inj hstep).symm⟩
      · cases hstep
  · cases hstep

theorem Inv.store (hw : Inv w) (hstep : store d w = some w') : Inv w' := by
  rcases store_eq hstep with ⟨opcode, s, p, hreader, rfl⟩
  rcases hw.storing opcode s hreader with ⟨hfree, hadmitted⟩
  refine ⟨?_, ?_, hw.table, ?_, ?_, ?_⟩
  · intro opcode' session h
    cases h
  · intro opcode' t h
    cases h
  · intro t hnull hmount
    by_cases hts : t = s
    · subst hts
      -- the worker of an admitted request has its client's pipe open, unless it is a mount
      left
      simp only [stored, Function.update_self] at hmount
      exact hadmitted.fclient hmount hfree
    · simp only [stored, Function.update_of_ne hts] at hnull hmount ⊢
      exact hw.slot t hnull hmount
  · intro t hmount
    by_cases hts : t = s
    · subst hts
      simp only [stored, Function.update_self] at hmount
      -- a mount that is stored has got its entry
      rcases hadmitted with ⟨_, htable, _⟩ | ⟨hother, _⟩
      · exact htable
      · exact absurd hmount hother
    · simp only [stored, Function.update_of_ne hts] at hmount
      exact hw.mount t hmount
  · intro t hhandling
    by_cases hts : t = s
    · subst hts
      simp [stored] at hhandling
    · simp only [stored, Function.update_of_ne hts] at hhandling ⊢
      exact hw.handling t hhandling

/-! ### The workers -/

/-- Worker `s` moves between two phases, and nothing else happens. -/
theorem Inv.setWorker {phase : Phase} (hw : Inv w) (hclearing : w.worker s ≠ .clearing)
    (hbefore : w.worker s ≠ .handling)
    (hstoring : ∀ opcode, w.reader = .storing opcode s → phase.locked = false)
    (hhandling : phase = .handling → w.opcode s ≠ tfsOpCodeNull) :
    Inv { w with worker := Function.update w.worker s phase } := by
  refine hw.of_worker (s := s) rfl ?_ ?_ ?_ (hw.table s) ?_ (hw.mount s) ?_
  · intro t hts
    exact ⟨rfl, rfl, Function.update_of_ne hts _ _, rfl⟩
  · rintro opcode (⟨hop, htable, hnull | ⟨_, hcl⟩⟩ | ⟨hop, hopen | ⟨hh, _⟩⟩)
    · exact Or.inl ⟨hop, htable, Or.inl hnull⟩
    · exact absurd hcl hclearing
    · exact Or.inr ⟨hop, Or.inl hopen⟩
    · exact absurd hh hbefore
  · intro opcode hreader
    simpa using hstoring opcode hreader
  · intro hnull hmount
    rcases hw.slot s hnull hmount with hopen | ⟨_, hcl⟩
    · exact Or.inl hopen
    · exact absurd hcl hclearing
  · intro h
    exact hhandling (by simpa using h)

theorem Inv.wake (hw : Inv w) (hstep : wake s w = some w') : Inv w' := by
  unfold Intake.wake at hstep
  split_ifs at hstep with hwaiting
  rcases Option.some.inj hstep with rfl
  refine hw.setWorker ?_ ?_ (fun _ _ => rfl) ?_
  · rw [hwaiting]
    decide
  · rw [hwaiting]
    decide
  · intro h
    cases h

theorem Inv.lock (hw : Inv w) (hstep : lock s w = some w') : Inv w' := by
  unfold Intake.lock at hstep
  split_ifs at hstep with hready hop
  · rcases Option.some.inj hstep with rfl
    refine hw.setWorker ?_ ?_ ?_ (fun _ => (UInt8.ne_of_lt hop).symm)
    · rw [hready.1]
      decide
    · rw [hready.1]
      decide
    · intro opcode hreader
      -- the receiver does not hold the mutex, so it is not storing here
      have hholds := hready.2
      rw [hreader] at hholds
      simp [Reader.holds] at hholds
  · rcases Option.some.inj hstep with rfl
    refine hw.setWorker ?_ ?_ (fun _ _ => rfl) ?_
    · rw [hready.1]
      decide
    · rw [hready.1]
      decide
    · intro h
      cases h

/-- While a worker holds the mutex, the receiver is not storing in its slot. -/
theorem Inv.not_storing (hw : Inv w) (hlocked : (w.worker s).locked = true) (opcode : Byte) :
    w.reader ≠ .storing opcode s := by
  intro hreader
  rw [(hw.storing opcode s hreader).1] at hlocked
  cases hlocked

theorem Inv.execute (hw : Inv w) (hstep : execute s w = some w') : Inv w' := by
  unfold Intake.execute at hstep
  by_cases hhandling : w.worker s = .handling
  · have hlocked : (w.worker s).locked = true := by
      rw [hhandling]
      rfl
    have hstoring : ∀ opcode, w.reader = .storing opcode s → (w'.worker s).locked = false :=
      fun opcode h => absurd h (hw.not_storing hlocked opcode)
    rw [if_pos hhandling] at hstep
    split_ifs at hstep with hmount hclosed hunmount
    · -- A mount: the worker opens the client's pipe.
      split at hstep
      · cases hstep
      · rename_i path htable
        rcases Option.some.inj hstep with rfl
        refine hw.of_worker (s := s) rfl ?_ ?_ hstoring ?_ ?_ (hw.mount s) ?_
        · intro t hts
          exact ⟨rfl, rfl, Function.update_of_ne hts _ _, Function.update_of_ne hts _ _⟩
        · rintro opcode (⟨_, _, hnull | ⟨hop, _⟩⟩ | ⟨hop, _⟩)
          · rw [hmount] at hnull
            exact absurd hnull (by decide)
          · rw [hmount] at hop
            exact absurd hop (by decide)
          · refine Or.inr ⟨hop, Or.inl ⟨by simp, ?_⟩⟩
            rw [hmount]
            decide
        · intro _
          rw [htable]
          simp
        · intro _ hother
          exact absurd hmount hother
        · intro h
          simp at h
    · -- An unmount: nobody has been admitted since it was stored.
      rcases Option.some.inj hstep with rfl
      refine hw.of_worker (s := s) rfl ?_ ?_ hstoring ?_ ?_ ?_ ?_
      · intro t hts
        exact ⟨Function.update_of_ne hts _ _, rfl, Function.update_of_ne hts _ _,
          Function.update_of_ne hts _ _⟩
      · rintro opcode (⟨_, _, hnull | ⟨_, hclearing⟩⟩ | ⟨_, ⟨_, hother⟩ | ⟨_, hop⟩⟩)
        · exact absurd hnull (hw.handling s hhandling)
        · rw [hhandling] at hclearing
          cases hclearing
        · exact absurd hunmount hother
        · exact absurd hop hmount
      · intro h
        simp at h
      · intro _ _
        exact Or.inr ⟨hunmount, by simp⟩
      · intro h
        exact absurd h hmount
      · intro h
        simp at h
    · -- Any other request: the tables stay as they are.
      rcases Option.some.inj hstep with rfl
      refine hw.of_worker (s := s) rfl ?_ ?_ hstoring (hw.table s) (fun _ _ => Or.inl hclosed)
        (hw.mount s) ?_
      · intro t hts
        exact ⟨rfl, rfl, Function.update_of_ne hts _ _, rfl⟩
      · rintro opcode (⟨_, _, hnull | ⟨hop, _⟩⟩ | ⟨hop, _⟩)
        · exact absurd hnull (hw.handling s hhandling)
        · exact absurd hop hunmount
        · exact Or.inr ⟨hop, Or.inl ⟨hclosed, hunmount⟩⟩
      · intro h
        simp at h
  · rw [if_neg hhandling] at hstep
    cases hstep

theorem Inv.clear (hw : Inv w) (hstep : clear s w = some w') : Inv w' := by
  unfold Intake.clear at hstep
  split_ifs at hstep with hclearing
  have hlocked : (w.worker s).locked = true := by
    rw [hclearing]
    rfl
  rcases Option.some.inj hstep with rfl
  refine hw.of_worker (s := s) rfl ?_ ?_ (fun _ h => absurd h (hw.not_storing hlocked _)) (hw.table s)
    ?_ ?_ ?_
  · intro t hts
    exact ⟨rfl, Function.update_of_ne hts _ _, Function.update_of_ne hts _ _, rfl⟩
  · rintro opcode (⟨hop, htable, _⟩ | ⟨hop, ⟨hopen, _⟩ | ⟨hhandling, _⟩⟩)
    · exact Or.inl ⟨hop, htable, Or.inl (by simp)⟩
    · exact Or.inr ⟨hop, Or.inl ⟨hopen, by simp +decide⟩⟩
    · rw [hclearing] at hhandling
      cases hhandling
  · intro hnull _
    simp at hnull
  · intro hmount
    simp +decide at hmount
  · intro h
    simp at h

theorem Inv.perform {a : Label} (hw : Inv w) (haddressed : Addressed d w a)
    (hstep : perform d a w = some w') : Inv w' := by
  cases a with
  | hear stale => exact hw.hear haddressed hstep
  | refuse => exact hw.refuse hstep
  | lockBuffer => exact hw.lockBuffer hstep
  | store => exact hw.store hstep
  | wake s => exact hw.wake hstep
  | lock s => exact hw.lock hstep
  | execute s => exact hw.execute hstep
  | clear s => exact hw.clear hstep

end Steps

/-! ## Runs -/

/-- In a run in which every header that the receiver acts on is that of a mount or names an attended session,
the receiver stays within its tables and every request finds its session mounted and its client's pipe
open. -/
theorem safe_of_addressed {bytes : List Byte} {h : List (Tables × Label)} {w : Tables}
    (he : (intake d bytes).Execution h w) (hok : System.EachStep (Addressed d) h) :
    System.Always Safe h w := by
  have halways : System.Always Inv h w := by
    refine he.always_of_eachStep (C := Addressed d) ?_ ?_ hok
    · intro s hinit
      rw [show s = Tables.start bytes from hinit]
      exact inv_start bytes
    · intro s a t hs haddressed hstep
      exact hs.perform haddressed hstep
  exact ⟨halways.1.safe, fun p hp => (halways.2 p hp).safe⟩

/-- A client at pipe `a` mounts, and closes handle 3 with the session id it got. -/
def mountThenClose : List Byte :=
  tfsMount ⟨[97], List.replicate 38 0, by decide, rfl⟩ ++ tfsClose 0 3

theorem performAll_mountThenClose :
    (System.performAll (System.record (perform PromptDelivery.byteWise))
      [.hear 0, .lockBuffer, .store, .lock 0, .execute 0, .clear 0, .hear 0, .lockBuffer, .store, .lock 0]
      ([], Tables.start mountThenClose)).any (fun x =>
        (∀ p ∈ x.1, Addressed.check PromptDelivery.byteWise p.1 p.2 = true) ∧ x.2.worker 0 = .handling ∧
          x.2.opcode 0 = tfsOpCodeClose) = true := by
  decide +kernel

/-- The close is performed with the pipe of the client open. -/
theorem safe_of_addressed_close :
    ∃ h w, (intake PromptDelivery.byteWise mountThenClose).Execution h w ∧ w.worker 0 = .handling ∧
      w.opcode 0 = tfsOpCodeClose ∧ System.Always Safe h w := by
  rcases System.execution_of_any (M := intake PromptDelivery.byteWise mountThenClose) (perform PromptDelivery.byteWise)
      (fun _ _ _ hstep => hstep) rfl performAll_mountThenClose with
    ⟨h, w, he, _, hcheck, hworker, hopcode⟩
  exact ⟨h, w, he, hworker, hopcode,
    safe_of_addressed he fun p hp => addressed_of_check (hcheck p hp)⟩

/-- The open of a client whose mount was refused. -/
def refusedClient : List Byte :=
  tfsOpen (-1) ⟨[47, 97], List.replicate 37 0, by decide, rfl⟩ 0

theorem performAll_refusedClient :
    (System.performAll (System.record (perform PromptDelivery.byteWise)) [.hear 0]
      ([], Tables.start refusedClient)).any (fun x =>
        x.2.reader = .locking tfsOpCodeOpen (-1)) = true := by
  decide +kernel

/-- The receiver is about to index its tables with -1. -/
theorem refusedClient_leaves_tables :
    ¬ ∀ (d : Delivery) (bytes : List Byte) (h : List (Tables × Label)) (w : Tables),
      (intake d bytes).Execution h w → System.Always Safe h w := by
  intro hall
  rcases System.execution_of_any (M := intake PromptDelivery.byteWise refusedClient) (perform PromptDelivery.byteWise)
      (fun _ _ _ hstep => hstep) rfl performAll_refusedClient with ⟨h, w, he, _, hreader⟩
  rcases (hall _ _ h w he).1.inRange _ _ hreader with ⟨hlo, _⟩
  exact absurd hlo (by decide)

/-- Two clients open the pipe and close it without writing, and then bytes come one at a time. -/
def twoVisitors : Delivery where
  size n := if n < 2 then 0 else 1
  returns n := ⟨2, by simp⟩

/-- A client at pipe `/f1` mounts. -/
def oneMount : List Byte :=
  tfsMount f1Field

theorem performAll_staleOpen :
    (System.performAll (System.record (perform twoVisitors)) [.hear tfsOpCodeOpen]
      ([], Tables.start oneMount)).any (fun x =>
        x.2.reader = .locking tfsOpCodeOpen 828780289) = true := by
  decide +kernel

/-- No request but a mount was sent, and the receiver is about to index its tables with its first four bytes:
`opcode` still holds that of an open. -/
theorem staleOpen_leaves_tables : ∃ h w, (intake twoVisitors oneMount).Execution h w ∧
    h.map Prod.snd = [.hear tfsOpCodeOpen] ∧ ¬ Safe w := by
  rcases System.execution_of_any (M := intake twoVisitors oneMount) (perform twoVisitors)
      (fun _ _ _ hstep => hstep) rfl performAll_staleOpen with ⟨h, w, he, hlabels, hreader⟩
  refine ⟨h, w, he, hlabels, ?_⟩
  intro hsafe
  rcases hsafe.inRange _ _ hreader with ⟨_, hhi⟩
  exact absurd hhi (by decide)

end Intake
end Sessions
end TecnicoFs
