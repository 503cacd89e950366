import TecnicoFs.Server.Effects

/-!
# Server path law — a path identifies one file

`add_dir_entry` cuts a name to 39 bytes, and `find_in_dir` compares up to 40 bytes of the caller's whole name.
A name of at most 39 bytes is found again under its first entry for as long as the library runs; a
longer one is never found.
-/

namespace TecnicoFs
namespace Server

open Lib

/-! ## The law -/

/-- A run of calls on open handles leads from `t` to `u`. -/
def Later (t u : State) : Prop :=
  (library.toSystem t OnOpenHandle).Reachable u

/-- In state `u`, the path `p` stands for the file with i-node `i`. -/
structure PathLaw (p : CString) (i : ℕ) (u : State) : Prop where
  lookup : tfsLookupUnsynchronized (some p) u = i
  reopen : ∀ flags reply v, exec (.open (some p) flags) u = some (reply, v) → reply.ret ≠ -1 →
    ∃ h : ℕ, reply.ret = h ∧ (v.openFileTable h).ofInumber = i ∧ v.freeinodeTs = u.freeinodeTs
  unique : ∀ q, q ≠ some p → tfsLookupUnsynchronized q u ≠ i

/-! ## The first entry with a name -/

/-- The first used entry with the name `name` has the i-node number `i`. -/
def FirstNamed (s : State) (name : CString) (i : ℕ) : Prop :=
  ∃ k < 23, EntryUsed s.disk.fsData 0 k ∧ entryName s.disk.fsData 0 k = name ∧
    dInumber s.disk.fsData 0 k = i ∧
    ∀ j < k, EntryUsed s.disk.fsData 0 j → entryName s.disk.fsData 0 j ≠ name

/-- The used entries come before the empty ones. -/
def Packed (s : State) : Prop :=
  ∀ k < 23, EntryUsed s.disk.fsData 0 k → ∀ j < k, EntryUsed s.disk.fsData 0 j

section Entries

variable {s t : State} {a : Call} {reply : Reply} {p q : CString} {name : CString} {i k : ℕ}

/-- A lookup finds the first entry with the name. -/
theorem lookup_eq_iff (hs : Inv s) (hvalid : validPathname (some p) = true) :
    tfsLookupUnsynchronized (some p) s = i ↔ FirstNamed s p.tail i := by
  have hlookup : tfsLookupUnsynchronized (some p) s =
      (searchEntry s.disk.fsData 0 p.tail).elim (-1) (dInumber s.disk.fsData 0) := by
    rw [← findInDir_root hs]
    simp only [tfsLookupUnsynchronized, hvalid, if_true]
  rw [hlookup]
  rcases hsearch : searchEntry s.disk.fsData 0 p.tail with _ | k
  · have hmiss := (searchEntry_eq_none hs.terminated).1 hsearch
    constructor
    · intro hEq
      have hneg : (-1 : ℤ) = i := hEq
      omega
    · rintro ⟨k, hk, hused, hname, _⟩
      exact absurd hname (hmiss k hk hused)
  · rcases (searchEntry_eq_some hs.terminated).1 hsearch with ⟨hk, hused, hname, hfirst⟩
    constructor
    · intro hEq
      exact ⟨k, hk, hused, hname, hEq, hfirst⟩
    · rintro ⟨l, hl, husedL, hnameL, hnumL, hfirstL⟩
      -- there is only one first entry
      have hkl : k = l := by
        rcases Nat.lt_trichotomy k l with hlt | hEq | hlt
        · exact absurd hname (hfirstL k hlt hused)
        · exact hEq
        · exact absurd hnameL (hfirst l hlt husedL)
      subst hkl
      exact hnumL

/-- Two paths that `valid_pathname` accepts differ in their names. -/
theorem eq_of_tail_eq (hp : validPathname (some p) = true) (hq : validPathname (some q) = true)
    (h : q.tail = p.tail) : q = p := by
  have hslash : ∀ r : CString, validPathname (some r) = true → r.bytes = 0x2f :: r.tail.bytes := by
    intro r hr
    simp only [validPathname, Bool.and_eq_true, decide_eq_true_eq] at hr
    rcases r with ⟨_ | ⟨b, bytes⟩, hnul⟩
    · simp [CString.strlen] at hr
    · have hb : b = 0x2f := hr.2
      exact congrArg (· :: bytes) hb
  apply CString.ext_bytes
  rw [hslash p hp, hslash q hq, h]

/-- An entry holds at most 39 bytes of name. -/
theorem strlen_entryName_le (hs : Inv s) (hk : k < 23) (hused : EntryUsed s.disk.fsData 0 k) :
    (entryName s.disk.fsData 0 k).strlen ≤ 39 := by
  have hlt : (fieldBytes (dName s.disk.fsData 0 k) maxFileName).length < maxFileName :=
    length_fieldBytes_lt (k := 39) (by decide) (hs.terminated k hk hused)
  exact Nat.le_of_lt_succ hlt

/-- A call leaves the directory block as it was, or fills its first empty entry. -/
theorem Effect.directory (heffect : Effect s a reply t) (hs : Inv s) :
    SameBlock s.disk.fsData t.disk.fsData 0 ∨
    ∃ k i : ℕ, ∃ subName, k < 23 ∧ i < 50 ∧ ¬ EntryUsed s.disk.fsData 0 k ∧
      (∀ j < k, EntryUsed s.disk.fsData 0 j) ∧
      t.disk.fsData = fillEntry s.disk.fsData 0 k i subName := by
  cases heffect with
  | notOpened _ => exact Or.inl (SameBlock.refl _ _)
  | found _ _ _ =>
      left
      rw [addToOpenFileTable_disk, truncateIf_fsData]
      exact SameBlock.refl _ _
  | notCreated _ _ _ => exact Or.inl (SameBlock.refl _ _)
  | @created _ subName _ i k _ hi _ _ _ hk hunused hbefore =>
      right
      refine ⟨k, i, subName, hk, hi, hunused, hbefore, ?_⟩
      rw [addToOpenFileTable_disk]
      rfl
  | notClosed => exact Or.inl (SameBlock.refl _ _)
  | closed _ _ => exact Or.inl (SameBlock.refl _ _)
  | wroteNothing _ => exact Or.inl (SameBlock.refl _ _)
  | noBlock _ _ _ => exact Or.inl (SameBlock.refl _ _)
  | wrote _ _ _ hi _ _ _ _ hw => exact Or.inl (hw.sameRoot hs hi)
  | readNothing => exact Or.inl (SameBlock.refl _ _)
  | delivered _ _ _ _ _ _ _ => exact Or.inl (SameBlock.refl _ _)

theorem Effect.packed (heffect : Effect s a reply t) (hs : Inv s) (hpacked : Packed s) : Packed t := by
  intro k hk hused j hj
  rcases heffect.directory hs with hsame | ⟨l, i, subName, hl, hi, _, hbefore, hdata⟩
  · rw [hsame.entryUsed_iff (by omega)] at hused ⊢
    exact hpacked k hk hused j hj
  · rw [hdata, entryUsed_fillEntry (by omega) (by omega)] at hused ⊢
    rcases hused with rfl | hused
    · exact Or.inr (hbefore j hj)
    · exact Or.inr (hpacked k hk hused j hj)

/-- Later entries come after the first one with the name. -/
theorem Effect.firstNamed (heffect : Effect s a reply t) (hs : Inv s) (hpacked : Packed s)
    (hfirst : FirstNamed s name i) : FirstNamed t name i := by
  rcases hfirst with ⟨k, hk, hused, hname, hnum, hbefore⟩
  rcases heffect.directory hs with hsame | ⟨l, n, subName, hl, hn, hempty, _, hdata⟩
  · refine ⟨k, hk, (hsame.entryUsed_iff hk).2 hused, (hsame.entryName_eq hk).trans hname,
      (hsame.dInumber_eq hk).trans hnum, ?_⟩
    intro j hj husedJ
    rw [hsame.entryName_eq (by omega)]
    exact hbefore j hj ((hsame.entryUsed_iff (by omega)).1 husedJ)
  · -- the entries are packed, so a new one comes behind the first that has the name
    have hlater : k < l := by
      by_contra hge
      rcases Nat.lt_or_ge l k with hlt | hge'
      · exact hempty (hpacked k hk hused l hlt)
      · have hkl : k = l := by omega
        exact hempty (hkl ▸ hused)
    have hkept : ∀ j ≤ k, entryName t.disk.fsData 0 j = entryName s.disk.fsData 0 j ∧
        dInumber t.disk.fsData 0 j = dInumber s.disk.fsData 0 j := by
      intro j hj
      have hjl : j ≠ l := by omega
      rw [hdata]
      exact ⟨entryName_fillEntry_of_ne hjl, dInumber_fillEntry_of_ne hjl⟩
    have husedIff : ∀ j ≤ k, EntryUsed t.disk.fsData 0 j ↔ EntryUsed s.disk.fsData 0 j := by
      intro j hj
      rw [EntryUsed, EntryUsed, (hkept j hj).2]
    refine ⟨k, hk, (husedIff k le_rfl).2 hused, (hkept k le_rfl).1.trans hname,
      (hkept k le_rfl).2.trans hnum, ?_⟩
    intro j hj husedJ
    rw [(hkept j hj.le).1]
    exact hbefore j hj ((husedIff j hj.le).1 husedJ)

theorem packed_of_reachable (hr : properCalls.Reachable s) : Packed s := by
  have hboth : Inv s ∧ Packed s := by
    apply hr.invariant
    · intro s hinit
      rw [show s = tfsInit.2 from hinit]
      refine ⟨inv_tfsInit, ?_⟩
      intro k hk hused
      exact absurd hused (not_entryUsed_tfsInit k hk)
    · rintro s a t ⟨hs, hpacked⟩ ⟨hok, reply, hexec⟩
      exact ⟨hs.exec hok hexec, (hs.effect hok hexec).packed hs hpacked⟩
  exact hboth.2

end Entries

/-! ## From the entry to the law -/

section Law

variable {s t u : State} {p : CString} {flags : ℤ} {h i : ℕ}

/-- The handle that was added. -/
theorem openFileTable_addToOpenFileTable {inumber : ℤ} {offset : ℕ}
    (hadded : (addToOpenFileTable inumber offset s).1 = h) :
    ((addToOpenFileTable inumber offset s).2.openFileTable h) = ⟨inumber, offset⟩ := by
  rcases addToOpenFileTable_cases inumber offset s with ⟨g, _, _, _, hEq⟩ | ⟨_, hEq⟩
  · rw [hEq] at hadded ⊢
    have hgh : g = h := by
      have hcast : (g : ℤ) = h := hadded
      omega
    subst hgh
    simp [addedHandle]
  · rw [hEq] at hadded
    have hneg : (-1 : ℤ) = h := hadded
    omega

theorem addToOpenFileTable_ret (inumber : ℤ) (offset : ℕ) (s : State) :
    (addToOpenFileTable inumber offset s).1 = -1 ∨
      ∃ h : ℕ, (addToOpenFileTable inumber offset s).1 = h := by
  rcases addToOpenFileTable_cases inumber offset s with ⟨g, _, _, _, hEq⟩ | ⟨_, hEq⟩
  · exact Or.inr ⟨g, by rw [hEq]⟩
  · exact Or.inl (by rw [hEq])

theorem FirstNamed.pathLaw (hs : Inv s) (hvalid : validPathname (some p) = true)
    (hfirst : FirstNamed s p.tail i) : PathLaw p i s := by
  have hlookup : tfsLookupUnsynchronized (some p) s = i := (lookup_eq_iff hs hvalid).2 hfirst
  refine ⟨hlookup, ?_, ?_⟩
  · intro flags reply v hexec hret
    have heffect := hs.effect (a := .open (some p) flags) trivial hexec
    cases heffect with
    | notOpened _ => exact absurd rfl hret
    | @found _ _ j _ hfound _ =>
        have hji : j = i := by
          have hEq : (j : ℤ) = i := hfound.symm.trans hlookup
          omega
        subst hji
        rcases addToOpenFileTable_ret j (openOffset flags j s) (truncateIf flags j s) with hfull | ⟨h, hh⟩
        · exact absurd hfull hret
        · refine ⟨h, hh, ?_, by simp⟩
          rw [openFileTable_addToOpenFileTable hh]
    | notCreated hmiss _ _ =>
        have hneg : (-1 : ℤ) = i := hmiss.symm.trans hlookup
        omega
    | created hmiss _ _ _ _ _ _ _ =>
        have hneg : (-1 : ℤ) = i := hmiss.symm.trans hlookup
        omega
  · intro q hqp hq
    rcases hfirst with ⟨k, hk, hused, hname, hnum, _⟩
    rcases tfsLookup_cases hs q with ⟨r, rfl, hvalidR, l, hl, husedL, hnameL, j, hnumL, hlookupL⟩ | ⟨hmiss, _⟩
    · -- one i-node has one entry, and so one name
      have hnums : dInumber s.disk.fsData 0 l = dInumber s.disk.fsData 0 k := by
        rw [hnumL, hnum, ← hlookupL, hq]
      have hlk := hs.distinct l hl k hk husedL hused hnums
      subst hlk
      exact hqp (congrArg some (eq_of_tail_eq hvalid hvalidR (hnameL.symm.trans hname)))
    · rw [hmiss] at hq
      omega

/-- What `tfs_open` with `TFS_O_CREAT` leaves, if it returns a handle and the name fits. -/
theorem firstNamed_of_open (hs : Inv s) (hvalid : validPathname (some p) = true)
    (hlen : p.tail.strlen ≤ 39)
    (hopen : exec (.open (some p) flags) s = some (⟨h, []⟩, t))
    (hi : (t.openFileTable h).ofInumber = i) : FirstNamed t p.tail i := by
  have heffect := hs.effect (a := .open (some p) flags) trivial hopen
  generalize hreply : (⟨h, []⟩ : Reply) = reply at heffect
  cases heffect with
  | notOpened _ =>
      have hret : (h : ℤ) = -1 := congrArg Reply.ret hreply
      omega
  | @found _ _ j _ hfound _ =>
      -- the file was found: the lookup gives its first entry
      have hret := congrArg Reply.ret hreply
      rw [openFileTable_addToOpenFileTable hret.symm] at hi
      have hji : (j : ℤ) = i := hi
      rw [hji] at hfound
      rcases (lookup_eq_iff hs hvalid).1 hfound with ⟨k, hk, hrest⟩
      exact ⟨k, hk, by simpa using hrest⟩
  | notCreated _ _ _ =>
      have hret : (h : ℤ) = -1 := congrArg Reply.ret hreply
      omega
  | @created _ subName _ j k hmiss hj hfree hname _ hk hunused _ =>
      have hret := congrArg Reply.ret hreply
      rw [openFileTable_addToOpenFileTable hret.symm] at hi
      have hji : j = i := by
        have hEq : (j : ℤ) = i := hi
        omega
      subst hji
      -- the file was created: no entry had the name, which fits uncut
      have hsub : subName = p.tail := by
        have hne : p.strlen ≠ 0 := by
          intro hzero
          simp [afterSlash, hzero] at hname
        simpa [afterSlash, hne] using hname.symm
      subst hsub
      have hdata : (addToOpenFileTable j 0 (namedInode (createdInode s j) k j p.tail)).2.disk.fsData =
          fillEntry s.disk.fsData 0 k j p.tail := by
        rw [addToOpenFileTable_disk]
        rfl
      have hnone : ∀ l < 23, EntryUsed s.disk.fsData 0 l → entryName s.disk.fsData 0 l ≠ p.tail := by
        rcases tfsLookup_cases hs (some p) with ⟨_, _, _, _, _, _, _, n, _, hEq⟩ | ⟨_, hnone⟩
        · rw [hmiss] at hEq
          omega
        · exact hnone p rfl hvalid
      rw [FirstNamed, hdata]
      refine ⟨k, hk, (entryUsed_fillEntry (by omega) (by omega)).2 (Or.inl rfl),
        entryName_fillEntry_self.trans (cutName_of_le hlen),
        dInumber_fillEntry_self (by omega) (by omega), ?_⟩
      intro l hl husedL
      have hlk : l ≠ k := by omega
      rw [entryUsed_fillEntry (by omega) (by omega)] at husedL
      rw [entryName_fillEntry_of_ne hlk]
      exact hnone l (by omega) (husedL.resolve_left hlk)

/-- **Paths identify files**: once `tfs_open` has returned a handle, whatever its flags, the law holds in
every later state exactly when the name fits into a directory entry. -/
theorem path_law_iff (hr : properCalls.Reachable s) (hvalid : validPathname (some p) = true)
    (hopen : exec (.open (some p) flags) s = some (⟨h, []⟩, t))
    (hi : (t.openFileTable h).ofInumber = i) :
    (∀ u, Later t u → PathLaw p i u) ↔ p.tail.strlen ≤ maxFileName - 1 := by
  have hs := inv_of_reachable hr
  have hstep : properCalls.step s (.open (some p) flags) t := ⟨trivial, _, hopen⟩
  have hrt := hr.next hstep
  have ht := inv_of_reachable hrt
  constructor
  · intro hlaw
    -- a name in the directory is never longer than its field
    have hnow := (hlaw t ⟨[], .start rfl⟩).lookup
    rcases (lookup_eq_iff ht hvalid).1 hnow with ⟨k, hk, hused, hname, _⟩
    rw [← hname]
    exact strlen_entryName_le ht hk hused
  · intro hlen u hu
    have hall : Inv u ∧ Packed u ∧ FirstNamed u p.tail i := by
      apply hu.invariant
      · intro u hinit
        rw [show u = t from hinit]
        exact ⟨ht, packed_of_reachable hrt, firstNamed_of_open hs hvalid hlen hopen hi⟩
      · rintro u a v ⟨hinv, hpacked, hfirst⟩ ⟨hok, reply, hexec⟩
        have heffect := hinv.effect hok hexec
        exact ⟨hinv.exec hok hexec, heffect.packed hinv hpacked,
          heffect.firstNamed hinv hpacked hfirst⟩
    exact hall.2.2.pathLaw hall.1 hvalid

end Law

/-! ## Two names -/

/-- Opening `p` with `TFS_O_CREAT` gives handle 0 on i-node 1. -/
def CreatesFirst (p : CString) (s t : State) : Prop :=
  exec (.open (some p) tfsOCreat) s = some (⟨0, []⟩, t) ∧ (t.openFileTable 0).ofInumber = 1

theorem exec_open_slashA :
    ((exec (.open (some slashA) tfsOCreat) tfsInit.2).any fun x =>
      x.1 = ⟨0, []⟩ ∧ (x.2.openFileTable 0).ofInumber = 1) = true := by
  rw [tfsInit_eq]
  decide +kernel

theorem path_law_iff_slashA :
    ∃ t, CreatesFirst slashA tfsInit.2 t ∧ ∀ u, Later t u → PathLaw slashA 1 u := by
  rcases (Option.any_eq_true _ _).1 exec_open_slashA with ⟨⟨reply, t⟩, hexec, hP⟩
  have hP : reply = ⟨0, []⟩ ∧ (t.openFileTable 0).ofInumber = 1 := of_decide_eq_true hP
  rcases hP with ⟨rfl, hnum⟩
  have hvalid : validPathname (some slashA) = true := by decide
  have hlen : slashA.tail.strlen ≤ maxFileName - 1 := by decide
  exact ⟨t, ⟨hexec, hnum⟩, (path_law_iff ⟨[], .start rfl⟩ hvalid hexec hnum).2 hlen⟩

theorem noNul_longPath : ∀ b ∈ (0x2f :: List.replicate 40 0x61 : List Byte), b ≠ 0 := by
  simp

/-- The path of a slash and forty times `a`. -/
def longPath : CString :=
  ⟨0x2f :: List.replicate 40 0x61, noNul_longPath⟩

theorem exec_open_longPath :
    ((exec (.open (some longPath) tfsOCreat) tfsInit.2).any fun x =>
      (x.1 = ⟨0, []⟩ ∧ (x.2.openFileTable 0).ofInumber = 1) ∧
        tfsLookupUnsynchronized (some longPath) x.2 = -1 ∧
        ((exec (.open (some longPath) tfsOCreat) x.2).any fun y =>
          y.1 = ⟨1, []⟩ ∧ (y.2.openFileTable 1).ofInumber = 2) = true) = true := by
  rw [tfsInit_eq]
  decide +kernel

/-- The file just created is not found, and opening its path again creates another one. -/
theorem longPath_breaks_law : validPathname (some longPath) = true ∧
    ∃ t, CreatesFirst longPath tfsInit.2 t ∧ ¬ (∀ u, Later t u → PathLaw longPath 1 u) ∧
      ∃ u, exec (.open (some longPath) tfsOCreat) t = some (⟨1, []⟩, u) ∧
        (u.openFileTable 1).ofInumber = 2 := by
  rcases (Option.any_eq_true _ _).1 exec_open_longPath with ⟨⟨reply, t⟩, hexec, hP⟩
  have hP := of_decide_eq_true hP
  rcases hP with ⟨⟨hreply, hnum⟩, hlookup, hagain⟩
  have hreply : reply = ⟨0, []⟩ := hreply
  subst hreply
  rcases (Option.any_eq_true _ _).1 hagain with ⟨⟨reply, u⟩, hexec₂, hQ⟩
  have hQ : reply = ⟨1, []⟩ ∧ (u.openFileTable 1).ofInumber = 2 := of_decide_eq_true hQ
  rcases hQ with ⟨rfl, hnum₂⟩
  refine ⟨by decide, t, ⟨hexec, hnum⟩, ?_, u, hexec₂, hnum₂⟩
  intro hlaw
  have hfound := (hlaw t ⟨[], .start rfl⟩).lookup
  have hmiss : tfsLookupUnsynchronized (some longPath) t = -1 := hlookup
  rw [hmiss] at hfound
  cases hfound

end Server
end TecnicoFs
