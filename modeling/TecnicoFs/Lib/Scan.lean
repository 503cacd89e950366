import TecnicoFs.Lib.Transition
import Mathlib.Data.Set.Insert

/-!
# Scan — taking the first free entry, one entry at a time

Any number of parties share a table of `n` entries. A party that wants one looks at the entries in order
and takes the first that it finds free; each look is one step, and between two looks others take and release
entries. Two laws of such tables:

* an entry that was taken is taken again only after a release (`Scan.release_between`);
* a party that finds every entry taken has met a full table, if no entry is released behind a scan that has
  met none (`Scan.metFull_of_ahead`).
-/

namespace TecnicoFs
namespace Lib

universe u

/-- The entries that are taken, and the entry that each scan looks at next. -/
structure Board (ι : Type u) where
  taken : Set ℕ
  position : ι → Option ℕ

namespace Scan

variable {ι : Type u} [DecidableEq ι]

inductive Label (ι : Type u)
  | start (i : ι)
  | pass (i : ι)
  | take (i : ι) (k : ℕ)
  | giveUp (i : ι)
  | release (k : ℕ)
  | other

/-- The party `i` goes on at position `p`; `none` is outside of a scan. -/
def goto (b : Board ι) (i : ι) (p : Option ℕ) : Board ι :=
  { b with position := Function.update b.position i p }

/-- One step on a table of `n` entries. -/
inductive Step (n : ℕ) : Board ι → Label ι → Board ι → Prop
  | start {b : Board ι} {i : ι} : b.position i = none → Step n b (.start i) (goto b i (some 0))
  | pass {b : Board ι} {i : ι} {k : ℕ} :
      b.position i = some k → k < n → k ∈ b.taken → Step n b (.pass i) (goto b i (some (k + 1)))
  | take {b : Board ι} {i : ι} {k : ℕ} :
      b.position i = some k → k < n → k ∉ b.taken →
      Step n b (.take i k) { goto b i none with taken := insert k b.taken }
  | giveUp {b : Board ι} {i : ι} {k : ℕ} :
      b.position i = some k → n ≤ k → Step n b (.giveUp i) (goto b i none)
  | release {b : Board ι} {k : ℕ} : Step n b (.release k) { b with taken := b.taken \ {k} }
  | other {b : Board ι} : Step n b .other b

/-- The table, where at first nobody scans. -/
def scanners (n : ℕ) : System (Board ι) (Label ι) where
  init b := ∀ i, b.position i = none
  step := Step n

def Full (n : ℕ) (b : Board ι) : Prop :=
  ∀ k < n, k ∈ b.taken

/-- The table is full, or was at some moment since the scan of `i` began. -/
def FullSince (n : ℕ) (i : ι) : List (Board ι × Label ι) → Board ι → Prop
  | [], b => Full n b
  | (c, _) :: h, b => Full n b ∨ (c.position i ≠ none ∧ FullSince n i h c)

/-- A release behind a scan: the scan has met a full table. -/
def Ahead (n : ℕ) (h : List (Board ι × Label ι)) (b : Board ι) : Label ι → Prop
  | .release k => ∀ i p, b.position i = some p → k < p → FullSince n i h b
  | _ => True

/-- A scan that gives up has met a full table. -/
def MetFull (n : ℕ) (h : List (Board ι × Label ι)) (b : Board ι) : Label ι → Prop
  | .giveUp i => FullSince n i h b
  | _ => True

section Laws

variable {n : ℕ} {b c d : Board ι} {i : ι} {k : ℕ} {a : Label ι} {h h₁ h₂ h₃ : List (Board ι × Label ι)}

omit [DecidableEq ι] in
theorem FullSince.of_full (hfull : Full n b) : FullSince n i h b := by
  cases h with
  | nil => exact hfull
  | cons p h => exact Or.inl hfull

/-- An entry stays taken until it is released. -/
theorem Step.mem_taken (hstep : Step n b a c) (ha : a ≠ .release k) (hk : k ∈ b.taken) : k ∈ c.taken := by
  cases hstep with
  | start _ => exact hk
  | pass _ _ _ => exact hk
  | take _ _ _ => exact Or.inr hk
  | giveUp _ _ => exact hk
  | @release j =>
      refine ⟨hk, ?_⟩
      rintro rfl
      exact ha rfl
  | other => exact hk

/-- Between two steps that take the same entry there is one that releases it. -/
theorem release_between {i j : ι}
    (he : (scanners n).Execution (h₁ ++ (c, .take j k) :: (h₂ ++ (b, .take i k) :: h₃)) d) :
    ∃ p ∈ h₂, p.2 = .release k := by
  by_contra hnone
  rcases he.split with ⟨hbefore, e, hsecond⟩
  -- the entry is taken by the first step and stays so
  have htaken : k ∈ c.taken := by
    refine hbefore.since (P := fun b => k ∈ b.taken) ?_ ?_
    · intro u hfirst
      cases hfirst with
      | take _ _ _ => exact Set.mem_insert k _
    · intro p hp u hstep hk
      exact Step.mem_taken hstep (fun ha => hnone ⟨p, hp, ha⟩) hk
  cases hsecond with
  | take _ _ hfree => exact hfree htaken

/-- What each scan has behind it: a full table at some moment, or entries that are all taken. -/
def Behind (n : ℕ) (h : List (Board ι × Label ι)) (b : Board ι) : Prop :=
  ∀ i p, b.position i = some p → FullSince n i h b ∨ ∀ k < p, k ∈ b.taken

omit [DecidableEq ι] in
/-- A scan that was under way goes on behind the entries that it had behind it. -/
theorem Behind.carry (hb : Behind n h b) {p : ℕ} (hpos : b.position i = some p)
    (hkept : (∀ k < p, k ∈ b.taken) → FullSince n i h b ∨ ∀ k < p, k ∈ c.taken) :
    FullSince n i ((b, a) :: h) c ∨ ∀ k < p, k ∈ c.taken := by
  have hscans : b.position i ≠ none := by
    rw [hpos]
    exact Option.some_ne_none p
  rcases hb i p hpos with hfull | htaken
  · exact Or.inl (Or.inr ⟨hscans, hfull⟩)
  · exact (hkept htaken).imp (fun hfull => Or.inr ⟨hscans, hfull⟩) id

theorem Behind.step (hb : Behind n h b) (ha : Ahead n h b a) (hstep : Step n b a c) :
    Behind n ((b, a) :: h) c := by
  -- the scans of the others, where nothing is released
  have hother : ∀ {j p}, b.position j = some p → (∀ k ∈ b.taken, k ∈ c.taken) →
      FullSince n j ((b, a) :: h) c ∨ ∀ k < p, k ∈ c.taken :=
    fun hpos hmono => hb.carry hpos fun htaken => Or.inr fun k hk => hmono k (htaken k hk)
  intro j p hpos
  cases hstep with
  | @start i hidle =>
      by_cases hj : j = i
      · simp only [hj, goto, Function.update_self, Option.some.injEq] at hpos
        subst hpos
        exact Or.inr fun k hk => absurd hk (Nat.not_lt_zero k)
      · simp only [goto, Function.update_of_ne hj] at hpos
        exact hother hpos fun _ hk => hk
  | @pass i k hscan hlt htaken =>
      by_cases hj : j = i
      · simp only [hj, goto, Function.update_self, Option.some.injEq] at hpos
        subst hpos
        subst hj
        have hscans : b.position j ≠ none := by
          rw [hscan]
          exact Option.some_ne_none k
        rcases hb j k hscan with hfull | hbehind
        · exact Or.inl (Or.inr ⟨hscans, hfull⟩)
        · right
          intro l hl
          rcases Nat.lt_succ_iff_lt_or_eq.1 hl with hlk | rfl
          · exact hbehind l hlk
          · exact htaken
      · simp only [goto, Function.update_of_ne hj] at hpos
        exact hother hpos fun _ hk => hk
  | @take i k hscan hlt hfree =>
      by_cases hj : j = i
      · simp [hj, goto] at hpos
      · simp only [goto, Function.update_of_ne hj] at hpos
        exact hother hpos fun _ hk => Or.inr hk
  | @giveUp i k hscan hend =>
      by_cases hj : j = i
      · simp [hj, goto] at hpos
      · simp only [goto, Function.update_of_ne hj] at hpos
        exact hother hpos fun _ hk => hk
  | @release k =>
      refine hb.carry hpos fun htaken => ?_
      by_cases hk : k < p
      · exact Or.inl (ha j p hpos hk)
      · right
        intro l hl
        refine ⟨htaken l hl, ?_⟩
        rintro rfl
        exact hk hl
  | other => exact hother hpos fun _ hk => hk

/-- If no entry is released behind a scan that has not met a full table, then every scan that gives up has
met one. -/
theorem metFull_of_ahead (he : (scanners n).Execution h b) (hC : System.EachStepAfter (Ahead n) h) :
    System.EachStepAfter (MetFull n) h := by
  have hboth : Behind n h b ∧ System.EachStepAfter (MetFull n) h := by
    refine he.of_eachStepAfter (I := fun h b => Behind n h b ∧ System.EachStepAfter (MetFull n) h)
      (C := Ahead n) ?_ ?_ hC
    · intro b hidle
      refine ⟨?_, trivial⟩
      intro i p hpos
      rw [hidle i] at hpos
      cases hpos
    · rintro h b a c ⟨hbehind, hmet⟩ ha hstep
      refine ⟨hbehind.step ha hstep, ?_, hmet⟩
      cases hstep with
      | giveUp hscan hend =>
          exact (hbehind _ _ hscan).elim id fun htaken =>
            FullSince.of_full fun k hk => htaken k (hk.trans_le hend)
      | start _ => trivial
      | pass _ _ _ => trivial
      | take _ _ _ => trivial
      | release => trivial
      | other => trivial
  exact hboth.2

end Laws

end Scan

end Lib
end TecnicoFs
