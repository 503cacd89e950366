import Mathlib.Data.Fintype.Basic
import Mathlib.Data.Finset.Dedup
import Mathlib.Data.List.Basic

/-!
# Interleave — the merges of one list for each party

`Interleaving f l` says that `l` is made of the lists `f i`, each in its own order. It is stated
through a labelling of `l`: the part with label `i` is exactly `f i`.
-/

namespace TecnicoFs
namespace Lib

universe u v w

variable {ι : Type u} {α : Type v} {β : Type w} [DecidableEq ι]

/-- The part of a labelled list that has label `i`. -/
def labelled (i : ι) (tags : List (ι × α)) : List α :=
  (tags.filter fun p => p.1 = i).map Prod.snd

def Interleaving (f : ι → List α) (l : List α) : Prop :=
  ∃ tags : List (ι × α), tags.map Prod.snd = l ∧ ∀ i, labelled i tags = f i

@[simp] theorem labelled_nil (i : ι) : labelled i ([] : List (ι × α)) = [] :=
  rfl

theorem labelled_cons (i : ι) (p : ι × α) (tags : List (ι × α)) :
    labelled i (p :: tags) = if p.1 = i then p.2 :: labelled i tags else labelled i tags := by
  by_cases h : p.1 = i <;> simp [labelled, h]

@[simp] theorem labelled_append (i : ι) (s t : List (ι × α)) :
    labelled i (s ++ t) = labelled i s ++ labelled i t := by
  simp [labelled]

theorem labelled_map_mk (i j : ι) (l : List α) :
    labelled i (l.map (Prod.mk j)) = if j = i then l else [] := by
  induction l with
  | nil => simp
  | cons a l ih =>
      rw [List.map_cons, labelled_cons, ih]
      by_cases h : j = i <;> simp [h]

/-! ## Maps -/

/-- An interleaving of images is the image of an interleaving. -/
theorem Interleaving.of_map {f : ι → List α} {g : α → β} {l : List β}
    (h : Interleaving (fun i => (f i).map g) l) : ∃ l', Interleaving f l' ∧ l'.map g = l := by
  rcases h with ⟨tags, rfl, htags⟩
  induction tags generalizing f with
  | nil =>
      refine ⟨[], ⟨[], rfl, ?_⟩, rfl⟩
      intro i
      have hi := htags i
      simpa [eq_comm] using hi
  | cons p tags ih =>
      have hp := htags p.1
      rw [labelled_cons, if_pos rfl] at hp
      -- the first element comes from the head of its list; the induction runs on the others
      rcases List.map_eq_cons_iff.1 hp.symm with ⟨a, rest, hf, ha, hrest⟩
      have htail : ∀ i, labelled i tags = (Function.update f p.1 rest i).map g := by
        intro i
        by_cases hi : i = p.1
        · subst hi
          simp [hrest]
        · have hother := htags i
          rw [labelled_cons, if_neg (Ne.symm hi)] at hother
          simpa [Function.update_of_ne hi] using hother
      rcases ih htail with ⟨l', ⟨tags', rfl, htags'⟩, hl'⟩
      refine ⟨a :: tags'.map Prod.snd, ⟨(p.1, a) :: tags', rfl, ?_⟩, by simp [ha, hl']⟩
      intro i
      rw [labelled_cons, htags' i]
      by_cases hi : i = p.1
      · subst hi
        simp [hf]
      · rw [if_neg (Ne.symm hi), Function.update_of_ne hi]

theorem Interleaving.map {f : ι → List α} {l : List α} (h : Interleaving f l) (g : α → β) :
    Interleaving (fun i => (f i).map g) (l.map g) := by
  rcases h with ⟨tags, rfl, htags⟩
  refine ⟨tags.map (fun p => (p.1, g p.2)), by simp [Function.comp_def], ?_⟩
  intro i
  show _ = (f i).map g
  rw [← htags i]
  simp [labelled, List.filter_map, Function.comp_def]

/-! ## One party alone -/

/-- Where only `i` has something to contribute, the interleaving is its list. -/
theorem Interleaving.eq_of_alone {f : ι → List α} {l : List α} (h : Interleaving f l) {i : ι}
    (halone : ∀ j, j ≠ i → f j = []) : l = f i := by
  rcases h with ⟨tags, rfl, htags⟩
  have hall : ∀ p ∈ tags, p.1 = i := by
    intro p hp
    by_contra hne
    have hmem : p.2 ∈ labelled p.1 tags := by
      simpa [labelled] using hp
    rw [htags p.1, halone p.1 hne] at hmem
    simp at hmem
  have hfilter : tags.filter (fun p => p.1 = i) = tags := by
    rw [List.filter_eq_self]
    intro p hp
    simpa using hall p hp
  rw [← htags i, labelled, hfilter]

theorem interleaving_of_alone {f : ι → List α} {i : ι} (halone : ∀ j, j ≠ i → f j = []) :
    Interleaving f (f i) := by
  refine ⟨(f i).map (Prod.mk i), by simp [Function.comp_def], ?_⟩
  intro j
  rw [labelled_map_mk]
  by_cases hj : i = j
  · simp [hj]
  · rw [if_neg hj, halone j (Ne.symm hj)]

theorem Interleaving.mem {f : ι → List α} {l : List α} (h : Interleaving f l) {a : α}
    (ha : a ∈ l) : ∃ i, a ∈ f i := by
  rcases h with ⟨tags, rfl, htags⟩
  rcases List.mem_map.1 ha with ⟨p, hp, rfl⟩
  refine ⟨p.1, ?_⟩
  rw [← htags p.1]
  simpa [labelled] using hp

theorem Interleaving.length_le {f : ι → List α} {l : List α} (h : Interleaving f l) (i : ι) :
    (f i).length ≤ l.length := by
  rcases h with ⟨tags, rfl, htags⟩
  rw [← htags i]
  simpa [labelled] using List.length_filter_le _ tags

/-! ## Completion -/

theorem labelled_flatMap (rest : ι → List α) (i : ι) {parties : List ι} (h : parties.Nodup) :
    labelled i (parties.flatMap fun j => (rest j).map (Prod.mk j)) =
      if i ∈ parties then rest i else [] := by
  induction parties with
  | nil => simp
  | cons j parties ih =>
      rcases List.nodup_cons.1 h with ⟨hj, hnodup⟩
      rw [List.flatMap_cons, labelled_append, labelled_map_mk, ih hnodup]
      by_cases hi : j = i
      · subst hi
        simp [hj]
      · simp [hi, Ne.symm hi]

/-- What has been contributed so far can be completed by the rest of each list. -/
theorem exists_interleaving [Fintype ι] {f : ι → List α} (rest : ι → List α)
    {tags : List (ι × α)} (h : ∀ i, labelled i tags ++ rest i = f i) :
    ∃ l, Interleaving f (tags.map Prod.snd ++ l) := by
  let others := (Finset.univ : Finset ι).toList.flatMap fun j => (rest j).map (Prod.mk j)
  refine ⟨others.map Prod.snd, tags ++ others, by simp, ?_⟩
  intro i
  rw [labelled_append, labelled_flatMap rest i (Finset.nodup_toList _)]
  simpa using h i

end Lib
end TecnicoFs
