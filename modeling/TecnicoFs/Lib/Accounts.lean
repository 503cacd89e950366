import Mathlib.Algebra.BigOperators.Group.Finset.Basic
import Mathlib.Data.List.FinRange
import Mathlib.Data.Finmap

/-!
# Accounts — what the entries of a finite map cost, and rows of optional entries

`total cost f` adds up the costs of the values of a finite map; an insertion changes it by the cost of
the new value less that of the old one.  `lowestFree` is the first empty place of a row, and `entryOf` the
entry with a given number.
-/

namespace TecnicoFs
namespace Lib

universe u v

/-! ## Sums over a finite map -/

section Totals

variable {α : Type u} {β : Type v} [DecidableEq α] {cost : β → ℕ} {f : Finmap fun _ : α => β}
variable {a : α} {b c : β}

/-- The cost of all values of a map. -/
def total (cost : β → ℕ) (f : Finmap fun _ : α => β) : ℕ :=
  ∑ a ∈ f.keys, (f.lookup a).elim 0 cost

theorem keys_insert (f : Finmap fun _ : α => β) (a : α) (b : β) :
    (f.insert a b).keys = insert a f.keys := by
  ext x
  simp [Finmap.mem_keys, Finmap.mem_insert]

theorem insert_of_lookup (h : f.lookup a = some b) : f.insert a b = f := by
  apply Finmap.ext_lookup
  intro x
  by_cases hx : x = a
  · subst hx
    rw [Finmap.lookup_insert, h]
  · rw [Finmap.lookup_insert_of_ne _ hx]

@[simp] theorem total_empty (cost : β → ℕ) : total cost (∅ : Finmap fun _ : α => β) = 0 := by
  simp [total]

/-- What the map costs apart from `a`. -/
def totalExcept (cost : β → ℕ) (f : Finmap fun _ : α => β) (a : α) : ℕ :=
  ∑ x ∈ f.keys.erase a, (f.lookup x).elim 0 cost

theorem total_of_lookup (h : f.lookup a = some b) : total cost f = totalExcept cost f a + cost b := by
  have hmem : a ∈ f.keys := Finmap.mem_keys.2 (Finmap.mem_of_lookup_eq_some h)
  have hsum := Finset.sum_erase_add f.keys (fun x => (f.lookup x).elim 0 cost) hmem
  rw [h] at hsum
  exact hsum.symm

theorem total_of_lookup_none (h : f.lookup a = none) : total cost f = totalExcept cost f a := by
  have hmem : a ∉ f.keys := by
    rw [Finmap.mem_keys, ← Finmap.lookup_eq_none]
    exact h
  rw [total, totalExcept, Finset.erase_eq_of_notMem hmem]

theorem totalExcept_insert (f : Finmap fun _ : α => β) (a : α) (b : β) :
    totalExcept cost (f.insert a b) a = totalExcept cost f a := by
  unfold totalExcept
  rw [keys_insert, Finset.erase_insert_eq_erase]
  apply Finset.sum_congr rfl
  intro x hx
  rw [Finmap.lookup_insert_of_ne _ (Finset.ne_of_mem_erase hx)]

theorem total_insert (f : Finmap fun _ : α => β) (a : α) (b : β) :
    total cost (f.insert a b) = totalExcept cost f a + cost b := by
  rw [total_of_lookup (Finmap.lookup_insert f), totalExcept_insert]

/-- A value that takes the place of one that costs at least as much. -/
theorem total_insert_le (h : f.lookup a = some b) (hc : cost c ≤ cost b) :
    total cost (f.insert a c) ≤ total cost f := by
  rw [total_insert, total_of_lookup h]
  omega

end Totals

/-! ## Rows of optional entries -/

section Rows

variable {α : Type u} {n : ℕ}

/-- The first empty place of a row. -/
def lowestFree (row : Fin n → Option α) : Option (Fin n) :=
  (List.finRange n).find? fun h => (row h).isNone

/-- The entry with number `z`, if there is one. -/
def entryOf (row : Fin n → Option α) (z : ℤ) : Option (Fin n × α) :=
  if h : 0 ≤ z ∧ z.toNat < n then
    (row ⟨z.toNat, h.2⟩).map fun x => (⟨z.toNat, h.2⟩, x)
  else
    none

variable {row : Fin n → Option α}

theorem lowestFree_of_free {h : Fin n} (hfree : row h = none) (hbefore : ∀ g < h, row g ≠ none) :
    lowestFree row = some h := by
  unfold lowestFree
  rw [List.find?_eq_some_iff_getElem]
  refine ⟨by simp [hfree], h, by simp, by simp, ?_⟩
  intro j hj
  have hlt : (⟨j, by omega⟩ : Fin n) < h := hj
  simpa [Option.isSome_iff_ne_none] using hbefore _ hlt

theorem lowestFree_of_full (hfull : ∀ g, row g ≠ none) : lowestFree row = none := by
  unfold lowestFree
  rw [List.find?_eq_none]
  intro g _ hnone
  exact hfull g (by simpa using hnone)

end Rows

end Lib
end TecnicoFs
