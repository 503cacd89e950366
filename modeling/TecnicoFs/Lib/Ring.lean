import Mathlib.Data.List.Basic
import Mathlib.Logic.Function.Basic
import Mathlib.Order.Interval.Finset.Nat

/-!
# Ring — a queue in a ring of slots

The elements of a list go into `n` slots in turn, element `i` into slot `i % n`, and leave them in the same
order. A producer and a consumer that each count on their own, with a counter that wraps at `n`, agree on
the slots as long as the elements in them are at most `n`.
-/

namespace TecnicoFs
namespace Lib
namespace Ring

universe u

variable {α : Type u} {n a i k : ℕ} {slot : ℕ → Option α} {xs : List α} {x : α}

/-- The slots hold the elements of `xs` from number `a` on, and nothing else. -/
structure Holds (n : ℕ) (slot : ℕ → Option α) (xs : List α) (a : ℕ) : Prop where
  le : a ≤ xs.length
  fits : xs.length ≤ a + n
  full : ∀ i, a ≤ i → i < xs.length → slot (i % n) = xs[i]?
  empty : ∀ k < n, (∀ i, a ≤ i → i < xs.length → i % n ≠ k) → slot k = none

/-- Less than a turn apart, two elements have two slots. -/
theorem eq_of_mod_eq {j : ℕ} (hi : a ≤ i ∧ i < a + n) (hj : a ≤ j ∧ j < a + n) (h : i % n = j % n) :
    i = j := by
  refine Nat.mod_injOn_Ico a n ?_ ?_ h
  · simpa using hi
  · simpa using hj

/-- A counter that wraps goes through the slots in the order of the elements. -/
theorem wrap_eq_mod (hn : 0 < n) : (if i % n + 1 ≥ n then 0 else i % n + 1) = (i + 1) % n := by
  have hlt := Nat.mod_lt i hn
  rcases Nat.lt_or_ge 1 n with hmany | hone
  · rw [Nat.add_mod_eq_ite, Nat.mod_eq_of_lt hmany]
    split_ifs <;> omega
  · -- a single slot
    have hsingle : n = 1 := by omega
    rw [hsingle, Nat.mod_one, Nat.mod_one]
    rfl

theorem holds_nil (h : ∀ k < n, slot k = none) : Holds n slot [] 0 := by
  refine ⟨Nat.le_refl 0, Nat.zero_le _, ?_, fun k hk _ => h k hk⟩
  intro i _ hi
  cases hi

namespace Holds

/-- The slot of the next element is empty, unless the ring is full. -/
theorem next_empty (h : Holds n slot xs a) (hroom : xs.length < a + n) : slot (xs.length % n) = none := by
  have hle := h.le
  refine h.empty _ (Nat.mod_lt _ (by omega)) ?_
  intro i hai hi hmod
  have hsame : i = xs.length := eq_of_mod_eq (a := a) ⟨hai, by omega⟩ ⟨hle, hroom⟩ hmod
  omega

theorem push (h : Holds n slot xs a) (hroom : xs.length < a + n) :
    Holds n (Function.update slot (xs.length % n) (some x)) (xs ++ [x]) a := by
  have hle := h.le
  refine ⟨by simp; omega, by simp; omega, ?_, ?_⟩
  · intro i hai hi
    by_cases hold : i < xs.length
    · -- an element that was there is in another slot
      have hne : i % n ≠ xs.length % n := by
        intro hmod
        have hsame : i = xs.length := eq_of_mod_eq (a := a) ⟨hai, by omega⟩ ⟨hle, hroom⟩ hmod
        omega
      rw [Function.update_of_ne hne, h.full i hai hold, List.getElem?_append_left hold]
    · have hlast : i = xs.length := by
        simp only [List.length_append, List.length_singleton] at hi
        omega
      rw [hlast, Function.update_self, List.getElem?_concat_length]
  · intro k hk hnone
    have hne : k ≠ xs.length % n := by
      rintro rfl
      exact hnone xs.length hle (by simp) rfl
    rw [Function.update_of_ne hne]
    exact h.empty k hk fun i hai hi => hnone i hai (by simp; omega)

/-- The consumer's slot is empty only where nothing is left. -/
theorem first_eq_none_iff (h : Holds n slot xs a) (hn : 0 < n) :
    slot (a % n) = none ↔ a = xs.length := by
  constructor
  · intro hnone
    by_contra hne
    have hlt : a < xs.length := Nat.lt_of_le_of_ne h.le hne
    rw [h.full a (Nat.le_refl a) hlt, List.getElem?_eq_getElem hlt] at hnone
    cases hnone
  · intro hlast
    refine h.empty _ (Nat.mod_lt a hn) ?_
    intro i hai hi
    omega

theorem pop (h : Holds n slot xs a) (hsome : a < xs.length) :
    Holds n (Function.update slot (a % n) none) xs (a + 1) := by
  have hfits := h.fits
  refine ⟨hsome, by omega, ?_, ?_⟩
  · intro i hai hi
    have hne : i % n ≠ a % n := by
      intro hmod
      have hsame : i = a := eq_of_mod_eq (a := a) ⟨by omega, by omega⟩ ⟨Nat.le_refl a, by omega⟩ hmod
      omega
    rw [Function.update_of_ne hne]
    exact h.full i (by omega) hi
  · intro k hk hnone
    by_cases hfirst : k = a % n
    · rw [hfirst, Function.update_self]
    · rw [Function.update_of_ne hfirst]
      refine h.empty k hk ?_
      intro i hai hi hmod
      rcases Nat.eq_or_lt_of_le hai with rfl | hlt
      · exact hfirst hmod.symm
      · exact hnone i hlt hi hmod

/-- What is in a slot is an element that has not left. -/
theorem number_of_some (h : Holds n slot xs a) (hk : k < n) (hsome : slot k = some x) :
    ∃ i, a ≤ i ∧ i < xs.length ∧ i % n = k ∧ xs[i]? = some x := by
  by_contra hnone
  have hempty : slot k = none := by
    refine h.empty k hk ?_
    intro i hai hi hmod
    refine hnone ⟨i, hai, hi, hmod, ?_⟩
    rw [← h.full i hai hi, hmod, hsome]
  rw [hempty] at hsome
  cases hsome

end Holds

end Ring
end Lib
end TecnicoFs
