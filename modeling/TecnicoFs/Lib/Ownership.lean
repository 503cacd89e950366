import Mathlib.Logic.Function.Basic
import Mathlib.Logic.ExistsUnique

/-!
# Ownership — resources handed out to the slots that refer to them

`refers i b` says that the slot `i` refers to the resource `b`, and `taken b` that `b` is marked as handed
out.  `Exclusive refers taken` is the law of an allocator: a resource is marked exactly when one slot, and
no second one, refers to it.  Allocation and release are described by what they do to each slot, so that
a model with several kinds of slots can apply the two rules without building a map.
-/

namespace TecnicoFs
namespace Lib

universe u v

variable {ι : Type u} {β : Type v}

/-- The marked resources are the ones some slot refers to, and no two slots share one. -/
structure Exclusive (refers : ι → β → Prop) (taken : β → Prop) : Prop where
  taken_iff : ∀ b, taken b ↔ ∃ i, refers i b
  unique : ∀ i j b, refers i b → refers j b → i = j

namespace Exclusive

variable {refers refers' : ι → β → Prop} {taken taken' : β → Prop} {i : ι} {b : β}

/-- A resource is marked iff exactly one slot refers to it. -/
theorem taken_iff_existsUnique (h : Exclusive refers taken) (b : β) :
    taken b ↔ ∃! i, refers i b := by
  rw [h.taken_iff]
  constructor
  · rintro ⟨i, hi⟩
    exact ⟨i, hi, fun j hj => h.unique j i b hj hi⟩
  · rintro ⟨i, hi, _⟩
    exact ⟨i, hi⟩

theorem taken_of_refers (h : Exclusive refers taken) (hi : refers i b) : taken b :=
  (h.taken_iff b).2 ⟨i, hi⟩

theorem not_refers (h : Exclusive refers taken) (hb : ¬ taken b) (j : ι) : ¬ refers j b :=
  fun hj => hb (h.taken_of_refers hj)

/-- Handing the unmarked resource `b` to a slot `i` that refers to nothing else afterwards. -/
theorem alloc (h : Exclusive refers taken) (hb : ¬ taken b)
    (hrefers : ∀ j c, refers' j c ↔ (j = i ∧ c = b) ∨ refers j c)
    (htaken : ∀ c, taken' c ↔ c = b ∨ taken c) : Exclusive refers' taken' := by
  constructor
  · intro c
    rw [htaken, h.taken_iff]
    constructor
    · rintro (rfl | ⟨j, hj⟩)
      · exact ⟨i, (hrefers i c).2 (Or.inl ⟨rfl, rfl⟩)⟩
      · exact ⟨j, (hrefers j c).2 (Or.inr hj)⟩
    · rintro ⟨j, hj⟩
      rcases (hrefers j c).1 hj with ⟨_, hc⟩ | hj
      · exact Or.inl hc
      · exact Or.inr ⟨j, hj⟩
  · intro j k c hj hk
    rcases (hrefers j c).1 hj with ⟨rfl, rfl⟩ | hj
    · rcases (hrefers k c).1 hk with ⟨rfl, _⟩ | hk
      · rfl
      · exact absurd hk (h.not_refers hb k)
    · rcases (hrefers k c).1 hk with ⟨rfl, rfl⟩ | hk
      · exact absurd hj (h.not_refers hb j)
      · exact h.unique j k c hj hk

/-- Emptying the slots that satisfy `R`, and unmarking exactly their resources. -/
theorem release (h : Exclusive refers taken) (R : ι → Prop)
    (hrefers : ∀ j c, refers' j c ↔ ¬ R j ∧ refers j c)
    (htaken : ∀ c, taken' c ↔ taken c ∧ ∀ j, R j → ¬ refers j c) :
    Exclusive refers' taken' := by
  constructor
  · intro c
    rw [htaken, h.taken_iff]
    constructor
    · rintro ⟨⟨j, hj⟩, hfree⟩
      exact ⟨j, (hrefers j c).2 ⟨fun hRj => hfree j hRj hj, hj⟩⟩
    · rintro ⟨j, hj⟩
      rcases (hrefers j c).1 hj with ⟨hRj, hj⟩
      refine ⟨⟨j, hj⟩, ?_⟩
      intro k hRk hk
      have hEq := h.unique j k c hj hk
      subst hEq
      exact hRj hRk
  · intro j k c hj hk
    exact h.unique j k c ((hrefers j c).1 hj).2 ((hrefers k c).1 hk).2

theorem congr (h : Exclusive refers taken) (hrefers : ∀ j c, refers' j c ↔ refers j c)
    (htaken : ∀ c, taken' c ↔ taken c) : Exclusive refers' taken' :=
  h.release (fun _ => False) (by simp [hrefers]) (by simp [htaken])

end Exclusive

end Lib
end TecnicoFs
