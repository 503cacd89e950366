import TecnicoFs.Lib.Bytes

/-!
# Reads — programs that ask for bytes

A program that reads its input field by field, cut at every request for bytes: `Reads α` has its result,
or wants `n` more bytes and goes on with them. The bytes of one field can arrive in several parts:

* `Reads.deliver` — one part is put behind what the buffer of the field holds;
* `Reads.Takes` — the program takes these bytes, all of them, and gives this result.
-/

namespace TecnicoFs
namespace Lib

universe u v

/-- A program that reads: it has its result, or wants the next `n` bytes. -/
inductive Reads (α : Type u)
  | done (x : α)
  | want (n : ℕ) (next : List Byte → Reads α)

namespace Reads

variable {α : Type u} {β : Type v}

/-- Read `n` bytes. -/
def bytes (n : ℕ) : Reads (List Byte) :=
  want n done

/-- Go on with the result. -/
def andThen : Reads α → (α → Reads β) → Reads β
  | done x, f => f x
  | want n next, f => want n fun buffer => (next buffer).andThen f

/-- A request for no bytes is answered at once. -/
def settle : Reads α → Reads α
  | done x => done x
  | want 0 next => (next []).settle
  | want (n + 1) next => want (n + 1) next

/-- How many bytes are missing in the buffer of the field. -/
def missing : Reads α → List Byte → ℕ
  | done _, _ => 0
  | want n _, buffer => n - buffer.length

/-- More bytes for the field: with the last of them the program goes on, with an empty buffer. -/
def deliver : Reads α → List Byte → List Byte → Reads α × List Byte
  | done x, _, _ => (done x, [])
  | want n next, buffer, got =>
      if (buffer ++ got).length < n then (want n next, buffer ++ got)
      else ((next (buffer ++ got)).settle, [])

/-- The program waits for bytes: its field is not complete. -/
def Waits : Reads α → List Byte → Prop
  | done _, _ => False
  | want n _, buffer => buffer.length < n

theorem deliver_of_lt {n : ℕ} {next : List Byte → Reads α} {buffer got : List Byte}
    (h : (buffer ++ got).length < n) : (want n next).deliver buffer got = (want n next, buffer ++ got) :=
  if_pos h

theorem deliver_of_le {n : ℕ} {next : List Byte → Reads α} {buffer got : List Byte}
    (h : n ≤ (buffer ++ got).length) :
    (want n next).deliver buffer got = ((next (buffer ++ got)).settle, []) :=
  if_neg (Nat.not_lt.2 h)

/-! ## The bytes a program takes -/

/-- The program takes these bytes, field by field, and gives `x`. -/
inductive Takes : Reads α → List Byte → α → Prop
  | done (x : α) : Takes (done x) [] x
  | want {n : ℕ} {next : List Byte → Reads α} {field rest : List Byte} {x : α} :
      field.length = n → Takes (next field) rest x → Takes (want n next) (field ++ rest) x

theorem takes_bytes {n : ℕ} {field : List Byte} (h : field.length = n) : Takes (bytes n) field field := by
  have hall : Takes (bytes n) (field ++ []) field := .want h (.done field)
  simpa using hall

theorem Takes.andThen {p : Reads α} {front rest : List Byte} {x : α} {f : α → Reads β} {y : β}
    (hp : Takes p front x) (hf : Takes (f x) rest y) : Takes (p.andThen f) (front ++ rest) y := by
  induction hp with
  | done x => exact hf
  | want hlen _ ih =>
      rw [List.append_assoc]
      exact .want hlen (ih hf)

theorem Takes.andThen_done {p : Reads α} {front : List Byte} {x : α} (hp : Takes p front x) (f : α → β) :
    Takes (p.andThen fun x => .done (f x)) front (f x) := by
  have hall : Takes (p.andThen fun x => .done (f x)) (front ++ []) (f x) := hp.andThen (.done (f x))
  simpa using hall

theorem takes_done_iff {x y : α} {input : List Byte} : Takes (done x) input y ↔ input = [] ∧ y = x := by
  constructor
  · intro h
    cases h
    exact ⟨rfl, rfl⟩
  · rintro ⟨rfl, rfl⟩
    exact .done y

/-- The first field is what stands at the front of the input. -/
theorem takes_want_iff {n : ℕ} {next : List Byte → Reads α} {input : List Byte} {x : α} :
    Takes (want n next) input x ↔ n ≤ input.length ∧ Takes (next (input.take n)) (input.drop n) x := by
  constructor
  · intro h
    cases h with
    | @want _ _ field rest _ hlen hnext =>
        subst hlen
        simpa using hnext
  · rintro ⟨hle, hnext⟩
    have hall : Takes (want n next) (input.take n ++ input.drop n) x := .want (by simp [hle]) hnext
    rwa [List.take_append_drop] at hall

theorem takes_settle_iff {p : Reads α} {input : List Byte} {x : α} :
    Takes p.settle input x ↔ Takes p input x := by
  induction p with
  | done y => exact Iff.rfl
  | want n next ih =>
      cases n with
      | zero =>
          rw [settle, ih, takes_want_iff]
          simp
      | succ n => exact Iff.rfl

/-- A program that is settled has its result, or waits for its first byte. -/
theorem settle_cases (p : Reads α) : (∃ x, p.settle = done x) ∨ p.settle.Waits [] := by
  induction p with
  | done x => exact Or.inl ⟨x, rfl⟩
  | want n next ih =>
      cases n with
      | zero => exact ih []
      | succ n => exact Or.inr (Nat.succ_pos n)

/-- Some of the bytes that are missing arrive, and the program takes the others. -/
theorem Takes.deliver {p : Reads α} {buffer got rest : List Byte} {x : α}
    (h : Takes p (buffer ++ (got ++ rest)) x) (hwaits : p.Waits buffer)
    (hgot : got.length ≤ p.missing buffer) :
    Takes (p.deliver buffer got).1 ((p.deliver buffer got).2 ++ rest) x := by
  cases p with
  | done y => exact absurd hwaits id
  | want n next =>
      simp only [Waits] at hwaits
      simp only [missing] at hgot
      by_cases hlt : (buffer ++ got).length < n
      · rw [deliver_of_lt hlt, List.append_assoc]
        exact h
      · have hlen : (buffer ++ got).length = n := by
          rw [List.length_append] at hlt ⊢
          omega
        rw [deliver_of_le (Nat.not_lt.1 hlt), List.nil_append]
        rw [← List.append_assoc, takes_want_iff, ← hlen, List.take_left, List.drop_left] at h
        exact takes_settle_iff.2 h.2

/-- What is delivered leaves the program with its result, or waiting. -/
theorem deliver_cases (p : Reads α) (buffer got : List Byte) :
    (∃ x, p.deliver buffer got = (done x, [])) ∨
      (p.deliver buffer got).1.Waits (p.deliver buffer got).2 := by
  cases p with
  | done x => exact Or.inl ⟨x, rfl⟩
  | want n next =>
      by_cases hlt : (buffer ++ got).length < n
      · rw [deliver_of_lt hlt]
        exact Or.inr hlt
      · rw [deliver_of_le (Nat.not_lt.1 hlt)]
        rcases settle_cases (next (buffer ++ got)) with ⟨x, hx⟩ | hwaits
        · exact Or.inl ⟨x, by rw [hx]⟩
        · exact Or.inr hwaits

/-- The missing bytes of the field are among those that the program takes. -/
theorem Takes.missing_le {p : Reads α} {buffer rest : List Byte} {x : α}
    (h : Takes p (buffer ++ rest) x) : p.missing buffer ≤ rest.length := by
  cases p with
  | done y => exact Nat.zero_le _
  | want n next =>
      have hle := (takes_want_iff.1 h).1
      rw [List.length_append] at hle
      simp only [missing]
      omega

end Reads

end Lib
end TecnicoFs
