import TecnicoFs.Lib.Bytes

/-!
# Pipe — the two ends of a FIFO

What POSIX gives about a FIFO, and no more:

* `Delivery`, `Delivery.read` — one `read(2)` delivers a part of what it asks for, of the size that
  the environment picks; no byte at all is the end of file seen while no writer has the FIFO open;
* `Delivery.calls` — how many calls a loop needs that reads a number of bytes;
* `Pieces` — the pieces that a loop of `write(2)` calls leaves in the FIFO: a write of at most
  `pipeBuf` bytes is one piece, a longer one may be split at any point.
-/

namespace TecnicoFs
namespace Lib

/-! ## The read end -/

/-- The read end of a FIFO: the bytes that are still to come, and the number of `read(2)` calls
made so far. -/
@[ext]
structure Pipe where
  bytes : List Byte
  clock : ℕ

/-- The environment of the read end: `size n` bounds the `n`-th `read(2)`. Where it is 0 no writer has the
FIFO open; any number of calls in a row may find none, and then one meets a writer. -/
structure Delivery where
  size : ℕ → ℕ
  returns : ∀ n, ∃ k, size (n + k) ≠ 0

/-- A delivery in which the call after an end of file meets a writer. -/
structure PromptDelivery extends Delivery where
  reopened : ∀ n, size n = 0 → size (n + 1) ≠ 0

instance : Coe PromptDelivery Delivery :=
  ⟨PromptDelivery.toDelivery⟩

/-- One byte at a time. -/
def PromptDelivery.byteWise : PromptDelivery where
  size _ := 1
  returns _ := ⟨0, by simp⟩
  reopened := by simp

/-- `read(2)` of at most `n` bytes; `none` where the call waits for a writer. -/
def Delivery.read (d : Delivery) (n : ℕ) (p : Pipe) : Option (List Byte × Pipe) :=
  if d.size p.clock ≠ 0 ∧ p.bytes = [] then
    none
  else
    let k := min n (d.size p.clock)
    some (p.bytes.take k, ⟨p.bytes.drop k, p.clock + 1⟩)

theorem Delivery.read_eof {d : Delivery} {p : Pipe} (n : ℕ) (h : d.size p.clock = 0) :
    d.read n p = some ([], ⟨p.bytes, p.clock + 1⟩) := by
  simp [Delivery.read, h]

theorem Delivery.read_of_ne_nil {d : Delivery} {p : Pipe} (n : ℕ) (h : p.bytes ≠ []) :
    d.read n p =
      some (p.bytes.take (min n (d.size p.clock)),
        ⟨p.bytes.drop (min n (d.size p.clock)), p.clock + 1⟩) := by
  simp [Delivery.read, h]

/-- On a FIFO that is empty, a call that meets a writer waits. -/
theorem Delivery.read_waits {d : Delivery} {p : Pipe} (n : ℕ) (h : d.size p.clock ≠ 0)
    (hempty : p.bytes = []) : d.read n p = none := by
  simp [Delivery.read, h, hempty]

/-- How many calls in a row find no writer, from the `n`-th on. -/
def Delivery.away (d : Delivery) (n : ℕ) : ℕ :=
  Nat.find (d.returns n)

theorem Delivery.away_of_ne {d : Delivery} {n : ℕ} (h : d.size n ≠ 0) : d.away n = 0 :=
  (Nat.find_eq_zero _).2 h

theorem Delivery.away_of_eof {d : Delivery} {n : ℕ} (h : d.size n = 0) : d.away n = d.away (n + 1) + 1 := by
  have hshift : ∀ k, n + (k + 1) = n + 1 + k := by omega
  refine (Nat.find_eq_iff _).2 ⟨?_, ?_⟩
  · rw [hshift]
    exact Nat.find_spec (d.returns (n + 1))
  · intro k hk
    rcases k with _ | k
    · simpa using h
    · rw [hshift]
      exact Nat.find_min (d.returns (n + 1)) (by unfold Delivery.away at hk; omega)

/-- The calls that a loop makes at most which reads `len` bytes, from the `n`-th on. -/
def Delivery.calls (d : Delivery) : ℕ → ℕ → ℕ
  | 0, _ => 0
  | len + 1, n => d.away n + 1 + d.calls len (n + d.away n + 1)

theorem Delivery.calls_of_eof {d : Delivery} {len n : ℕ} (h : d.size n = 0) (hlen : 0 < len) :
    d.calls len n = d.calls len (n + 1) + 1 := by
  rcases len with _ | len
  · omega
  · simp only [Delivery.calls, Delivery.away_of_eof h]
    rw [show n + (d.away (n + 1) + 1) + 1 = n + 1 + d.away (n + 1) + 1 by omega]
    omega

theorem Delivery.calls_of_ne {d : Delivery} {n : ℕ} (h : d.size n ≠ 0) (len : ℕ) :
    d.calls (len + 1) n = d.calls len (n + 1) + 1 := by
  simp only [Delivery.calls, Delivery.away_of_ne h, Nat.add_zero]
  omega

theorem Delivery.calls_mono (d : Delivery) {len len' : ℕ} (h : len ≤ len') :
    ∀ n, d.calls len n ≤ d.calls len' n := by
  induction len' generalizing len with
  | zero =>
      intro n
      rw [show len = 0 by omega]
  | succ len' ih =>
      intro n
      rcases len with _ | len
      · exact Nat.zero_le _
      · have hrest := ih (Nat.le_of_succ_le_succ h) (n + d.away n + 1)
        simp only [Delivery.calls]
        omega

/-! ## The write end -/

/-- `Pieces pipeBuf m ps`: a loop of `write(2)` calls that sends all of `m` leaves the pieces `ps`.
Each constructor but the first is one `write(2)`. -/
inductive Pieces (pipeBuf : ℕ) : List Byte → List (List Byte) → Prop
  | done : Pieces pipeBuf [] []
  | whole {m : List Byte} : m ≠ [] → m.length ≤ pipeBuf → Pieces pipeBuf m [m]
  | split {sent rest : List Byte} {parts ps : List (List Byte)} :
      pipeBuf < (sent ++ rest).length → sent ≠ [] → parts.flatten = sent →
      Pieces pipeBuf rest ps → Pieces pipeBuf (sent ++ rest) (parts ++ ps)

theorem Pieces.flatten {pipeBuf : ℕ} {m : List Byte} {ps : List (List Byte)}
    (h : Pieces pipeBuf m ps) : ps.flatten = m := by
  induction h with
  | done => rfl
  | whole _ _ => simp
  | split _ _ hparts _ ih => simp [hparts, ih]

/-- A message of at most `pipeBuf` bytes stays whole. -/
theorem Pieces.eq_singleton {pipeBuf : ℕ} {m : List Byte} {ps : List (List Byte)}
    (h : Pieces pipeBuf m ps) (hne : m ≠ []) (hle : m.length ≤ pipeBuf) : ps = [m] := by
  cases h with
  | done => exact absurd rfl hne
  | whole _ _ => rfl
  | split hlong _ _ _ => exact absurd hle (Nat.not_le.2 hlong)

/-- Any division of a message longer than `pipeBuf` bytes is possible. -/
theorem Pieces.of_flatten {pipeBuf : ℕ} {m : List Byte} {parts : List (List Byte)}
    (hlong : pipeBuf < m.length) (hflat : parts.flatten = m) : Pieces pipeBuf m parts := by
  have hne : m ≠ [] := by
    intro hnil
    simp [hnil] at hlong
  have h := Pieces.split (by simpa using hlong) hne
    hflat Pieces.done
  simpa using h

/-- A long message can be split behind any byte. -/
theorem Pieces.cut {pipeBuf : ℕ} {m : List Byte} (n : ℕ) (hlong : pipeBuf < m.length) :
    Pieces pipeBuf m [m.take n, m.drop n] :=
  .of_flatten hlong (by simp)

/-- A message can always be sent in one piece. -/
theorem Pieces.singleton {pipeBuf : ℕ} {m : List Byte} (hne : m ≠ []) : Pieces pipeBuf m [m] := by
  by_cases hle : m.length ≤ pipeBuf
  · exact .whole hne hle
  · exact .of_flatten (Nat.not_le.1 hle) (by simp)

end Lib
end TecnicoFs
