import Mathlib.Data.List.TakeDrop

/-!
# Fifo — a named pipe and the processes that have it open

What POSIX gives about a FIFO with one reader and any number of writers that come and go:

* an `open(2)` for reading waits until a writer opens the FIFO, and the other way round;
* a `read(2)` gives the end of file where the FIFO is empty and no writer has it open, and waits
  where it is empty and a writer has;
* a `write(2)` needs a reader;
* what is in the FIFO is discarded when the last process closes it.
-/

namespace TecnicoFs
namespace Lib

universe u

/-- The read end: closed, in an `open(2)` that waits for a writer, or open. -/
inductive ReadEnd
  | closed
  | opening
  | opened
  deriving DecidableEq

/-- A FIFO that holds elements of `α`, with the writers that have it open. -/
structure Fifo (α : Type u) where
  content : List α
  writers : List ℕ
  reader : ReadEnd

namespace Fifo

variable {α : Type u}

/-- After `mkfifo`. -/
def made : Fifo α :=
  ⟨[], [], .closed⟩

/-- Nobody has the FIFO open. -/
def Abandoned (f : Fifo α) : Prop :=
  f.reader = .closed ∧ f.writers = []

instance (f : Fifo α) : Decidable f.Abandoned :=
  inferInstanceAs (Decidable (_ ∧ _))

/-- What nobody has open keeps nothing. -/
def release (f : Fifo α) : Fifo α :=
  if f.Abandoned then { f with content := [] } else f

/-! ## The reader -/

/-- `open(2)` for reading; with a writer there it returns at once. -/
def openRead (f : Fifo α) : Fifo α :=
  { f with reader := if f.writers = [] then .opening else .opened }

def closeRead (f : Fifo α) : Fifo α :=
  { f with reader := .closed }.release

/-- `read(2)` of at most `n` elements, where `k + 1` bounds what it gives; `none` where it waits. -/
def read (n k : ℕ) (f : Fifo α) : Option (List α × Fifo α) :=
  if f.content = [] ∧ f.writers ≠ [] then
    none
  else
    some (f.content.take (min n (k + 1)), { f with content := f.content.drop (min n (k + 1)) })

/-! ## The writers -/

/-- `open(2)` for writing, which ends the wait of a reader; `none` where it waits for one. -/
def openWrite (c : ℕ) (f : Fifo α) : Option (Fifo α) :=
  if f.reader ≠ .closed ∧ c ∉ f.writers then
    some { f with writers := c :: f.writers, reader := .opened }
  else
    none

/-- `write(2)`; `none` where no process can read. -/
def write (c : ℕ) (m : List α) (f : Fifo α) : Option (Fifo α) :=
  if f.reader ≠ .closed ∧ c ∈ f.writers then
    some { f with content := f.content ++ m }
  else
    none

def closeWrite (c : ℕ) (f : Fifo α) : Option (Fifo α) :=
  if c ∈ f.writers then
    some { f with writers := f.writers.erase c }.release
  else
    none

/-! ## What is kept -/

theorem release_of_nil {f : Fifo α} (h : f.Abandoned → f.content = []) : f.release = f := by
  unfold release
  by_cases habandoned : f.Abandoned
  · rw [if_pos habandoned, ← h habandoned]
  · rw [if_neg habandoned]

theorem openWrite_eq_some {c : ℕ} {f g : Fifo α} (h : f.openWrite c = some g) :
    g.content = f.content ∧ c ∈ g.writers ∧ g.reader = .opened := by
  unfold openWrite at h
  split at h
  · cases h
    exact ⟨rfl, by simp, rfl⟩
  · cases h

theorem write_eq_some {c : ℕ} {m : List α} {f g : Fifo α} (h : f.write c m = some g) :
    g.content = f.content ++ m ∧ g.writers = f.writers ∧ g.reader = f.reader := by
  unfold write at h
  split at h
  · cases h
    exact ⟨rfl, rfl, rfl⟩
  · cases h

theorem closeWrite_reader {c : ℕ} {f g : Fifo α} (h : f.closeWrite c = some g) :
    g.reader = f.reader := by
  unfold closeWrite at h
  split at h
  · cases h
    unfold release
    split
    · rfl
    · rfl
  · cases h

theorem length_closeRead_le (f : Fifo α) : f.closeRead.content.length ≤ f.content.length := by
  unfold closeRead release
  split
  · exact Nat.zero_le _
  · exact Nat.le_refl _

/-- The last process to close the FIFO leaves nothing in it. -/
theorem closeRead_last {f : Fifo α} (h : f.writers = []) : f.closeRead.content = [] := by
  unfold closeRead release
  rw [if_pos ⟨rfl, h⟩]

theorem closeRead_content {f : Fifo α} (hkept : f.writers = [] → f.content = []) :
    f.closeRead.content = f.content := by
  have hsame := release_of_nil (f := { f with reader := .closed }) fun habandoned => hkept habandoned.2
  unfold closeRead
  rw [hsame]

/-- A close discards nothing unless it leaves a FIFO that is not empty to nobody. -/
theorem closeWrite_content {c : ℕ} {f g : Fifo α} (h : f.closeWrite c = some g)
    (hkept : f.reader = .closed → f.writers.erase c = [] → f.content = []) : g.content = f.content := by
  unfold closeWrite at h
  split at h
  · cases h
    have hsame := release_of_nil (f := { f with writers := f.writers.erase c })
      fun habandoned => hkept habandoned.1 habandoned.2
    rw [hsame]
  · cases h

theorem closeWrite_last {c : ℕ} {f g : Fifo α} (h : f.closeWrite c = some g) (hclosed : f.reader = .closed)
    (hlast : f.writers.erase c = []) : g.content = [] := by
  unfold closeWrite at h
  split at h
  · cases h
    unfold release
    rw [if_pos ⟨hclosed, hlast⟩]
  · cases h

theorem read_eq_some {n k : ℕ} {f g : Fifo α} {got : List α} (h : f.read n k = some (got, g)) :
    (got = [] → n = 0 ∨ (f.content = [] ∧ f.writers = [])) ∧ got.length ≤ n ∧
      f.content = got ++ g.content ∧ g.writers = f.writers ∧ g.reader = f.reader := by
  unfold read at h
  split at h
  · cases h
  · next hwaits =>
      cases h
      refine ⟨?_, Nat.le_trans (List.length_take_le _ _) (Nat.min_le_left _ _), by simp, rfl, rfl⟩
      intro hnil
      rcases List.take_eq_nil_iff.1 hnil with hzero | hnil
      · left
        omega
      · right
        refine ⟨hnil, ?_⟩
        by_contra hne
        exact hwaits ⟨hnil, hne⟩

/-- A `read(2)` of one element gives it, or the end of file. -/
theorem read_one_cases {k : ℕ} {f g : Fifo α} {got : List α} (h : f.read 1 k = some (got, g)) :
    (got = [] ∧ f.content = [] ∧ f.writers = []) ∨ (∃ a, got = [a] ∧ f.content = a :: g.content) := by
  rcases read_eq_some h with ⟨hnil, hle, hcontent, -, -⟩
  rcases got with _ | ⟨a, got⟩
  · rcases hnil rfl with hzero | hend
    · cases hzero
    · exact Or.inl ⟨rfl, hend⟩
  · have hone : got = [] := by
      apply List.eq_nil_of_length_eq_zero
      rw [List.length_cons] at hle
      omega
    subst hone
    exact Or.inr ⟨a, rfl, hcontent⟩

end Fifo

end Lib
end TecnicoFs
