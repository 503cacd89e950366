import Mathlib.Data.List.GetD
import TecnicoFs.Lib.Bytes

/-!
# Memory — a flat byte array, and the C string functions on it

`Memory` is a `char` array indexed by addresses.  Every write is a `memcpy`, so one pair of lemmas
(`memcpy_of_mem`, `memcpy_of_disjoint`) says what any write does and what it leaves alone.

A C string is the list of its bytes up to the terminating NUL.  `strncmp` is defined on arbitrary byte
sequences, as in C, because a fixed-width field need not contain a NUL.
-/

namespace TecnicoFs
namespace Lib

abbrev Memory := ℕ → Byte

/-! ## Copying and reading bytes -/

/-- Copy the first `n` bytes of `src` to address `dst`. -/
def memcpy (m : Memory) (dst : ℕ) (src : ℕ → Byte) (n : ℕ) : Memory :=
  fun a => if dst ≤ a ∧ a < dst + n then src (a - dst) else m a

/-- The `n` bytes at address `a`. -/
def memread (m : Memory) (a n : ℕ) : List Byte :=
  (List.range n).map fun k => m (a + k)

variable {m m' : Memory} {dst a n k : ℕ} {src : ℕ → Byte}

theorem memcpy_of_mem (hlo : dst ≤ a) (hhi : a < dst + n) : memcpy m dst src n a = src (a - dst) :=
  if_pos ⟨hlo, hhi⟩

theorem memcpy_of_disjoint (h : a < dst ∨ dst + n ≤ a) : memcpy m dst src n a = m a :=
  if_neg (by omega)

theorem memcpy_add (hk : k < n) : memcpy m dst src n (dst + k) = src k := by
  rw [memcpy_of_mem (by omega) (by omega)]
  congr 1
  omega

@[simp] theorem memcpy_zero : memcpy m dst src 0 = m := by
  funext a
  exact memcpy_of_disjoint (by omega)

@[simp] theorem length_memread : (memread m a n).length = n := by
  simp [memread]

theorem memread_congr (h : ∀ k < n, m (a + k) = m' (a + k)) : memread m a n = memread m' a n := by
  apply List.map_congr_left
  intro k hk
  exact h k (List.mem_range.1 hk)

theorem memread_memcpy : memread (memcpy m dst src n) dst n = (List.range n).map src := by
  apply List.map_congr_left
  intro k hk
  exact memcpy_add (List.mem_range.1 hk)

theorem memread_append (j : ℕ) : memread m a (n + j) = memread m a n ++ memread m (a + n) j := by
  simp [memread, List.range_add, Nat.add_assoc]

theorem take_memread (j : ℕ) : (memread m a n).take j = memread m a (min j n) := by
  simp [memread, List.take_range, ← List.map_take]

theorem drop_memread (j : ℕ) : (memread m a n).drop j = memread m (a + j) (n - j) := by
  apply List.ext_getElem
  · simp
  · intro k hk _
    simp [memread, Nat.add_assoc]

/-! ## `int` cells -/

def readInt (m : Memory) (a : ℕ) : ℤ :=
  bytesInt (memread m a 4)

def writeInt (m : Memory) (a : ℕ) (z : ℤ) : Memory :=
  memcpy m a (fun k => (intBytes z).getD k 0) 4

theorem readInt_congr (h : ∀ k < 4, m (a + k) = m' (a + k)) : readInt m a = readInt m' a := by
  rw [readInt, readInt, memread_congr h]

theorem writeInt_of_disjoint {z : ℤ} (h : a < dst ∨ dst + 4 ≤ a) : writeInt m dst z a = m a :=
  memcpy_of_disjoint h

theorem readInt_writeInt {z : ℤ} (hlo : -2 ^ 31 ≤ z) (hhi : z < 2 ^ 31) :
    readInt (writeInt m a z) a = z := by
  have hbytes : (List.range 4).map (fun k => (intBytes z).getD k 0) = intBytes z := by
    apply List.ext_getElem
    · simp
    · intro k hk _
      have hk4 : k < 4 := by simpa using hk
      simp [List.getElem?_eq_getElem (show k < (intBytes z).length by simpa using hk4)]
  rw [readInt, writeInt, memread_memcpy, hbytes]
  exact bytesInt_intBytes_of_range hlo hhi

/-- Storing the number that is there changes nothing. -/
theorem writeInt_readInt : writeInt m a (readInt m a) = m := by
  funext c
  by_cases hin : a ≤ c ∧ c < a + 4
  · have hsrc : (memread m a 4).getD (c - a) 0 = m c := by
      have hlt : c - a < (memread m a 4).length := by
        rw [length_memread]
        omega
      rw [List.getD_eq_getElem _ _ hlt]
      simp [memread, show a + (c - a) = c by omega]
    rw [writeInt, memcpy_of_mem hin.1 hin.2, readInt, intBytes_bytesInt length_memread, hsrc]
  · exact memcpy_of_disjoint (by omega)

theorem readInt_writeInt_of_disjoint {z : ℤ} (h : a + 4 ≤ dst ∨ dst + 4 ≤ a) :
    readInt (writeInt m dst z) a = readInt m a :=
  readInt_congr fun _ hk => writeInt_of_disjoint (by omega)

theorem readInt_memcpy_of_disjoint (h : a + 4 ≤ dst ∨ dst + n ≤ a) :
    readInt (memcpy m dst src n) a = readInt m a :=
  readInt_congr fun _ hk => memcpy_of_disjoint (by omega)

/-! ## C strings -/

/-- A NUL-terminated string, as the bytes before its NUL. -/
structure CString where
  bytes : List Byte
  noNul : ∀ b ∈ bytes, b ≠ 0
  deriving DecidableEq

namespace CString

variable (s t : CString)

def strlen : ℕ :=
  s.bytes.length

/-- The byte at position `k`; the string reads as NUL from its end on. -/
def charAt (k : ℕ) : Byte :=
  s.bytes.getD k 0

/-- The string that starts one byte later (`s + 1`). -/
def tail : CString :=
  ⟨s.bytes.tail, fun b hb => s.noNul b (List.mem_of_mem_tail hb)⟩

variable {s t}

@[ext] theorem ext_bytes (h : s.bytes = t.bytes) : s = t := by
  cases s
  cases t
  cases h
  rfl

theorem charAt_eq_zero_iff : s.charAt k = 0 ↔ s.strlen ≤ k := by
  unfold charAt strlen
  rcases Nat.lt_or_ge k s.bytes.length with hk | hk
  · rw [List.getD_eq_getElem _ _ hk]
    have hne : s.bytes[k] ≠ 0 := s.noNul _ (List.getElem_mem hk)
    constructor
    · intro h
      exact absurd h hne
    · intro h
      omega
  · simp [hk]

theorem charAt_of_le (h : s.strlen ≤ k) : s.charAt k = 0 :=
  charAt_eq_zero_iff.2 h

theorem eq_of_charAt (h : ∀ k ≤ s.strlen, s.charAt k = t.charAt k) : s = t := by
  have hlen : s.strlen = t.strlen := by
    have hle : t.strlen ≤ s.strlen := by
      apply charAt_eq_zero_iff.1
      rw [← h s.strlen le_rfl]
      exact charAt_of_le le_rfl
    have hge : s.strlen ≤ t.strlen := by
      apply charAt_eq_zero_iff.1
      rw [h t.strlen hle]
      exact charAt_of_le le_rfl
    omega
  apply CString.ext_bytes
  apply List.ext_getElem hlen
  intro k hs ht
  have hk := h k (le_of_lt hs)
  rwa [charAt, charAt, List.getD_eq_getElem _ _ hs, List.getD_eq_getElem _ _ ht] at hk

end CString

/-- `strncpy`: copy `s` into a field of `n` bytes, padded with NULs. -/
def strncpy (m : Memory) (dst : ℕ) (s : CString) (n : ℕ) : Memory :=
  memcpy m dst s.charAt n

/-! ## String comparison -/

/-- `strncmp a b n`: compare at most `n` bytes, stopping at a NUL. -/
def strncmp (a b : ℕ → Byte) : ℕ → ℤ
  | 0 => 0
  | n + 1 =>
      if a 0 ≠ b 0 then
        (a 0).toNat - (b 0).toNat
      else if a 0 = 0 then
        0
      else
        strncmp (fun k => a (k + 1)) (fun k => b (k + 1)) n

/-- Two sequences compare equal when they agree up to the first NUL or the bound. -/
theorem strncmp_eq_zero_iff {a b : ℕ → Byte} {n : ℕ} :
    strncmp a b n = 0 ↔ ∀ j < n, (∀ i < j, a i ≠ 0) → a j = b j := by
  induction n generalizing a b with
  | zero => simp [strncmp]
  | succ n ih =>
      by_cases hne : a 0 = b 0
      · by_cases hz : a 0 = 0
        · -- both end here, and what follows is not compared
          have hrhs : ∀ j < n + 1, (∀ i < j, a i ≠ 0) → a j = b j := by
            intro j _ hbefore
            rcases Nat.eq_zero_or_pos j with rfl | hj
            · exact hne
            · exact absurd hz (hbefore 0 hj)
          simpa [strncmp, ← hne, hz] using hrhs
        · have hstep : strncmp a b (n + 1) =
              strncmp (fun k => a (k + 1)) (fun k => b (k + 1)) n := by
            simp [strncmp, ← hne, hz]
          rw [hstep, ih]
          constructor
          · intro h j hj hbefore
            rcases j with _ | j
            · exact hne
            · exact h j (by omega) (fun i hi => hbefore (i + 1) (by omega))
          · intro h j hj hbefore
            apply h (j + 1) (by omega)
            intro i hi
            rcases i with _ | i
            · exact hz
            · exact hbefore i (by omega)
      · -- the first bytes differ, and so does the result from 0
        have hval : strncmp a b (n + 1) ≠ 0 := by
          have hnat : (a 0).toNat ≠ (b 0).toNat := fun h => hne (UInt8.toNat_inj.1 h)
          simp [strncmp, hne]
          omega
        constructor
        · intro h
          exact absurd h hval
        · intro h
          exact absurd (h 0 (by omega) (by simp)) hne

/-! ## Strings kept in fixed-width fields -/

/-- The bytes of a field of width `n` before its first NUL. -/
def fieldBytes (f : ℕ → Byte) : ℕ → List Byte
  | 0 => []
  | n + 1 => if f 0 = 0 then [] else f 0 :: fieldBytes (fun k => f (k + 1)) n

theorem getElem_fieldBytes {f : ℕ → Byte} {n k : ℕ} (hk : k < (fieldBytes f n).length) :
    (fieldBytes f n)[k] = f k ∧ f k ≠ 0 := by
  induction n generalizing f k with
  | zero => simp [fieldBytes] at hk
  | succ n ih =>
      by_cases hz : f 0 = 0
      · simp [fieldBytes, hz] at hk
      · have hcons : fieldBytes f (n + 1) = f 0 :: fieldBytes (fun k => f (k + 1)) n := by
          simp [fieldBytes, hz]
        rcases k with _ | k
        · simp [hcons, hz]
        · have hk' : k < (fieldBytes (fun k => f (k + 1)) n).length := by
            simpa [hcons] using hk
          simpa [hcons] using ih hk'

theorem fieldBytes_end {f : ℕ → Byte} {n : ℕ} (h : (fieldBytes f n).length < n) :
    f (fieldBytes f n).length = 0 := by
  induction n generalizing f with
  | zero => omega
  | succ n ih =>
      by_cases hz : f 0 = 0
      · simp [fieldBytes, hz]
      · have hcons : fieldBytes f (n + 1) = f 0 :: fieldBytes (fun k => f (k + 1)) n := by
          simp [fieldBytes, hz]
        have hlt : (fieldBytes (fun k => f (k + 1)) n).length < n := by
          simpa [hcons] using h
        simpa [hcons] using ih hlt

/-- The C string that a field of width `n` holds. -/
def fieldString (f : ℕ → Byte) (n : ℕ) : CString where
  bytes := fieldBytes f n
  noNul := by
    intro b hb
    rcases List.getElem_of_mem hb with ⟨k, hk, rfl⟩
    rw [(getElem_fieldBytes hk).1]
    exact (getElem_fieldBytes hk).2

theorem charAt_fieldString {f : ℕ → Byte} {n k : ℕ} (hend : (fieldBytes f n).length < n)
    (hk : k ≤ (fieldBytes f n).length) : (fieldString f n).charAt k = f k := by
  rcases Nat.lt_or_ge k (fieldBytes f n).length with hlt | hge
  · unfold CString.charAt
    rw [List.getD_eq_getElem _ _ (show k < (fieldString f n).bytes.length from hlt)]
    exact (getElem_fieldBytes hlt).1
  · have hEq : k = (fieldBytes f n).length := by omega
    rw [CString.charAt_of_le (show (fieldString f n).strlen ≤ k from hge), hEq, fieldBytes_end hend]

theorem length_fieldBytes_lt {f : ℕ → Byte} {n k : ℕ} (hk : k < n) (hz : f k = 0) :
    (fieldBytes f n).length < n := by
  by_contra hge
  have hlt : k < (fieldBytes f n).length := by omega
  exact (getElem_fieldBytes hlt).2 hz

/-- A field that reads like `s` up to its terminating NUL holds `s`. -/
theorem fieldString_eq {f : ℕ → Byte} {n : ℕ} {s : CString} (hlen : s.strlen < n)
    (h : ∀ k ≤ s.strlen, f k = s.charAt k) : fieldString f n = s := by
  have hend : f s.strlen = 0 := by
    rw [h _ le_rfl]
    exact CString.charAt_of_le le_rfl
  have hshort := length_fieldBytes_lt hlen hend
  have hle : (fieldBytes f n).length ≤ s.strlen := by
    by_contra hgt
    exact (getElem_fieldBytes (show s.strlen < (fieldBytes f n).length by omega)).2 hend
  apply CString.eq_of_charAt
  intro k hk
  have hk' : k ≤ (fieldBytes f n).length := hk
  rw [charAt_fieldString hshort hk', h k (by omega)]

/-- Comparing a terminated field with a string compares the string that it holds. -/
theorem strncmp_field_eq_zero_iff {f : ℕ → Byte} {n k : ℕ} {t : CString} (hk : k < n)
    (hz : f k = 0) : strncmp f t.charAt n = 0 ↔ fieldString f n = t := by
  have hend := length_fieldBytes_lt hk hz
  rw [strncmp_eq_zero_iff]
  constructor
  · intro h
    apply CString.eq_of_charAt
    intro j hj
    have hj' : j ≤ (fieldBytes f n).length := hj
    rw [charAt_fieldString hend hj']
    apply h j (by omega)
    intro i hi
    have hi' : i < (fieldBytes f n).length := by omega
    exact (getElem_fieldBytes hi').2
  · rintro rfl j hj hbefore
    have hle : j ≤ (fieldBytes f n).length := by
      by_contra hgt
      exact hbefore _ (by omega) (fieldBytes_end hend)
    exact (charAt_fieldString hend hle).symm

end Lib
end TecnicoFs
