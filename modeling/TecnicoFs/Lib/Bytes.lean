import Mathlib.Data.List.Basic
import Mathlib.Data.Nat.Basic
import Mathlib.Tactic.Ring

/-!
# Bytes — fixed-width C integers and their little-endian bytes

C integers are kept as `ℕ` and `ℤ`; the width enters where the language brings it in:

* `sizeAdd`, `sizeSub` — `size_t` arithmetic, modulo `2 ^ 64`;
* `castInt`, `castLong` — conversion to a signed type of 32 or 64 bits;
* `leBytes`, `leNat` — the bytes of a number, least significant first;
* `intBytes`, `bytesInt` — the four bytes of an `int`;
* `longBytes`, `bytesLong` — the eight bytes of a `ssize_t`;
* `storeOver` — bytes stored at the start of a buffer.
-/

namespace TecnicoFs
namespace Lib

abbrev Byte := UInt8

/-! ## `size_t` arithmetic -/

def sizeAdd (a b : ℕ) : ℕ :=
  (a + b) % 2 ^ 64

def sizeSub (a b : ℕ) : ℕ :=
  (a + (2 ^ 64 - b % 2 ^ 64)) % 2 ^ 64

theorem sizeAdd_of_lt {a b : ℕ} (h : a + b < 2 ^ 64) : sizeAdd a b = a + b :=
  Nat.mod_eq_of_lt h

theorem sizeSub_of_le {a b : ℕ} (hba : b ≤ a) (ha : a < 2 ^ 64) : sizeSub a b = a - b := by
  unfold sizeSub
  omega

/-- A subtraction below zero wraps. -/
theorem sizeSub_of_lt {a b : ℕ} (hab : a < b) (hb : b < 2 ^ 64) :
    sizeSub a b = 2 ^ 64 - (b - a) := by
  unfold sizeSub
  omega

/-! ## Conversions to signed types -/

/-- Conversion to `int`. -/
def castInt (z : ℤ) : ℤ :=
  (BitVec.ofInt 32 z).toInt

/-- Conversion to `ssize_t`. -/
def castLong (z : ℤ) : ℤ :=
  (BitVec.ofInt 64 z).toInt

theorem castInt_eq_bmod (z : ℤ) : castInt z = z.bmod (2 ^ 32) :=
  BitVec.toInt_ofInt z

theorem castInt_of_range {z : ℤ} (hlo : -2 ^ 31 ≤ z) (hhi : z < 2 ^ 31) : castInt z = z := by
  rw [castInt_eq_bmod]
  exact Int.bmod_eq_of_le (by norm_num; omega) (by norm_num; omega)

theorem castLong_of_range {z : ℤ} (hlo : -2 ^ 63 ≤ z) (hhi : z < 2 ^ 63) : castLong z = z := by
  rw [castLong, BitVec.toInt_ofInt]
  exact Int.bmod_eq_of_le (by norm_num; omega) (by norm_num; omega)

theorem castLong_eq_bmod (z : ℤ) : castLong z = z.bmod (2 ^ 64) :=
  BitVec.toInt_ofInt z

theorem castLong_lt (z : ℤ) : castLong z < 2 ^ 63 := by
  have h := Int.bmod_lt (x := z) (m := 2 ^ 64) (by norm_num)
  rw [castLong_eq_bmod]
  omega

/-! ## Little-endian bytes -/

/-- The `w` low bytes of `n`, least significant first. -/
def leBytes : ℕ → ℕ → List Byte
  | 0, _ => []
  | w + 1, n => UInt8.ofNat n :: leBytes w (n / 256)

/-- The number a list of bytes stands for. -/
def leNat : List Byte → ℕ
  | [] => 0
  | b :: bs => b.toNat + 256 * leNat bs

@[simp] theorem length_leBytes (w n : ℕ) : (leBytes w n).length = w := by
  induction w generalizing n with
  | zero => rfl
  | succ w ih => simp [leBytes, ih]

theorem leNat_leBytes (w n : ℕ) : leNat (leBytes w n) = n % 256 ^ w := by
  induction w generalizing n with
  | zero => simp [leBytes, leNat, Nat.mod_one]
  | succ w ih =>
      have hsplit : n % 256 ^ (w + 1) = n % 256 + 256 * (n / 256 % 256 ^ w) := by
        rw [pow_succ', Nat.mod_mul]
      simp [leBytes, leNat, ih, hsplit]

theorem leNat_lt (bs : List Byte) : leNat bs < 256 ^ bs.length := by
  induction bs with
  | nil => simp [leNat]
  | cons b bs ih =>
      have hb : b.toNat < 256 := b.toNat_lt
      simp only [leNat, List.length_cons, pow_succ]
      omega

theorem leBytes_leNat (bs : List Byte) : leBytes bs.length (leNat bs) = bs := by
  induction bs with
  | nil => rfl
  | cons b bs ih =>
      have hb : b.toNat < 256 := b.toNat_lt
      have hlow : UInt8.ofNat (b.toNat + 256 * leNat bs) = b := by
        apply UInt8.toNat_inj.1
        simp only [UInt8.toNat_ofNat']
        omega
      have hhigh : (b.toNat + 256 * leNat bs) / 256 = leNat bs := by
        omega
      simp only [List.length_cons, leBytes, leNat, hlow, hhigh, ih]

theorem leNat_append (as bs : List Byte) :
    leNat (as ++ bs) = leNat as + 256 ^ as.length * leNat bs := by
  induction as with
  | nil => simp [leNat]
  | cons b as ih =>
      simp only [List.cons_append, leNat, ih, List.length_cons, pow_succ']
      ring

/-! ## The bytes of an `int` -/

/-- The four bytes of an `int`, in two's complement. -/
def intBytes (z : ℤ) : List Byte :=
  leBytes 4 (z % 2 ^ 32).toNat

def bytesInt (bs : List Byte) : ℤ :=
  castInt (leNat bs)

@[simp] theorem length_intBytes (z : ℤ) : (intBytes z).length = 4 :=
  length_leBytes _ _

theorem bytesInt_intBytes (z : ℤ) : bytesInt (intBytes z) = castInt z := by
  have hlt : (z % 2 ^ 32).toNat < 256 ^ 4 := by
    norm_num
    omega
  have hcast : ((leNat (intBytes z) : ℕ) : ℤ) = z % 2 ^ 32 := by
    rw [intBytes, leNat_leBytes, Nat.mod_eq_of_lt hlt]
    omega
  rw [bytesInt, hcast, castInt_eq_bmod, castInt_eq_bmod]
  exact Int.emod_bmod z (2 ^ 32)

theorem bytesInt_intBytes_of_range {z : ℤ} (hlo : -2 ^ 31 ≤ z) (hhi : z < 2 ^ 31) :
    bytesInt (intBytes z) = z := by
  rw [bytesInt_intBytes, castInt_of_range hlo hhi]

/-- Four bytes are the bytes of the `int` they stand for. -/
theorem intBytes_bytesInt {bs : List Byte} (hlen : bs.length = 4) : intBytes (bytesInt bs) = bs := by
  have hlt : leNat bs < 2 ^ 32 := by
    have h := leNat_lt bs
    rw [hlen] at h
    norm_num at h
    omega
  have hmod : (bytesInt bs % 2 ^ 32).toNat = leNat bs := by
    have h : (leNat bs : ℤ).bmod (2 ^ 32) % ((2 ^ 32 : ℕ) : ℤ) =
        (leNat bs : ℤ) % ((2 ^ 32 : ℕ) : ℤ) :=
      Int.bmod_emod
    simp only [bytesInt, castInt_eq_bmod]
    omega
  rw [intBytes, hmod, ← hlen]
  exact leBytes_leNat bs

/-- Different bytes stand for different `int`s. -/
theorem bytesInt_inj {as bs : List Byte} (ha : as.length = 4) (hb : bs.length = 4) :
    bytesInt as = bytesInt bs ↔ as = bs := by
  constructor
  · intro h
    rw [← intBytes_bytesInt ha, h, intBytes_bytesInt hb]
  · rintro rfl
    rfl

/-! ## The bytes of a `ssize_t` -/

/-- The eight bytes of a `ssize_t`, in two's complement. -/
def longBytes (z : ℤ) : List Byte :=
  leBytes 8 (z % 2 ^ 64).toNat

def bytesLong (bs : List Byte) : ℤ :=
  castLong (leNat bs)

@[simp] theorem length_longBytes (z : ℤ) : (longBytes z).length = 8 :=
  length_leBytes _ _

theorem bytesLong_longBytes (z : ℤ) : bytesLong (longBytes z) = castLong z := by
  have hlt : (z % 2 ^ 64).toNat < 256 ^ 8 := by
    norm_num
    omega
  have hcast : ((leNat (longBytes z) : ℕ) : ℤ) = z % 2 ^ 64 := by
    rw [longBytes, leNat_leBytes, Nat.mod_eq_of_lt hlt]
    omega
  rw [bytesLong, hcast, castLong_eq_bmod, castLong_eq_bmod]
  exact Int.emod_bmod z (2 ^ 64)

theorem bytesLong_longBytes_of_range {z : ℤ} (hlo : -2 ^ 63 ≤ z) (hhi : z < 2 ^ 63) :
    bytesLong (longBytes z) = z := by
  rw [bytesLong_longBytes, castLong_of_range hlo hhi]

/-- Eight bytes are the bytes of the `ssize_t` they stand for. -/
theorem longBytes_bytesLong {bs : List Byte} (hlen : bs.length = 8) :
    longBytes (bytesLong bs) = bs := by
  have hlt : leNat bs < 2 ^ 64 := by
    have h := leNat_lt bs
    rw [hlen] at h
    norm_num at h
    omega
  have hmod : (bytesLong bs % 2 ^ 64).toNat = leNat bs := by
    have h : (leNat bs : ℤ).bmod (2 ^ 64) % ((2 ^ 64 : ℕ) : ℤ) =
        (leNat bs : ℤ) % ((2 ^ 64 : ℕ) : ℤ) :=
      Int.bmod_emod
    simp only [bytesLong, castLong_eq_bmod]
    omega
  rw [longBytes, hmod, ← hlen]
  exact leBytes_leNat bs

/-- Different bytes stand for different values. -/
theorem bytesLong_inj {as bs : List Byte} (ha : as.length = 8) (hb : bs.length = 8) :
    bytesLong as = bytesLong bs ↔ as = bs := by
  constructor
  · intro h
    rw [← longBytes_bytesLong ha, h, longBytes_bytesLong hb]
  · rintro rfl
    rfl

/-! ## Storing into a buffer -/

/-- A buffer after bytes were stored at its start. -/
def storeOver (got old : List Byte) : List Byte :=
  got ++ old.drop got.length

theorem length_storeOver {got old : List Byte} (h : got.length ≤ old.length) :
    (storeOver got old).length = old.length := by
  rw [storeOver, List.length_append, List.length_drop]
  omega

/-- Bytes that fill the buffer leave nothing of what it held. -/
theorem storeOver_of_length {got old : List Byte} (h : old.length ≤ got.length) :
    storeOver got old = got := by
  rw [storeOver, List.drop_eq_nil_of_le h, List.append_nil]

@[simp] theorem storeOver_nil (old : List Byte) : storeOver [] old = old := by
  simp [storeOver]

theorem take_storeOver (got old : List Byte) : (storeOver got old).take got.length = got := by
  simp [storeOver]

end Lib
end TecnicoFs
