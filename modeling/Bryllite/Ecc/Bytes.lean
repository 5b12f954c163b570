import Bryllite.Ecc.Vli
import Bryllite.Framework.Digits

/-!
# Numbers as bytes (secp256r1.cpp, ecc_bytes2native and ecc_native2bytes)

`ECC_BYTES` bytes in memory stand for a number with its most significant byte first
(`value_eccBytes2native`), and the two conversions undo each other.
-/

namespace Bryllite.Ecc

open Bryllite.Framework

/-- `ECC_BYTES` bytes, in the order of memory. -/
abbrev EccBytes : Type := Limbs 8 32

/-- A digit of `ecc_bytes2native`, from the bytes at `p_digit`. -/
def bytesDigit (p : Nat → BitVec 8) : BitVec 64 :=
  (p 0).setWidth 64 <<< 56 ||| (p 1).setWidth 64 <<< 48 ||| (p 2).setWidth 64 <<< 40 ||| (p 3).setWidth 64 <<< 32 |||
    (p 4).setWidth 64 <<< 24 ||| (p 5).setWidth 64 <<< 16 ||| (p 6).setWidth 64 <<< 8 ||| (p 7).setWidth 64

/-- `ecc_bytes2native`. -/
def eccBytes2native (bytes : EccBytes) : Vli where
  digits := (List.range numEccDigits).map fun i => bytesDigit fun j => bytes.digit (8 * (numEccDigits - 1 - i) + j)
  length_digits := by simp

/-- `ecc_native2bytes`: byte `j` of `p_digit` is the digit shifted by `56 - 8 * j`. -/
def eccNative2bytes (native : Vli) : EccBytes where
  digits := (List.range 32).map fun t => (native.digit (numEccDigits - 1 - t / 8) >>> (56 - 8 * (t % 8))).setWidth 8
  length_digits := by simp

theorem toNat_byte_shl (b : BitVec 8) {k : Nat} (hk : k ≤ 56) : (b.setWidth 64 <<< k).toNat = 2 ^ k * b.toNat := by
  have hb := b.isLt
  have hlt : b.toNat * 2 ^ k < 2 ^ 64 :=
    calc b.toNat * 2 ^ k < 2 ^ 8 * 2 ^ k := Nat.mul_lt_mul_of_pos_right hb (Nat.two_pow_pos k)
      _ ≤ 2 ^ 8 * 2 ^ 56 := Nat.mul_le_mul_left _ (Nat.pow_le_pow_right (by omega) hk)
  have hb' : b.toNat < 2 ^ 64 := hb.trans (by omega)
  rw [BitVec.toNat_shiftLeft, BitVec.toNat_setWidth, Nat.mod_eq_of_lt hb', Nat.shiftLeft_eq, Nat.mod_eq_of_lt hlt,
    Nat.mul_comm]

/-- One more byte behind the others. -/
theorem toNat_or_byte {a : BitVec 64} {k q : Nat} (hk : k ≤ 56) (ha : a.toNat = 2 ^ (k + 8) * q) (b : BitVec 8) :
    (a ||| b.setWidth 64 <<< k).toNat = 2 ^ k * (2 ^ 8 * q + b.toNat) := by
  have hb := toNat_byte_shl b hk
  have hlt : (b.setWidth 64 <<< k).toNat < 2 ^ (k + 8) := by
    rw [hb, pow_add]
    exact Nat.mul_lt_mul_of_pos_left b.isLt (Nat.two_pow_pos k)
  rw [toNat_or_of_lt ha hlt, ha, hb, pow_add]
  ring

theorem toNat_bytesDigit (p : Nat → BitVec 8) :
    (bytesDigit p).toNat = numeralValue (2 ^ 8) ((List.range 8).map fun j => (p j).toNat) := by
  have h0 := toNat_byte_shl (p 0) (le_refl 56)
  have h1 := toNat_or_byte (k := 48) (by omega) h0 (p 1)
  have h2 := toNat_or_byte (k := 40) (by omega) h1 (p 2)
  have h3 := toNat_or_byte (k := 32) (by omega) h2 (p 3)
  have h4 := toNat_or_byte (k := 24) (by omega) h3 (p 4)
  have h5 := toNat_or_byte (k := 16) (by omega) h4 (p 5)
  have h6 := toNat_or_byte (k := 8) (by omega) h5 (p 6)
  have h7 := toNat_or_byte (k := 0) (by omega) h6 (p 7)
  rw [BitVec.shiftLeft_zero] at h7
  rw [bytesDigit, h7]
  simp [numeralValue, List.range_succ, Nat.ofDigits_cons]
  omega

theorem digit_eccBytes2native (bytes : EccBytes) {i : Nat} (hi : i < numEccDigits) :
    (eccBytes2native bytes).digit i = bytesDigit fun j => bytes.digit (8 * (numEccDigits - 1 - i) + j) := by
  simp [eccBytes2native, Limbs.digit, hi]

theorem digit_eccNative2bytes (native : Vli) {t : Nat} (ht : t < 32) : (eccNative2bytes native).digit t =
    (native.digit (numEccDigits - 1 - t / 8) >>> (56 - 8 * (t % 8))).setWidth 8 := by
  simp [eccNative2bytes, Limbs.digit, ht]

/-- The byte `j` of the eight that made a digit. -/
theorem byte_bytesDigit (p : Nat → BitVec 8) {j : Nat} (hj : j < 8) :
    (bytesDigit p >>> (56 - 8 * j)).setWidth 8 = p j := by
  have hlt := fun j => (p j).isLt
  have h := toNat_bytesDigit p
  simp only [numeralValue, List.range_succ, List.range_zero, List.nil_append, List.cons_append, List.map_cons,
    List.map_nil, List.reverse_cons, List.reverse_nil, Nat.ofDigits_cons, Nat.ofDigits_nil] at h
  refine BitVec.eq_of_toNat_eq ?_
  rw [BitVec.toNat_setWidth, BitVec.toNat_ushiftRight, Nat.shiftRight_eq_div_pow, h]
  have h0 := hlt 0
  have h1 := hlt 1
  have h2 := hlt 2
  have h3 := hlt 3
  have h4 := hlt 4
  have h5 := hlt 5
  have h6 := hlt 6
  have h7 := hlt 7
  interval_cases j <;> omega

/-- The digit that the eight bytes of a digit make. -/
theorem bytesDigit_bytes (d : BitVec 64) : bytesDigit (fun j => (d >>> (56 - 8 * j)).setWidth 8) = d := by
  have hd := d.isLt
  refine BitVec.eq_of_toNat_eq ?_
  rw [toNat_bytesDigit]
  simp only [numeralValue, List.range_succ, List.range_zero, List.nil_append, List.cons_append, List.map_cons,
    List.map_nil, List.reverse_cons, List.reverse_nil, Nat.ofDigits_cons, Nat.ofDigits_nil, BitVec.toNat_setWidth,
    BitVec.toNat_ushiftRight, Nat.shiftRight_eq_div_pow]
  omega

@[simp] theorem eccNative2bytes_bytes2native (bytes : EccBytes) : eccNative2bytes (eccBytes2native bytes) = bytes := by
  refine Limbs.ext_digit fun t ht => ?_
  have hdiv := Nat.div_add_mod t 8
  have hn : numEccDigits = 4 := rfl
  rw [digit_eccNative2bytes _ ht, digit_eccBytes2native _ (by omega), byte_bytesDigit _ (Nat.mod_lt t (by omega))]
  congr 1
  omega

@[simp] theorem eccBytes2native_native2bytes (native : Vli) : eccBytes2native (eccNative2bytes native) = native := by
  refine Limbs.ext_digit fun i hi => ?_
  have hbyte : ∀ j < 8, (eccNative2bytes native).digit (8 * (numEccDigits - 1 - i) + j) =
      (native.digit i >>> (56 - 8 * j)).setWidth 8 := by
    intro j hj
    have hn : numEccDigits = 4 := rfl
    rw [digit_eccNative2bytes _ (by omega), Nat.mul_add_div (by omega), Nat.div_eq_of_lt hj, Nat.mul_add_mod_self_left,
      Nat.mod_eq_of_lt hj, Nat.add_zero, show numEccDigits - 1 - (numEccDigits - 1 - i) = i by omega]
  rw [digit_eccBytes2native _ hi, ← bytesDigit_bytes (native.digit i)]
  simp only [bytesDigit, hbyte 0, hbyte 1, hbyte 2, hbyte 3, hbyte 4, hbyte 5, hbyte 6, hbyte 7, Nat.reduceLT]

/-- The number of the bytes, the most significant one first. -/
theorem value_eccBytes2native (bytes : EccBytes) :
    (eccBytes2native bytes).value = numeralValue (2 ^ 8) (bytes.digits.map BitVec.toNat) := by
  rw [bytes.digits_eq, Limbs.value_eq_sum]
  have hdigit : ∀ i < numEccDigits, ((eccBytes2native bytes).digit i).toNat = numeralValue (2 ^ 8)
      ((List.range 8).map fun j => (bytes.digit (8 * (numEccDigits - 1 - i) + j)).toNat) := fun i hi => by
    rw [digit_eccBytes2native bytes hi, toNat_bytesDigit]
  rw [Finset.sum_range_succ, Finset.sum_range_succ, Finset.sum_range_succ, Finset.sum_range_one,
    hdigit 0 (by decide), hdigit 1 (by decide), hdigit 2 (by decide), hdigit 3 (by decide)]
  simp only [numeralValue, List.range_succ, List.range_zero, List.nil_append, List.cons_append, List.map_cons,
    List.map_nil, List.reverse_cons, List.reverse_nil, Nat.ofDigits_cons, Nat.ofDigits_nil, numEccDigits, Nat.reduceAdd,
    Nat.reduceSub, Nat.reduceMul]
  ring

/-- The bytes are the number, the most significant one first, and the conversions undo each other. -/
theorem bytes_exact (bytes : EccBytes) (native : Vli) :
    (eccBytes2native bytes).value = numeralValue (2 ^ 8) (bytes.digits.map BitVec.toNat) ∧
      eccNative2bytes (eccBytes2native bytes) = bytes ∧ eccBytes2native (eccNative2bytes native) = native :=
  ⟨value_eccBytes2native bytes, eccNative2bytes_bytes2native bytes, eccBytes2native_native2bytes native⟩

/-! ## Bytes behind each other -/

/-- `n` bytes from the `k`-th on. -/
def slice {m : Nat} (bytes : Limbs 8 m) (k n : Nat) (h : k + n ≤ m) : Limbs 8 n where
  digits := (bytes.digits.drop k).take n
  length_digits := by rw [List.length_take, List.length_drop, bytes.length_digits]; omega

def join {m n : Nat} (a : Limbs 8 m) (b : Limbs 8 n) : Limbs 8 (m + n) where
  digits := a.digits ++ b.digits
  length_digits := by rw [List.length_append, a.length_digits, b.length_digits]

@[simp] theorem slice_join_left {m n : Nat} (a : Limbs 8 m) (b : Limbs 8 n) (h : 0 + m ≤ m + n) :
    slice (join a b) 0 m h = a :=
  Limbs.ext (by simp [slice, join, a.length_digits])

@[simp] theorem slice_join_right {m n : Nat} (a : Limbs 8 m) (b : Limbs 8 n) (h : m + n ≤ m + n) :
    slice (join a b) m n h = b :=
  Limbs.ext (by simp [slice, join, a.length_digits, b.length_digits])

end Bryllite.Ecc
