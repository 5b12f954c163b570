import Bryllite.Ecc.Mult

/-!
# Products without 128-bit integers (secp256r1.cpp, vli_mult and vli_square)

Where the compiler has no 128-bit integers a product of two digits is made of four
(`value_mul6464`), and a carry out of `r01` is read off its high word only. The carry is
missed where the high word comes out the same (`missesCarry`). So the result falls
short of the product by the carries missed (`value_vliMult`).
-/

namespace Bryllite.Ecc.Portable

open Bryllite.Framework

/-- `uint128_t`. -/
structure Uint128 where
  low : BitVec 64
  high : BitVec 64
  deriving DecidableEq

def Uint128.value (a : Uint128) : Nat := a.low.toNat + 2 ^ 64 * a.high.toNat

/-- `mul_64_64`. -/
def mul6464 (left right : BitVec 64) : Uint128 :=
  let a0 := left &&& 0xffffffff#64
  let a1 := left >>> 32
  let b0 := right &&& 0xffffffff#64
  let b1 := right >>> 32
  let m0 := a0 * b0
  let m1 := a0 * b1
  let m2 := a1 * b0 + (m0 >>> 32) + m1
  let m3 := if m2 < m1 then a1 * b1 + 0x100000000#64 else a1 * b1
  { low := (m0 &&& 0xffffffff#64) ||| m2 <<< 32, high := m3 + (m2 >>> 32) }

/-- `add_128_128`. -/
def add128128 (a b : Uint128) : Uint128 where
  low := a.low + b.low
  high := a.high + b.high + if a.low + b.low < a.low then 1#64 else 0#64

/-- `r01` and `r2`. -/
structure MultAcc where
  r01 : Uint128
  r2 : BitVec 64

def MultAcc.value (acc : MultAcc) : Nat := acc.r01.value + 2 ^ 128 * acc.r2.toNat

/-- A product is added to the accumulator. -/
def addProduct (acc : MultAcc) (product : Uint128) : MultAcc where
  r01 := add128128 acc.r01 product
  r2 := acc.r2 + if (add128128 acc.r01 product).high < product.high then 1#64 else 0#64

/-- A term of `vli_mult`. -/
def multTerm (left right : Vli) (k : Nat) (acc : MultAcc) (i : Nat) : MultAcc :=
  addProduct acc (mul6464 (left.digit i) (right.digit (k - i)))

/-- `l_product` of `vli_square`, doubled but for the middle term. -/
def squareProduct (left : Vli) (k i : Nat) : Uint128 :=
  let product := mul6464 (left.digit i) (left.digit (k - i))
  if i < k - i then { low := product.low <<< 1, high := product.high <<< 1 ||| product.low >>> 63 } else product

/-- The bit that doubling shifts out. -/
def squareTop (left : Vli) (k i : Nat) : BitVec 64 :=
  if i < k - i then (mul6464 (left.digit i) (left.digit (k - i))).high >>> 63 else 0#64

/-- A term of `vli_square`. -/
def squareTerm (left : Vli) (k : Nat) (acc : MultAcc) (i : Nat) : MultAcc :=
  addProduct { acc with r2 := acc.r2 + squareTop left k i } (squareProduct left k i)

/-- A digit of the result, and `r01` for the next one. -/
def nextDigit (acc : MultAcc) : BitVec 64 × Uint128 := (acc.r01.low, { low := acc.r01.high, high := acc.r2 })

/-- The column `k` of `vli_mult`. -/
def multColumn (left right : Vli) (r01 : Uint128) (k : Nat) : BitVec 64 × Uint128 :=
  nextDigit ((multTerms k).foldl (multTerm left right k) ⟨r01, 0⟩)

/-- `vli_mult`. -/
def vliMult (left right : Vli) : VliProduct := columns (multColumn left right) Uint128.low ⟨0, 0⟩

/-- The column `k` of `vli_square`. -/
def squareColumn (left : Vli) (r01 : Uint128) (k : Nat) : BitVec 64 × Uint128 :=
  nextDigit ((squareTerms k).foldl (squareTerm left k) ⟨r01, 0⟩)

/-- `vli_square`. -/
def vliSquare (left : Vli) : VliProduct := columns (squareColumn left) Uint128.low ⟨0, 0⟩

/-- The carry of a sum that its high word does not show: the high word was full, and
the low words carry. -/
def missesCarry (r01 product : Uint128) : Bool :=
  r01.high = 0xffffffffffffffff#64 && r01.low + product.low < r01.low

/-- The carries that the terms of a column miss. -/
def missedBy (term : MultAcc → Nat → MultAcc) (product : Nat → Uint128) : MultAcc → List Nat → Nat
  | _, [] => 0
  | acc, i :: is => (missesCarry acc.r01 (product i)).toNat + missedBy term product (term acc i) is

/-- The carries missed in a column of `vli_mult`. -/
def multMissed (left right : Vli) (r01 : Uint128) (k : Nat) : Nat :=
  missedBy (multTerm left right k) (fun i => mul6464 (left.digit i) (right.digit (k - i))) ⟨r01, 0⟩ (multTerms k)

/-- The carries missed in a column of `vli_square`. -/
def squareMissed (left : Vli) (r01 : Uint128) (k : Nat) : Nat :=
  missedBy (squareTerm left k) (squareProduct left k) ⟨r01, 0⟩ (squareTerms k)

/-! ## Terms -/

theorem toNat_lowHalf (a : BitVec 64) : (a &&& 0xffffffff#64).toNat = a.toNat % 2 ^ 32 := by
  rw [BitVec.toNat_and]
  exact Nat.and_two_pow_sub_one_eq_mod a.toNat 32

theorem toNat_highHalf (a : BitVec 64) : (a >>> 32).toNat = a.toNat / 2 ^ 32 := by
  rw [BitVec.toNat_ushiftRight, Nat.shiftRight_eq_div_pow]

theorem mul_half_le {a b : Nat} (ha : a < 2 ^ 32) (hb : b < 2 ^ 32) : a * b ≤ (2 ^ 32 - 1) * (2 ^ 32 - 1) :=
  Nat.mul_le_mul (by omega) (by omega)

theorem toNat_mul_of_lt {a b : BitVec 64} (h : a.toNat * b.toNat < 2 ^ 64) : (a * b).toNat = a.toNat * b.toNat := by
  rw [BitVec.toNat_mul, Nat.mod_eq_of_lt h]

/-- The products of the halves, put together. -/
theorem value_joinProducts {p00 p01 p10 p11 : BitVec 64} (h00 : p00.toNat ≤ (2 ^ 32 - 1) * (2 ^ 32 - 1))
    (h01 : p01.toNat ≤ (2 ^ 32 - 1) * (2 ^ 32 - 1)) (h10 : p10.toNat ≤ (2 ^ 32 - 1) * (2 ^ 32 - 1))
    (h11 : p11.toNat ≤ (2 ^ 32 - 1) * (2 ^ 32 - 1))
    (hlt : p00.toNat + 2 ^ 32 * (p01.toNat + p10.toNat) + 2 ^ 64 * p11.toNat < 2 ^ 64 * 2 ^ 64) :
    (Uint128.mk ((p00 &&& 0xffffffff#64) ||| (p10 + p00 >>> 32 + p01) <<< 32)
      ((if p10 + p00 >>> 32 + p01 < p01 then p11 + 0x100000000#64 else p11) + (p10 + p00 >>> 32 + p01) >>> 32)).value =
      p00.toNat + 2 ^ 32 * (p01.toNat + p10.toNat) + 2 ^ 64 * p11.toNat := by
  have hm2 : (p10 + p00 >>> 32 + p01).toNat = (p10.toNat + p00.toNat / 2 ^ 32 + p01.toNat) % 2 ^ 64 := by
    rw [BitVec.toNat_add, BitVec.toNat_add, toNat_highHalf, Nat.mod_add_mod]
  generalize p10 + p00 >>> 32 + p01 = m2 at hm2 ⊢
  have hshl : (m2 <<< 32).toNat = 2 ^ 32 * (m2.toNat % 2 ^ 32) := by
    rw [BitVec.toNat_shiftLeft, Nat.shiftLeft_eq]
    omega
  have hlow : ((p00 &&& 0xffffffff#64) ||| m2 <<< 32).toNat = p00.toNat % 2 ^ 32 + 2 ^ 32 * (m2.toNat % 2 ^ 32) := by
    rw [BitVec.or_comm, toNat_or_of_lt hshl, hshl, toNat_lowHalf, Nat.add_comm]
    rw [toNat_lowHalf]
    exact Nat.mod_lt _ (by decide)
  have hm2lt := m2.isLt
  -- The sum of the middle products overflows exactly if it comes out smaller than one of them.
  rw [Uint128.value, hlow, BitVec.toNat_add, toNat_highHalf]
  split
  · rename_i h
    rw [BitVec.lt_def] at h
    rw [BitVec.toNat_add, BitVec.toNat_ofNat]
    omega
  · rename_i h
    rw [BitVec.lt_def] at h
    omega

/-- `mul_64_64` is the product. -/
theorem value_mul6464 (left right : BitVec 64) : (mul6464 left right).value = left.toNat * right.toNat := by
  have hl := left.isLt
  have hr := right.isLt
  have ha := Nat.mod_add_div left.toNat (2 ^ 32)
  have hb := Nat.mod_add_div right.toNat (2 ^ 32)
  have ha0 := toNat_lowHalf left
  have ha1 := toNat_highHalf left
  have hb0 := toNat_lowHalf right
  have hb1 := toNat_highHalf right
  have hlt : left.toNat * right.toNat < 2 ^ 64 * 2 ^ 64 := Nat.mul_lt_mul'' hl hr
  rw [← ha0, ← ha1] at ha
  rw [← hb0, ← hb1] at hb
  simp only [mul6464]
  generalize left &&& 0xffffffff#64 = a0 at ha ha0 ⊢
  generalize left >>> 32 = a1 at ha ha1 ⊢
  generalize right &&& 0xffffffff#64 = b0 at hb hb0 ⊢
  generalize right >>> 32 = b1 at hb hb1 ⊢
  -- The product of the words in terms of the four products of their halves.
  have hprod : left.toNat * right.toNat = a0.toNat * b0.toNat + 2 ^ 32 * (a0.toNat * b1.toNat + a1.toNat * b0.toNat) +
      2 ^ 64 * (a1.toNat * b1.toNat) := by
    rw [← ha, ← hb]
    ring
  have h00 := mul_half_le (a := a0.toNat) (b := b0.toNat) (by omega) (by omega)
  have h01 := mul_half_le (a := a0.toNat) (b := b1.toNat) (by omega) (by omega)
  have h10 := mul_half_le (a := a1.toNat) (b := b0.toNat) (by omega) (by omega)
  have h11 := mul_half_le (a := a1.toNat) (b := b1.toNat) (by omega) (by omega)
  rw [hprod] at hlt ⊢
  have m00 := toNat_mul_of_lt (a := a0) (b := b0) (by omega)
  have m01 := toNat_mul_of_lt (a := a0) (b := b1) (by omega)
  have m10 := toNat_mul_of_lt (a := a1) (b := b0) (by omega)
  have m11 := toNat_mul_of_lt (a := a1) (b := b1) (by omega)
  rw [← m00, ← m01, ← m10, ← m11] at hlt ⊢
  rw [← m00] at h00
  rw [← m01] at h01
  rw [← m10] at h10
  rw [← m11] at h11
  exact value_joinProducts h00 h01 h10 h11 hlt

theorem value_add128128 (a b : Uint128) : (add128128 a b).value = (a.value + b.value) % 2 ^ 128 := by
  have h1 := a.low.isLt
  have h2 := a.high.isLt
  have h3 := b.low.isLt
  have h4 := b.high.isLt
  simp only [add128128, Uint128.value, BitVec.toNat_add, BitVec.lt_def]
  split
  · rw [BitVec.toNat_ofNat]
    omega
  · rw [BitVec.toNat_ofNat]
    omega

/-- What the high word shows of the carry, and what it misses. -/
theorem addProduct_value (acc : MultAcc) (product : Uint128) (h : acc.r2.toNat + 1 < 2 ^ 64) :
    (addProduct acc product).value + 2 ^ 128 * (missesCarry acc.r01 product).toNat = acc.value + product.value ∧
      (addProduct acc product).r2.toNat ≤ acc.r2.toNat + 1 := by
  have h1 := acc.r01.low.isLt
  have h2 := acc.r01.high.isLt
  have h3 := product.low.isLt
  have h4 := product.high.isLt
  have hlow : acc.r01.low + product.low < acc.r01.low ↔ 2 ^ 64 ≤ acc.r01.low.toNat + product.low.toNat := by
    rw [BitVec.lt_def, BitVec.toNat_add]
    omega
  have hfull : acc.r01.high = 0xffffffffffffffff#64 ↔ acc.r01.high.toNat = 2 ^ 64 - 1 := by
    rw [← BitVec.toNat_inj]
    rfl
  have hmiss : missesCarry acc.r01 product = true ↔
      acc.r01.high.toNat = 2 ^ 64 - 1 ∧ 2 ^ 64 ≤ acc.r01.low.toNat + product.low.toNat := by
    rw [missesCarry, Bool.and_eq_true, decide_eq_true_eq, decide_eq_true_eq, hfull, hlow]
  -- The high word of the sum, by whether the low words carry.
  have hhigh : (add128128 acc.r01 product).high.toNat = (acc.r01.high.toNat + product.high.toNat +
      (acc.r01.low.toNat + product.low.toNat) / 2 ^ 64) % 2 ^ 64 := by
    simp only [add128128, hlow, BitVec.toNat_add]
    split <;> rw [BitVec.toNat_ofNat] <;> omega
  simp only [addProduct, MultAcc.value, value_add128128, BitVec.lt_def, hhigh, BitVec.toNat_add]
  cases hm : missesCarry acc.r01 product with
  | true =>
    have := hmiss.mp hm
    rw [Bool.toNat_true, Uint128.value, Uint128.value]
    split <;> rw [BitVec.toNat_ofNat] <;> omega
  | false =>
    have := hmiss.not.mp (by rw [hm]; exact Bool.false_ne_true)
    rw [Bool.toNat_false, Uint128.value, Uint128.value]
    split <;> rw [BitVec.toNat_ofNat] <;> omega

theorem multTerm_value (left right : Vli) (k : Nat) {acc : MultAcc} (i : Nat) (h : acc.r2.toNat + 2 < 2 ^ 64) :
    (multTerm left right k acc i).value +
        2 ^ 128 * (missesCarry acc.r01 (mul6464 (left.digit i) (right.digit (k - i)))).toNat =
      acc.value + (left.digit i).toNat * (right.digit (k - i)).toNat ∧
    (multTerm left right k acc i).r2.toNat ≤ acc.r2.toNat + 2 := by
  have := addProduct_value acc (mul6464 (left.digit i) (right.digit (k - i))) (by omega)
  rw [value_mul6464] at this
  exact ⟨this.1, this.2.trans (by omega)⟩

/-- The product of a square's term, doubled where it stands for two. -/
theorem value_squareProduct (left : Vli) (k i : Nat) :
    (squareProduct left k i).value + 2 ^ 128 * (squareTop left k i).toNat =
      squareWeight k i * ((left.digit i).toNat * (left.digit (k - i)).toNat) := by
  rw [← value_mul6464, squareWeight]
  simp only [squareProduct, squareTop]
  generalize mul6464 (left.digit i) (left.digit (k - i)) = product
  split
  · have h1 := product.low.isLt
    have h2 := product.high.isLt
    have hshl : ∀ a : BitVec 64, (a <<< 1).toNat = 2 ^ 1 * (a.toNat % 2 ^ 63) := fun a => by
      rw [BitVec.toNat_shiftLeft, Nat.shiftLeft_eq]
      omega
    have hshr : ∀ a : BitVec 64, (a >>> 63).toNat = a.toNat / 2 ^ 63 := fun a => by
      rw [BitVec.toNat_ushiftRight, Nat.shiftRight_eq_div_pow]
    rw [Uint128.value, toNat_or_of_lt (hshl _) (by rw [hshr]; omega), hshl, hshl, hshr, hshr, Uint128.value]
    omega
  · rw [BitVec.toNat_zero, Nat.mul_zero, Nat.add_zero, Nat.one_mul]

theorem squareTerm_value (left : Vli) (k : Nat) {acc : MultAcc} (i : Nat) (h : acc.r2.toNat + 2 < 2 ^ 64) :
    (squareTerm left k acc i).value + 2 ^ 128 * (missesCarry acc.r01 (squareProduct left k i)).toNat =
      acc.value + squareWeight k i * ((left.digit i).toNat * (left.digit (k - i)).toNat) ∧
    (squareTerm left k acc i).r2.toNat ≤ acc.r2.toNat + 2 := by
  have htop : (squareTop left k i).toNat ≤ 1 := by
    rw [squareTop]
    split
    · rw [BitVec.toNat_ushiftRight, Nat.shiftRight_eq_div_pow]
      omega
    · decide
  have hr2 : (acc.r2 + squareTop left k i).toNat = acc.r2.toNat + (squareTop left k i).toNat := by
    rw [BitVec.toNat_add]
    omega
  have hp := value_squareProduct left k i
  have := addProduct_value { acc with r2 := acc.r2 + squareTop left k i } (squareProduct left k i)
    (by simp only [hr2]; omega)
  simp only [MultAcc.value, hr2] at this
  rw [squareTerm, MultAcc.value, MultAcc.value]
  omega

/-- Terms that each add a number, up to the carry they miss, and at most 2 to `r2`. -/
theorem foldl_value {term : MultAcc → Nat → MultAcc} {product : Nat → Uint128} {t : Nat → Nat}
    (hterm : ∀ acc i, acc.r2.toNat + 2 < 2 ^ 64 →
      (term acc i).value + 2 ^ 128 * (missesCarry acc.r01 (product i)).toNat = acc.value + t i ∧
      (term acc i).r2.toNat ≤ acc.r2.toNat + 2) (is : List Nat) {acc : MultAcc}
    (h : acc.r2.toNat + 2 * is.length < 2 ^ 64) :
    (is.foldl term acc).value + 2 ^ 128 * missedBy term product acc is = acc.value + (is.map t).sum := by
  induction is generalizing acc with
  | nil => simp [missedBy]
  | cons i is ih =>
    rw [List.length_cons] at h
    obtain ⟨hv, hr⟩ := hterm acc i (by omega)
    have ih := @ih (term acc i) (by omega)
    rw [List.foldl_cons, missedBy, List.map_cons, List.sum_cons]
    omega

/-! ## Results -/

theorem nextDigit_value (acc : MultAcc) :
    (nextDigit acc).1.toNat + 2 ^ 64 * (nextDigit acc).2.value = acc.value := by
  simp only [nextDigit, MultAcc.value, Uint128.value]
  omega

/-- The accumulator of a column, which has at most four terms. -/
theorem column_value {term : MultAcc → Nat → MultAcc} {product : Nat → Uint128} {t : Nat → Nat}
    (hterm : ∀ acc i, acc.r2.toNat + 2 < 2 ^ 64 →
      (term acc i).value + 2 ^ 128 * (missesCarry acc.r01 (product i)).toNat = acc.value + t i ∧
      (term acc i).r2.toNat ≤ acc.r2.toNat + 2) (p : Nat → Bool) (r01 : Uint128) :
    (((List.range numEccDigits).filter p).foldl term ⟨r01, 0⟩).value +
        2 ^ 128 * missedBy term product ⟨r01, 0⟩ ((List.range numEccDigits).filter p) =
      (((List.range numEccDigits).filter p).map t).sum + r01.value := by
  have hlen : ((List.range numEccDigits).filter p).length ≤ 4 := List.length_filter_le _ _
  have hzero : (0 : BitVec 64).toNat = 0 := rfl
  rw [foldl_value hterm _ (by simp only [hzero]; omega), MultAcc.value, hzero, Nat.mul_zero, Nat.add_zero, Nat.add_comm]

/-- Columns that miss carries. -/
theorem value_columns {column : Uint128 → Nat → BitVec 64 × Uint128} {missed : Uint128 → Nat → Nat} {t : Nat → Nat}
    {total : Nat} (hcolumn : ∀ r01 k, (column r01 k).1.toNat + 2 ^ 64 * (column r01 k).2.value +
      2 ^ 128 * missed r01 k = t k + r01.value)
    (htotal : ∑ k ∈ Finset.range (2 * numEccDigits - 1), t k * 2 ^ (64 * k) = total) (hlt : total < 2 ^ 256 * 2 ^ 256) :
    ((columns column Uint128.low ⟨0, 0⟩).value : Int) + 2 ^ 128 *
      chainSum column (fun r01 k => (missed r01 k : Int)) ⟨0, 0⟩ (List.range (2 * numEccDigits - 1)) = total := by
  have hlow : ∀ r01 : Uint128, r01.low.toNat = r01.value % 2 ^ 64 := fun r01 => by
    have := r01.low.isLt
    rw [Uint128.value]
    omega
  have h := columns_value ⟨0, 0⟩ Uint128.value (fun r01 k => 2 ^ 128 * missed r01 k) rfl hlow hcolumn htotal hlt
  rw [← chainSum_scale]
  exact_mod_cast h

/-- The carries that `vli_mult` misses, each with its weight. -/
def multMissedSum (left right : Vli) : Int :=
  chainSum (multColumn left right) (fun r01 k => (multMissed left right r01 k : Int)) ⟨0, 0⟩
    (List.range (2 * numEccDigits - 1))

/-- The carries that `vli_square` misses, each with its weight. -/
def squareMissedSum (left : Vli) : Int :=
  chainSum (squareColumn left) (fun r01 k => (squareMissed left r01 k : Int)) ⟨0, 0⟩
    (List.range (2 * numEccDigits - 1))

/-- `vli_mult` falls short of the product by the carries it misses. -/
theorem value_vliMult (left right : Vli) :
    ((vliMult left right).value : Int) + 2 ^ 128 * multMissedSum left right = left.value * right.value := by
  have hcolumn : ∀ r01 k, (multColumn left right r01 k).1.toNat + 2 ^ 64 * (multColumn left right r01 k).2.value +
      2 ^ 128 * multMissed left right r01 k =
      ((multTerms k).map fun i => (left.digit i).toNat * (right.digit (k - i)).toNat).sum + r01.value := by
    intro r01 k
    rw [multColumn, nextDigit_value]
    exact column_value (fun acc i => multTerm_value left right k i) _ r01
  have h := value_columns hcolumn ?_ (mul_value_lt left right)
  · exact_mod_cast h
  · rw [Limbs.value_mul]
    exact Finset.sum_congr rfl fun k _ => by rw [sum_multTerms]

/-- `vli_square` falls short of the square by the carries it misses. -/
theorem value_vliSquare (left : Vli) :
    ((vliSquare left).value : Int) + 2 ^ 128 * squareMissedSum left = left.value * left.value := by
  have hcolumn : ∀ r01 k, (squareColumn left r01 k).1.toNat + 2 ^ 64 * (squareColumn left r01 k).2.value +
      2 ^ 128 * squareMissed left r01 k =
      ((squareTerms k).map fun i =>
        squareWeight k i * ((left.digit i).toNat * (left.digit (k - i)).toNat)).sum + r01.value := by
    intro r01 k
    rw [squareColumn, nextDigit_value]
    exact column_value (fun acc i => squareTerm_value left k i) _ r01
  have h := value_columns hcolumn ?_ (mul_value_lt left left)
  · exact_mod_cast h
  · rw [Limbs.value_mul]
    exact Finset.sum_congr rfl fun k hk => by
      rw [sum_squareTerms (fun i => (left.digit i).toNat) (Finset.mem_range.mp hk)]

/-- What falls short of a product by the carries missed is that product if there are none. -/
theorem eq_iff_missed_eq_zero {κ : Type} {column : κ → Nat → BitVec 64 × κ} {missed : κ → Nat → Nat} {r01 : κ} {n : Nat}
    {p q : VliProduct}
    (h : (p.value : Int) + 2 ^ 128 * chainSum column (fun r k => (missed r k : Int)) r01 (List.range n) = q.value) :
    p = q ↔ ∀ k < n, missed (chain column r01 (List.range k)).2 k = 0 := by
  have hzero := chainSum_eq_zero_iff (w := 64) (fun r k => Int.natCast_nonneg (missed r k)) column r01 (List.range n)
  have hsum : p = q ↔ chainSum column (fun r k => (missed r k : Int)) r01 (List.range n) = 0 := by
    refine ⟨fun heq => ?_, fun heq => Limbs.value_inj ?_⟩
    · rw [heq] at h
      omega
    · rw [heq, Int.mul_zero, Int.add_zero] at h
      exact_mod_cast h
  rw [hsum, hzero]
  have hlen : (List.range n).length = n := List.length_range
  refine forall_congr' fun k => ⟨fun hk hlt => ?_, fun hk hlt => ?_⟩
  · have := hk (by rwa [hlen])
    rw [List.getElem_range, List.take_range, Nat.min_eq_left hlt.le] at this
    exact_mod_cast this
  · rw [hlen] at hlt
    rw [List.getElem_range, List.take_range, Nat.min_eq_left hlt.le]
    exact_mod_cast hk hlt

/-- The two builds agree on a product, and on a square, exactly if no column misses a carry. -/
theorem builds_agree_iff (left right : Vli) :
    (vliMult left right = Ecc.vliMult left right ↔ ∀ k < 2 * numEccDigits - 1,
      multMissed left right (chain (multColumn left right) ⟨0, 0⟩ (List.range k)).2 k = 0) ∧
    (vliSquare left = Ecc.vliSquare left ↔ ∀ k < 2 * numEccDigits - 1,
      squareMissed left (chain (squareColumn left) ⟨0, 0⟩ (List.range k)).2 k = 0) := by
  refine ⟨eq_iff_missed_eq_zero ?_, eq_iff_missed_eq_zero ?_⟩
  · rw [Ecc.value_vliMult, Nat.cast_mul]
    exact value_vliMult left right
  · rw [Ecc.value_vliSquare, Nat.cast_mul]
    exact value_vliSquare left

/-- They do not agree on all numbers below the prime. -/
example : vliMult ⟨[0xffffffffffffffff, 0xffffffffffffffff, 1, 1], rfl⟩ ⟨[1, 0xffffffffffffffff, 1, 0], rfl⟩ ≠
    Ecc.vliMult ⟨[0xffffffffffffffff, 0xffffffffffffffff, 1, 1], rfl⟩ ⟨[1, 0xffffffffffffffff, 1, 0], rfl⟩ := by
  decide +kernel

end Bryllite.Ecc.Portable
