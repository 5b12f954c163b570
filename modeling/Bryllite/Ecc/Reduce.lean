import Bryllite.Ecc.Mult

/-!
# Arithmetic modulo the prime (secp256r1.cpp, vli_modAdd to vli_modSquare_fast)

Sums and differences are reduced by at most one addition or subtraction of the modulus.
A product of eight digits is reduced modulo `curve_p` by adding and subtracting numbers
made of its upper half (`value_collect`), and then the prime until the result is below it
(`value_reduceUp`, `value_reduceDown`). So `vli_mmod_fast` is the remainder of every
product (`value_vliMmodFast`).
-/

namespace Bryllite.Ecc

open Bryllite.Framework

/-- `curve_p`. -/
def curveP : Vli := ⟨[0xFFFFFFFFFFFFFFFF, 0x00000000FFFFFFFF, 0x0000000000000000, 0xFFFFFFFF00000001], rfl⟩

/-- `vli_modAdd`. -/
def vliModAdd (left right mod : Vli) : Vli :=
  let (result, carry) := vliAdd left right
  if carry ≠ 0 ∨ vliCmp result mod ≥ 0 then (vliSub result mod).1 else result

/-- `vli_modSub`. -/
def vliModSub (left right mod : Vli) : Vli :=
  let (result, borrow) := vliSub left right
  if borrow ≠ 0 then (vliAdd result mod).1 else result

/-- `p_result` and `l_carry` of `vli_mmod_fast`. -/
structure Reduction where
  result : Vli
  carry : Int

namespace Reduction

def value (r : Reduction) : Int := r.result.value + 2 ^ 256 * r.carry

/-- `l_carry += vli_add( p_result, p_result, l_tmp )`. -/
def add (r : Reduction) (tmp : Vli) : Reduction where
  result := (vliAdd r.result tmp).1
  carry := r.carry + (vliAdd r.result tmp).2.toNat

/-- `l_carry -= vli_sub( p_result, p_result, l_tmp )`. -/
def sub (r : Reduction) (tmp : Vli) : Reduction where
  result := (vliSub r.result tmp).1
  carry := r.carry - (vliSub r.result tmp).2.toNat

/-- `l_carry += vli_lshift( l_tmp, l_tmp, 1 )`, and `l_tmp` is added. -/
def addDouble (r : Reduction) (tmp : Vli) : Reduction :=
  { r with carry := r.carry + (vliLshift tmp 1).2.toNat }.add (vliLshift tmp 1).1

@[simp] theorem value_add (r : Reduction) (tmp : Vli) : (r.add tmp).value = r.value + tmp.value := by
  have := vliAdd_value r.result tmp
  simp only [add, value]
  omega

@[simp] theorem value_sub (r : Reduction) (tmp : Vli) : (r.sub tmp).value = r.value - tmp.value := by
  have := vliSub_value r.result tmp
  simp only [sub, value]
  omega

@[simp] theorem value_addDouble (r : Reduction) (tmp : Vli) : (r.addDouble tmp).value = r.value + 2 * tmp.value := by
  have := vliLshift_value tmp (show 1 ≤ 64 by decide)
  rw [addDouble, value_add]
  simp only [value]
  omega

theorem value_neg_iff (r : Reduction) : r.value < 0 ↔ r.carry < 0 := by
  have := r.result.value_lt
  rw [value]
  omega

end Reduction

theorem value_curveP : curveP.value = 2 ^ 256 - 2 ^ 224 + 2 ^ 192 + 2 ^ 96 - 1 := by decide +kernel

theorem curveP_ne_zero : curveP.value ≠ 0 := by decide +kernel

/-- `do l_carry += vli_add( p_result, p_result, curve_p ); while( l_carry < 0 );`. -/
def reduceUp (r : Reduction) : Reduction :=
  if (r.add curveP).carry < 0 then reduceUp (r.add curveP) else r.add curveP
termination_by (-r.value).toNat
decreasing_by
  rename_i h
  rw [← Reduction.value_neg_iff, Reduction.value_add, value_curveP] at h
  rw [Reduction.value_add, value_curveP]
  omega

theorem vliCmp_ne_one_iff (x y : Vli) : vliCmp x y ≠ 1 ↔ x.value ≤ y.value := by
  rw [Ne, vliCmp_eq_one_iff, Nat.not_lt]

/-- Where the loop subtracts the prime, the result stays positive. -/
theorem carry_sub_nonneg {r : Reduction} (h0 : 0 ≤ r.carry) (h : r.carry ≠ 0 ∨ vliCmp curveP r.result ≠ 1) :
    0 ≤ (r.sub curveP).carry := by
  have hp := value_curveP
  rw [← Int.not_lt, ← Reduction.value_neg_iff, Reduction.value_sub, Reduction.value]
  rw [vliCmp_ne_one_iff] at h
  omega

/-- `while( l_carry || vli_cmp( curve_p, p_result ) != 1 ) l_carry -= vli_sub( p_result, p_result, curve_p );`. -/
def reduceDown (r : Reduction) (h0 : 0 ≤ r.carry) : Reduction :=
  if h : r.carry ≠ 0 ∨ vliCmp curveP r.result ≠ 1 then reduceDown (r.sub curveP) (carry_sub_nonneg h0 h) else r
termination_by r.value.toNat
decreasing_by
  have hp := value_curveP
  have := carry_sub_nonneg h0 h
  rw [← Int.not_lt, ← Reduction.value_neg_iff, Reduction.value_sub] at this
  rw [Reduction.value_sub]
  omega

/-- `0xffffffffull` and `0xffffffff00000000ull`, which take half of a digit. -/
def lowMask : BitVec 64 := 0xffffffff

def highMask : BitVec 64 := 0xffffffff00000000

/-- The sums and differences of `vli_mmod_fast`, s1 to d4. The lowest digit of s2 is that of s1, 0. -/
def collect (product : VliProduct) : Reduction :=
  let p := product.digit
  let t : Reduction := ⟨⟨[p 0, p 1, p 2, p 3], rfl⟩, 0⟩
  t.addDouble ⟨[0, p 5 &&& highMask, p 6, p 7], rfl⟩
    |>.addDouble ⟨[0, p 6 <<< 32, p 6 >>> 32 ||| p 7 <<< 32, p 7 >>> 32], rfl⟩
    |>.add ⟨[p 4, p 5 &&& lowMask, 0, p 7], rfl⟩
    |>.add ⟨[p 4 >>> 32 ||| p 5 <<< 32, p 5 >>> 32 ||| (p 6 &&& highMask), p 7, p 6 >>> 32 ||| p 4 <<< 32], rfl⟩
    |>.sub ⟨[p 5 >>> 32 ||| p 6 <<< 32, p 6 >>> 32, 0, (p 4 &&& lowMask) ||| p 5 <<< 32], rfl⟩
    |>.sub ⟨[p 6, p 7, 0, p 4 >>> 32 ||| (p 5 &&& highMask)], rfl⟩
    |>.sub ⟨[p 6 >>> 32 ||| p 7 <<< 32, p 7 >>> 32 ||| p 4 <<< 32, p 4 >>> 32 ||| p 5 <<< 32, p 6 <<< 32], rfl⟩
    |>.sub ⟨[p 7, p 4 &&& highMask, p 5, p 6 &&& highMask], rfl⟩

/-- `vli_mmod_fast`. -/
def vliMmodFast (product : VliProduct) : Vli :=
  if h : (collect product).carry < 0 then (reduceUp (collect product)).result
  else (reduceDown (collect product) (Int.not_lt.mp h)).result

/-- `vli_modMult_fast`. -/
def vliModMultFast (left right : Vli) : Vli := vliMmodFast (vliMult left right)

/-- `vli_modSquare_fast`. -/
def vliModSquareFast (left : Vli) : Vli := vliMmodFast (vliSquare left)

/-! ## Sums and differences -/

/-- A sum is reduced once. Its left operand need not be reduced. -/
theorem value_vliModAdd {left right mod : Vli} (h : right.value ≤ mod.value) : (vliModAdd left right mod).value =
    if left.value + right.value < mod.value then left.value + right.value
    else left.value + right.value - mod.value := by
  have hadd := vliAdd_value left right
  have hcarry := vliAdd_carry left right
  have hlt := Vli.value_lt left
  have hlt' := Vli.value_lt (vliAdd left right).1
  have hsub := vliSub_value (vliAdd left right).1 mod
  have hborrow := vliSub_borrow (vliAdd left right).1 mod
  have hsublt := Vli.value_lt (vliSub (vliAdd left right).1 mod).1
  simp only [vliModAdd, ge_iff_le, vliCmp_nonneg_iff, Ne, ← toNat_eq_zero_iff]
  split <;> split <;> omega

theorem value_vliModSub {left right mod : Vli} (h : right.value ≤ mod.value) : (vliModSub left right mod).value =
    if right.value ≤ left.value then left.value - right.value else left.value + mod.value - right.value := by
  have hsub := vliSub_value left right
  have hborrow := vliSub_borrow left right
  have hadd := vliAdd_value (vliSub left right).1 mod
  have hcarry := vliAdd_carry (vliSub left right).1 mod
  have hlt := Vli.value_lt mod
  have hlt' := Vli.value_lt (vliSub left right).1
  have hlt'' := Vli.value_lt (vliAdd (vliSub left right).1 mod).1
  have hleft := Vli.value_lt left
  simp only [vliModSub, Ne, ← toNat_eq_zero_iff]
  split <;> split <;> omega

/-! ## Reduction of products -/

theorem value_vli (a b c d : BitVec 64) (h : [a, b, c, d].length = numEccDigits) :
    Limbs.value (w := 64) ⟨[a, b, c, d], h⟩ =
      a.toNat + 2 ^ 64 * b.toNat + 2 ^ 128 * c.toNat + 2 ^ 192 * d.toNat := by
  simp only [Limbs.value, limbsValue_cons, limbsValue_nil]
  omega

theorem toNat_and_lowMask (a : BitVec 64) : (a &&& lowMask).toNat = a.toNat % 2 ^ 32 := by
  rw [BitVec.toNat_and]
  exact Nat.and_two_pow_sub_one_eq_mod a.toNat 32

theorem toNat_and_highMask (a : BitVec 64) : (a &&& highMask).toNat = 2 ^ 32 * (a.toNat / 2 ^ 32) := by
  have hdiv : (a.toNat &&& highMask.toNat) / 2 ^ 32 = a.toNat / 2 ^ 32 := by
    rw [Nat.and_div_two_pow, show highMask.toNat / 2 ^ 32 = 2 ^ 32 - 1 from rfl, Nat.and_two_pow_sub_one_eq_mod]
    exact Nat.mod_eq_of_lt (Nat.div_lt_of_lt_mul a.isLt)
  have hmod : (a.toNat &&& highMask.toNat) % 2 ^ 32 = 0 := by
    rw [Nat.and_mod_two_pow, show highMask.toNat % 2 ^ 32 = 0 from rfl, Nat.and_zero]
  rw [BitVec.toNat_and, ← hdiv]
  omega

theorem toNat_shr (a : BitVec 64) : (a >>> 32).toNat = a.toNat / 2 ^ 32 := by
  rw [BitVec.toNat_ushiftRight, Nat.shiftRight_eq_div_pow]

theorem toNat_shl (a : BitVec 64) : (a <<< 32).toNat = 2 ^ 32 * (a.toNat % 2 ^ 32) := by
  rw [BitVec.toNat_shiftLeft, Nat.shiftLeft_eq]
  omega

theorem toNat_shr_or_shl (a b : BitVec 64) :
    (a >>> 32 ||| b <<< 32).toNat = a.toNat / 2 ^ 32 + 2 ^ 32 * (b.toNat % 2 ^ 32) := by
  rw [BitVec.or_comm, toNat_or_of_lt (toNat_shl b), toNat_shl, toNat_shr, Nat.add_comm]
  rw [toNat_shr]
  exact Nat.div_lt_of_lt_mul a.isLt

theorem toNat_shr_or_highMask (a b : BitVec 64) :
    (a >>> 32 ||| (b &&& highMask)).toNat = a.toNat / 2 ^ 32 + 2 ^ 32 * (b.toNat / 2 ^ 32) := by
  rw [BitVec.or_comm, toNat_or_of_lt (toNat_and_highMask b), toNat_and_highMask, toNat_shr, Nat.add_comm]
  rw [toNat_shr]
  exact Nat.div_lt_of_lt_mul a.isLt

theorem toNat_lowMask_or_shl (a b : BitVec 64) :
    ((a &&& lowMask) ||| b <<< 32).toNat = a.toNat % 2 ^ 32 + 2 ^ 32 * (b.toNat % 2 ^ 32) := by
  rw [BitVec.or_comm, toNat_or_of_lt (toNat_shl b), toNat_shl, toNat_and_lowMask, Nat.add_comm]
  rw [toNat_and_lowMask]
  exact Nat.mod_lt _ (by decide)

theorem value_product (p : VliProduct) : p.value = (p.digit 0).toNat + 2 ^ 64 * (p.digit 1).toNat +
    2 ^ 128 * (p.digit 2).toNat + 2 ^ 192 * (p.digit 3).toNat + 2 ^ 256 * ((p.digit 4).toNat + 2 ^ 64 * (p.digit 5).toNat +
    2 ^ 128 * (p.digit 6).toNat + 2 ^ 192 * (p.digit 7).toNat) := by
  have h (i : Nat) : (2 : Nat) ^ (64 * (4 + i)) = 2 ^ 256 * 2 ^ (64 * i) := by rw [Nat.mul_add, pow_add]
  rw [Limbs.value_eq_sum]
  simp only [numEccDigits, Finset.sum_range_succ, Finset.sum_range_zero]
  rw [h 0, h 1, h 2, h 3]
  ring

/-- What `s1` to `d4` leave is the product less a multiple of the prime. -/
theorem value_collect (product : VliProduct) :
    ∃ q : Int, (collect product).value = product.value - curveP.value * q := by
  rw [value_product, value_curveP]
  simp only [collect, Reduction.value_add, Reduction.value_sub, Reduction.value_addDouble, value_vli,
    toNat_and_lowMask, toNat_and_highMask, toNat_shr, toNat_shl, toNat_shr_or_shl, toNat_shr_or_highMask,
    toNat_lowMask_or_shl, show (0 : BitVec 64).toNat = 0 from rfl]
  generalize hp4 : (product.digit 4).toNat = p4
  generalize hp5 : (product.digit 5).toNat = p5
  generalize hp6 : (product.digit 6).toNat = p6
  generalize hp7 : (product.digit 7).toNat = p7
  -- The multiples of the prime by which 2 ^ 256, 2 ^ 288, ... exceed what stands for them.
  refine ⟨(p4 % 2 ^ 32 : Nat) + 4294967297 * (p4 / 2 ^ 32 : Nat) + 18446744078004518912 * (p5 % 2 ^ 32 : Nat) +
    79228162532711081667253501951 * (p5 / 2 ^ 32 : Nat) +
    340282367000166625977638945021017194495 * (p6 % 2 ^ 32 : Nat) +
    1461501637671185285124623296161210883009696235519 * (p6 / 2 ^ 32 : Nat) +
    6277101736848182401166692341332123086285927382448418586623 * (p7 % 2 ^ 32 : Nat) +
    26959946673427741530053695850515137729844644212646842236464328081408 * (p7 / 2 ^ 32 : Nat), ?_⟩
  simp only [Reduction.value, value_vli]
  omega

/-- The prime is added until the carry is gone. -/
theorem value_reduceUp (r : Reduction) (h : r.value < 0) :
    ∃ k : Nat, (reduceUp r).result.value = r.value + k * curveP.value ∧ (reduceUp r).result.value < curveP.value := by
  induction r using reduceUp.induct with
  | case1 r hneg ih =>
    obtain ⟨k, hk, hlt⟩ := ih (Reduction.value_neg_iff _ |>.mpr hneg)
    rw [reduceUp, if_pos hneg]
    refine ⟨k + 1, ?_, hlt⟩
    rw [hk, Reduction.value_add]
    push_cast
    ring
  | case2 r hneg =>
    rw [reduceUp, if_neg hneg]
    rw [← Reduction.value_neg_iff, Int.not_lt] at hneg
    have hp := value_curveP
    have hvalue := Reduction.value_add r curveP
    have hlt := (r.add curveP).result.value_lt
    rw [Reduction.value] at hneg hvalue
    refine ⟨1, ?_, ?_⟩ <;> omega

/-- The prime is subtracted until the result is below it. -/
theorem value_reduceDown (r : Reduction) (h : 0 ≤ r.carry) : ∃ k : Nat,
    (reduceDown r h).result.value = r.value - k * curveP.value ∧ (reduceDown r h).result.value < curveP.value := by
  induction r, h using reduceDown.induct with
  | case1 r h0 h ih =>
    obtain ⟨k, hk, hlt⟩ := ih
    rw [reduceDown, dif_pos h]
    refine ⟨k + 1, ?_, hlt⟩
    rw [hk, Reduction.value_sub]
    push_cast
    ring
  | case2 r h0 h =>
    rw [reduceDown, dif_neg h]
    rw [not_or, not_not, Ne, not_not, vliCmp_eq_one_iff] at h
    refine ⟨0, ?_, h.2⟩
    rw [Reduction.value, h.1]
    simp

/-- `vli_mmod_fast` is the remainder. -/
theorem value_vliMmodFast (product : VliProduct) : (vliMmodFast product).value = product.value % curveP.value := by
  obtain ⟨q, hq⟩ := value_collect product
  have hmod : ∀ (v : Nat) (k : Int), (v : Int) = (collect product).value + k * curveP.value → v < curveP.value →
      v = product.value % curveP.value := by
    intro v k hv hlt
    have hv : (v : Int) = product.value + curveP.value * (k - q) := by
      rw [hv, hq]
      ring
    have := Int.add_mul_emod_self_left (product.value : Int) curveP.value (k - q)
    rw [← hv, Int.emod_eq_of_lt (Int.natCast_nonneg _) (by exact_mod_cast hlt)] at this
    exact_mod_cast this
  rw [vliMmodFast]
  split
  · rename_i h
    obtain ⟨k, hk, hlt⟩ := value_reduceUp _ (Reduction.value_neg_iff _ |>.mpr h)
    exact hmod _ k hk hlt
  · rename_i h
    obtain ⟨k, hk, hlt⟩ := value_reduceDown _ (Int.not_lt.mp h)
    exact hmod _ (-k) (by rw [hk]; ring) hlt

theorem value_vliModMultFast (left right : Vli) :
    (vliModMultFast left right).value = left.value * right.value % curveP.value := by
  rw [vliModMultFast, value_vliMmodFast, value_vliMult]

theorem value_vliModSquareFast (left : Vli) :
    (vliModSquareFast left).value = left.value * left.value % curveP.value := by
  rw [vliModSquareFast, value_vliMmodFast, value_vliSquare]

/-- The loops of `vli_mmod_fast` end for every product, with its remainder; and
`vli_modSquare_fast` is `vli_modMult_fast` of a number with itself. -/
theorem reductions_exact (product : VliProduct) (left right : Vli) :
    (vliMmodFast product).value = product.value % curveP.value ∧
    (vliModMultFast left right).value = left.value * right.value % curveP.value ∧
    vliModSquareFast left = vliModMultFast left left :=
  ⟨value_vliMmodFast product, value_vliModMultFast left right,
    Limbs.value_inj ((value_vliModSquareFast left).trans (value_vliModMultFast left left).symm)⟩

end Bryllite.Ecc
