import Bryllite.Framework.Limbs
import Mathlib.Data.List.DropRight
import Mathlib.Data.List.GetD
import Mathlib.Data.Nat.Bitwise
import Mathlib.Data.Nat.Size

/-!
# Numbers of four digits (secp256r1.cpp, vli_*)

A `Vli` is `uint64_t [NUM_ECC_DIGITS]`. Each operation has one lemma that says what it
does to the values: comparison is the sign of the difference (`vliCmp_eq`), a sum with
its carry is the sum of the values (`vliAdd_value`), and so on.
-/

namespace Bryllite.Ecc

open Bryllite.Framework

/-- `NUM_ECC_DIGITS`. -/
abbrev numEccDigits : Nat := 4

abbrev Vli := Limbs 64 numEccDigits

theorem Vli.value_lt (x : Vli) : x.value < 2 ^ 256 := Limbs.value_lt x

/-- `vli_clear`. -/
def vliClear : Vli := ⟨[0, 0, 0, 0], rfl⟩

/-- The digits of a small constant. -/
def vliOf (d : BitVec 64) : Vli := ⟨[d, 0, 0, 0], rfl⟩

/-- `vli_isZero`. -/
def vliIsZero (vli : Vli) : Bool := vli.digits.all (· = 0)

/-- `vli_testBit`. -/
def vliTestBit (vli : Vli) (bit : Nat) : BitVec 64 := vli.digit (bit / 64) &&& (1#64 <<< (bit % 64))

/-- `vli_numDigits`. -/
def vliNumDigits (vli : Vli) : Nat := (vli.digits.rdropWhile (· = 0)).length

/-- The loop of `vli_numBits`, from `i` on. -/
def numBitsFrom (i : Nat) (digit : BitVec 64) : Nat :=
  if digit = 0 then i else numBitsFrom (i + 1) (digit >>> 1)
termination_by digit.toNat
decreasing_by
  rename_i h
  have : digit.toNat ≠ 0 := fun h0 => h (BitVec.eq_of_toNat_eq h0)
  rw [BitVec.toNat_ushiftRight, Nat.shiftRight_eq_div_pow, pow_one]
  omega

/-- `vli_numBits`. -/
def vliNumBits (vli : Vli) : Nat :=
  if vliNumDigits vli = 0 then 0
  else (vliNumDigits vli - 1) * 64 + numBitsFrom 0 (vli.digit (vliNumDigits vli - 1))

/-- `vli_cmp`: the more significant digits are compared first. -/
def cmpDigits : List (BitVec 64) → List (BitVec 64) → Int
  | l :: left, r :: right =>
    if cmpDigits left right ≠ 0 then cmpDigits left right else if l > r then 1 else if l < r then -1 else 0
  | _, _ => 0

/-- `vli_cmp`. -/
def vliCmp (left right : Vli) : Int := cmpDigits left.digits right.digits

/-- A digit of `vli_lshift`. -/
def lshiftStep (shift : Nat) (carry temp : BitVec 64) : BitVec 64 × BitVec 64 :=
  (temp <<< shift ||| carry, temp >>> (64 - shift))

/-- `vli_lshift`, with the carry. -/
def vliLshift (vli : Vli) (shift : Nat) : Vli × BitVec 64 := vli.mapChain (lshiftStep shift) 0

/-- A digit of `vli_rshift1`. -/
def rshift1Step (carry temp : BitVec 64) : BitVec 64 × BitVec 64 := (temp >>> 1 ||| carry, temp <<< 63)

/-- `vli_rshift1`. -/
def vliRshift1 (vli : Vli) : Vli := (vli.mapChainDown rshift1Step 0).1

/-- A digit of `vli_add`: the carry stays as it is where the sum is the left digit. -/
def addStep (carry : BitVec 64) (d : BitVec 64 × BitVec 64) : BitVec 64 × BitVec 64 :=
  let sum := d.1 + d.2 + carry
  (sum, if sum ≠ d.1 then (if sum < d.1 then 1#64 else 0#64) else carry)

/-- `vli_add`, with the carry. -/
def vliAdd (left right : Vli) : Vli × BitVec 64 := left.zipChain addStep 0 right

/-- A digit of `vli_sub`: the borrow stays as it is where the difference is the left digit. -/
def subStep (borrow : BitVec 64) (d : BitVec 64 × BitVec 64) : BitVec 64 × BitVec 64 :=
  let diff := d.1 - d.2 - borrow
  (diff, if diff ≠ d.1 then (if diff > d.1 then 1#64 else 0#64) else borrow)

/-- `vli_sub`, with the borrow. -/
def vliSub (left right : Vli) : Vli × BitVec 64 := left.zipChain subStep 0 right

/-! ## Values -/

@[simp] theorem value_vliClear : vliClear.value = 0 := rfl

@[simp] theorem value_vliOf (d : BitVec 64) : (vliOf d).value = d.toNat := by
  simp [vliOf, Limbs.value]

theorem toNat_eq_zero_iff {d : BitVec 64} : d.toNat = 0 ↔ d = 0 :=
  ⟨fun h => BitVec.eq_of_toNat_eq h, fun h => by rw [h]; rfl⟩

theorem limbsValue_eq_zero_iff {ds : List (BitVec 64)} : limbsValue ds = 0 ↔ ∀ d ∈ ds, d = 0 := by
  induction ds with
  | nil => simp
  | cons d ds ih =>
    rw [limbsValue_cons, List.forall_mem_cons, ← ih, ← toNat_eq_zero_iff]
    omega

theorem vliIsZero_iff (x : Vli) : vliIsZero x = true ↔ x.value = 0 := by
  rw [vliIsZero, Limbs.value, limbsValue_eq_zero_iff, List.all_eq_true]
  simp only [decide_eq_true_eq]

theorem vliTestBit_ne_zero_iff (x : Vli) (bit : Nat) : vliTestBit x bit ≠ 0 ↔ x.value.testBit bit = true := by
  have hb : bit % 64 < 64 := Nat.mod_lt _ (by decide)
  have hdigit : (x.digit (bit / 64)).toNat.testBit (bit % 64) = x.value.testBit bit := by
    rw [Limbs.toNat_digit, Nat.testBit_mod_two_pow, Nat.testBit_div_two_pow, Nat.mod_add_div]
    simp [hb]
  rw [← hdigit, vliTestBit, Ne, ← toNat_eq_zero_iff, BitVec.toNat_and, BitVec.toNat_shiftLeft,
    BitVec.toNat_one (by decide), Nat.one_shiftLeft, Nat.mod_eq_of_lt (Nat.pow_lt_pow_right (by decide) hb),
    Nat.and_two_pow]
  cases (x.digit (bit / 64)).toNat.testBit (bit % 64) <;> simp

/-! ## Sizes -/

theorem size_div_two (n : Nat) (h : n ≠ 0) : n.size = (n / 2).size + 1 := by
  conv_lhs => rw [← Nat.bit_bodd_div2 n, Nat.size_bit (by rwa [Nat.bit_bodd_div2]), Nat.div2_val]

theorem size_div_two_pow {n k : Nat} (h : n / 2 ^ k ≠ 0) : n.size = k + (n / 2 ^ k).size := by
  induction k with
  | zero => simp
  | succ k ih =>
    have hdiv : n / 2 ^ (k + 1) = n / 2 ^ k / 2 := by rw [pow_succ, Nat.div_div_eq_div_mul]
    rw [hdiv] at h ⊢
    have hk : n / 2 ^ k ≠ 0 := fun h0 => h (by rw [h0])
    rw [ih hk, size_div_two _ hk]
    omega

theorem numBitsFrom_eq (i : Nat) (digit : BitVec 64) : numBitsFrom i digit = i + digit.toNat.size := by
  induction i, digit using numBitsFrom.induct with
  | case1 i => rw [numBitsFrom, if_pos rfl]; simp
  | case2 i digit h ih =>
    rw [numBitsFrom, if_neg h, ih, BitVec.toNat_ushiftRight, Nat.shiftRight_eq_div_pow, pow_one,
      size_div_two digit.toNat fun h0 => h (toNat_eq_zero_iff.mp h0)]
    omega

/-- All digits from `vli_numDigits` on are 0. -/
theorem value_lt_numDigits (x : Vli) : x.value < 2 ^ (64 * vliNumDigits x) := by
  have hsplit := List.rdropWhile_append_rtakeWhile (p := fun d => decide (d = 0)) (l := x.digits)
  have hzero : limbsValue (x.digits.rtakeWhile (· = 0)) = 0 :=
    limbsValue_eq_zero_iff.mpr fun d hd =>
      of_decide_eq_true (List.mem_rtakeWhile_imp (p := fun d : BitVec 64 => decide (d = 0)) hd)
  rw [Limbs.value, ← hsplit, limbsValue_append, hzero, Nat.mul_zero, Nat.add_zero]
  exact limbsValue_lt _

/-- The last digit before is not. -/
theorem digit_numDigits_ne_zero (x : Vli) (h : vliNumDigits x ≠ 0) : x.digit (vliNumDigits x - 1) ≠ 0 := by
  rw [vliNumDigits] at h ⊢
  have hne : x.digits.rdropWhile (· = 0) ≠ [] := fun h0 => h (by rw [h0, List.length_nil])
  have hlast := List.rdropWhile_last_not (fun d => decide (d = 0)) x.digits hne
  have hlt : (x.digits.rdropWhile (· = 0)).length - 1 < (x.digits.rdropWhile (· = 0)).length := by omega
  have hprefix := (List.rdropWhile_prefix (fun d => decide (d = 0)) (l := x.digits)).getElem hlt
  rw [List.getLast_eq_getElem, hprefix] at hlast
  rw [Limbs.digit, List.getD_eq_getElem _ _ (lt_of_lt_of_le hlt (List.rdropWhile_prefix _ _).length_le)]
  exact fun h0 => hlast (decide_eq_true h0)

theorem vliNumBits_eq (x : Vli) : vliNumBits x = x.value.size := by
  have hlt := value_lt_numDigits x
  rw [vliNumBits]
  split
  · rename_i h
    rw [h, Nat.mul_zero, pow_zero, Nat.lt_one_iff] at hlt
    rw [hlt, Nat.size_zero]
  · rename_i h
    have hne := digit_numDigits_ne_zero x h
    obtain ⟨m, hm⟩ := Nat.exists_eq_succ_of_ne_zero h
    rw [hm, Nat.succ_sub_one] at hne ⊢
    rw [hm, Nat.succ_eq_add_one, Nat.mul_add_one, pow_add] at hlt
    -- The last digit that is not 0 is the value shifted down to it.
    have hdigit : (x.digit m).toNat = x.value / 2 ^ (64 * m) := by
      rw [Limbs.toNat_digit, Nat.mod_eq_of_lt (Nat.div_lt_of_lt_mul hlt)]
    rw [numBitsFrom_eq, hdigit, Nat.zero_add, Nat.mul_comm m 64, ← size_div_two_pow]
    rw [← hdigit]
    exact fun h0 => hne (toNat_eq_zero_iff.mp h0)

/-! ## Comparison, sums and shifts -/

theorem cmpDigits_eq {left right : List (BitVec 64)} (h : left.length = right.length) :
    cmpDigits left right = Int.sign (limbsValue left - limbsValue right) := by
  induction left generalizing right with
  | nil =>
    obtain rfl := List.length_eq_zero_iff.mp h.symm
    simp [cmpDigits]
  | cons l left ih =>
    obtain ⟨r, right, rfl⟩ := List.exists_cons_of_length_eq_add_one h.symm
    have hl := l.isLt
    have hr := r.isLt
    rw [cmpDigits, ih (Nat.succ.inj h), limbsValue_cons, limbsValue_cons]
    push_cast
    rcases lt_trichotomy (limbsValue left) (limbsValue right) with hlt | heq | hgt
    · rw [Int.sign_eq_neg_one_of_neg (by omega), if_pos (by decide), Int.sign_eq_neg_one_of_neg (by omega)]
    · rw [heq, Int.sub_self, Int.sign_zero, if_neg (by decide)]
      simp only [gt_iff_lt, BitVec.lt_def]
      split
      · rw [Int.sign_eq_one_of_pos (by omega)]
      · split
        · rw [Int.sign_eq_neg_one_of_neg (by omega)]
        · rw [show (l.toNat : Int) = r.toNat by omega, Int.sub_self, Int.sign_zero]
    · rw [Int.sign_eq_one_of_pos (by omega), if_pos (by decide), Int.sign_eq_one_of_pos (by omega)]

/-- `vli_cmp` is the sign of the difference. -/
theorem vliCmp_eq (x y : Vli) : vliCmp x y = Int.sign (x.value - y.value) :=
  cmpDigits_eq (x.length_digits.trans y.length_digits.symm)

theorem vliCmp_eq_one_iff (x y : Vli) : vliCmp x y = 1 ↔ y.value < x.value := by
  rw [vliCmp_eq, Int.sign_eq_one_iff_pos]
  omega

theorem vliCmp_nonneg_iff (x y : Vli) : 0 ≤ vliCmp x y ↔ y.value ≤ x.value := by
  rw [vliCmp_eq, Int.sign_nonneg_iff]
  omega

theorem vliCmp_pos_iff (x y : Vli) : 0 < vliCmp x y ↔ y.value < x.value := by
  rw [vliCmp_eq, Int.sign_pos_iff]
  omega

theorem vliCmp_neg_iff (x y : Vli) : vliCmp x y < 0 ↔ x.value < y.value := by
  rw [vliCmp_eq, Int.sign_neg_iff]
  omega

theorem vliCmp_eq_zero_iff (x y : Vli) : vliCmp x y = 0 ↔ x = y := by
  rw [vliCmp_eq, Int.sign_eq_zero_iff_zero]
  exact ⟨fun h => Limbs.value_inj (by omega), fun h => by rw [h, Int.sub_self]⟩

theorem addStep_carry (c : BitVec 64) (hc : c.toNat ≤ 1) (d : BitVec 64 × BitVec 64) :
    (addStep c d).2.toNat ≤ 1 := by
  simp only [addStep]
  split
  · split <;> decide
  · exact hc

theorem addStep_value (c : BitVec 64) (hc : c.toNat ≤ 1) (d : BitVec 64 × BitVec 64) :
    ((addStep c d).1.toNat : Int) + 2 ^ 64 * ((addStep c d).2.toNat : Int) =
      1 * d.1.toNat + 1 * d.2.toNat + c.toNat := by
  obtain ⟨a, b⟩ := d
  have ha := a.isLt
  have hb := b.isLt
  have hsum : (a + b + c).toNat = (a.toNat + b.toNat + c.toNat) % 2 ^ 64 := by
    rw [BitVec.toNat_add, BitVec.toNat_add, Nat.mod_add_mod]
  simp only [addStep, Ne, ← BitVec.toNat_inj, BitVec.lt_def, hsum]
  split
  · split
    · rw [BitVec.toNat_ofNat]
      omega
    · rw [BitVec.toNat_ofNat]
      omega
  · omega

theorem vliAdd_carry (x y : Vli) : (vliAdd x y).2.toNat ≤ 1 :=
  Limbs.zipChain_ok addStep_carry (by decide) x y

/-- `vli_add` is the sum of the values. -/
theorem vliAdd_value (x y : Vli) : (vliAdd x y).1.value + 2 ^ 256 * (vliAdd x y).2.toNat = x.value + y.value := by
  have h := Limbs.zipChain_value (fun c : BitVec 64 => (c.toNat : Int)) 1 1 addStep_carry addStep_value
    (show (0 : BitVec 64).toNat ≤ 1 by decide) x y
  rw [show (0 : BitVec 64).toNat = 0 from rfl, show 64 * numEccDigits = 256 from rfl] at h
  rw [vliAdd]
  omega

theorem subStep_borrow (c : BitVec 64) (hc : c.toNat ≤ 1) (d : BitVec 64 × BitVec 64) :
    (subStep c d).2.toNat ≤ 1 := by
  simp only [subStep]
  split
  · split <;> decide
  · exact hc

theorem subStep_value (c : BitVec 64) (hc : c.toNat ≤ 1) (d : BitVec 64 × BitVec 64) :
    ((subStep c d).1.toNat : Int) + 2 ^ 64 * -((subStep c d).2.toNat : Int) =
      1 * d.1.toNat + -1 * d.2.toNat + -c.toNat := by
  obtain ⟨a, b⟩ := d
  have ha := a.isLt
  have hb := b.isLt
  have hdiff : (a - b - c).toNat = (a.toNat + (2 ^ 64 - b.toNat) + (2 ^ 64 - c.toNat)) % 2 ^ 64 := by
    rw [BitVec.toNat_sub, BitVec.toNat_sub]
    omega
  simp only [subStep, Ne, ← BitVec.toNat_inj, gt_iff_lt, BitVec.lt_def, hdiff]
  split
  · split
    · rw [BitVec.toNat_ofNat]
      omega
    · rw [BitVec.toNat_ofNat]
      omega
  · omega

theorem vliSub_borrow (x y : Vli) : (vliSub x y).2.toNat ≤ 1 :=
  Limbs.zipChain_ok subStep_borrow (by decide) x y

/-- `vli_sub` is the difference of the values. -/
theorem vliSub_value (x y : Vli) : (vliSub x y).1.value + y.value = x.value + 2 ^ 256 * (vliSub x y).2.toNat := by
  have h := Limbs.zipChain_value (fun c : BitVec 64 => -(c.toNat : Int)) 1 (-1) subStep_borrow subStep_value
    (show (0 : BitVec 64).toNat ≤ 1 by decide) x y
  rw [show (0 : BitVec 64).toNat = 0 from rfl, show 64 * numEccDigits = 256 from rfl] at h
  rw [vliSub]
  omega

/-- It borrows exactly from the smaller number. -/
theorem vliSub_borrow_ne_zero_iff (x y : Vli) : (vliSub x y).2 ≠ 0 ↔ x.value < y.value := by
  have hv := vliSub_value x y
  have hb := vliSub_borrow x y
  have h1 := Vli.value_lt (vliSub x y).1
  have h2 := Vli.value_lt y
  rw [Ne, ← toNat_eq_zero_iff]
  omega

theorem value_vliSub_of_le {x y : Vli} (h : y.value ≤ x.value) : (vliSub x y).1.value = x.value - y.value := by
  have hv := vliSub_value x y
  have hb := (vliSub_borrow_ne_zero_iff x y).not.mpr (Nat.not_lt.mpr h)
  rw [Ne, not_not, ← toNat_eq_zero_iff] at hb
  omega

/-- The bits of a multiple of `2 ^ i` and those below. -/
theorem toNat_or_of_lt {a c : BitVec 64} {i q : Nat} (ha : a.toNat = 2 ^ i * q) (hc : c.toNat < 2 ^ i) :
    (a ||| c).toNat = a.toNat + c.toNat := by
  rw [BitVec.toNat_or, ha, Nat.two_pow_add_eq_or_of_lt hc]

theorem lshiftStep_carry {shift : Nat} (hs : shift ≤ 64) (c : BitVec 64) (_ : c.toNat < 2 ^ shift) (d : BitVec 64) :
    (lshiftStep shift c d).2.toNat < 2 ^ shift := by
  rw [lshiftStep, BitVec.toNat_ushiftRight, Nat.shiftRight_eq_div_pow, Nat.div_lt_iff_lt_mul (Nat.two_pow_pos _),
    ← pow_add, Nat.add_sub_cancel' hs]
  exact d.isLt

theorem lshiftStep_value {shift : Nat} (hs : shift ≤ 64) (c : BitVec 64) (hc : c.toNat < 2 ^ shift)
    (d : BitVec 64) : ((lshiftStep shift c d).1.toNat : Int) + 2 ^ 64 * ((lshiftStep shift c d).2.toNat : Int) =
      2 ^ shift * d.toNat + c.toNat := by
  have hpow : (2 : Nat) ^ 64 = 2 ^ shift * 2 ^ (64 - shift) := by rw [← pow_add, Nat.add_sub_cancel' hs]
  have hshl : (d <<< shift).toNat = 2 ^ shift * (d.toNat % 2 ^ (64 - shift)) := by
    rw [BitVec.toNat_shiftLeft, Nat.shiftLeft_eq, Nat.mul_comm, hpow, Nat.mul_mod_mul_left]
  rw [lshiftStep, toNat_or_of_lt hshl hc, hshl, BitVec.toNat_ushiftRight, Nat.shiftRight_eq_div_pow]
  have hd := Nat.mod_add_div d.toNat (2 ^ (64 - shift))
  have hpow' : (2 : Int) ^ 64 = 2 ^ shift * 2 ^ (64 - shift) := by exact_mod_cast hpow
  zify at hd
  rw [hpow']
  push_cast
  linear_combination (2 : Int) ^ shift * hd

/-- `vli_lshift` is the value times a power of two. -/
theorem vliLshift_value (x : Vli) {shift : Nat} (hs : shift ≤ 64) :
    (vliLshift x shift).1.value + 2 ^ 256 * (vliLshift x shift).2.toNat = 2 ^ shift * x.value := by
  have h := Limbs.mapChain_value (fun c : BitVec 64 => (c.toNat : Int))
    (2 ^ shift) (lshiftStep_carry hs) (lshiftStep_value hs) (show (0 : BitVec 64).toNat < 2 ^ shift from Nat.two_pow_pos shift) x
  rw [show (0 : BitVec 64).toNat = 0 from rfl, show 64 * numEccDigits = 256 from rfl] at h
  rw [vliLshift]
  zify
  linear_combination h

theorem rshift1Step_value (c : BitVec 64) (hc : c.toNat % 2 ^ 63 = 0) (d : BitVec 64) :
    2 * (rshift1Step c d).1.toNat + (rshift1Step c d).2.toNat / 2 ^ 63 = d.toNat + 2 ^ 64 * (c.toNat / 2 ^ 63) := by
  have hcq : c.toNat = 2 ^ 63 * (c.toNat / 2 ^ 63) := by omega
  have hd := d.isLt
  have hshr : (d >>> 1).toNat = d.toNat / 2 := by
    rw [BitVec.toNat_ushiftRight, Nat.shiftRight_eq_div_pow, pow_one]
  have hshl : (d <<< 63).toNat = d.toNat * 2 ^ 63 % 2 ^ 64 := by rw [BitVec.toNat_shiftLeft, Nat.shiftLeft_eq]
  rw [rshift1Step, BitVec.or_comm, toNat_or_of_lt hcq (by omega), hshr, hshl]
  omega

theorem rshift1Step_carry (c : BitVec 64) (_ : c.toNat % 2 ^ 63 = 0) (d : BitVec 64) :
    (rshift1Step c d).2.toNat % 2 ^ 63 = 0 := by
  rw [rshift1Step, BitVec.toNat_shiftLeft, Nat.shiftLeft_eq]
  omega

/-- `vli_rshift1` halves the value. -/
theorem value_vliRshift1 (x : Vli) : (vliRshift1 x).value = x.value / 2 := by
  have h := Limbs.mapChainDown_value (fun c : BitVec 64 => c.toNat / 2 ^ 63)
    2 rshift1Step_carry rshift1Step_value (show (0 : BitVec 64).toNat % 2 ^ 63 = 0 by decide) x
  rw [show (0 : BitVec 64).toNat = 0 from rfl, show 64 * numEccDigits = 256 from rfl] at h
  have hlast := (x.mapChainDown rshift1Step 0).2.isLt
  rw [vliRshift1]
  omega

end Bryllite.Ecc
