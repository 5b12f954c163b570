import Bryllite.Ecc.ModInv

/-!
# Products modulo any number (secp256r1.cpp, vli_modMult)

The modulus is shifted up to the length of the product and subtracted where it is not
above what is left of it, one bit further down at a time. Each round keeps the remainder
and halves the bound on what is left (`ReduceInv.round`), so the result is the remainder
(`value_vliModMult`).
-/

namespace Bryllite.Ecc

open Bryllite.Framework

/-- Eight digits, of which the source takes either half by its address. -/
structure Wide where
  low : Vli
  high : Vli

namespace Wide

def value (x : Wide) : Nat := x.low.value + 2 ^ 256 * x.high.value

def ofProduct (p : VliProduct) : Wide where
  low := ⟨p.digits.take numEccDigits, by rw [List.length_take, p.length_digits]; rfl⟩
  high := ⟨p.digits.drop numEccDigits, by rw [List.length_drop, p.length_digits]; rfl⟩

/-- The number of its bits. -/
def numBits (x : Wide) : Nat :=
  if vliNumBits x.high ≠ 0 then vliNumBits x.high + numEccDigits * 64 else vliNumBits x.low

/-- `x` is not above `y`. -/
def le (x y : Wide) : Bool := vliCmp x.high y.high < 0 || vliCmp x.high y.high = 0 && vliCmp x.low y.low ≤ 0

/-- A difference: a borrow of the lower half is taken from the upper one. -/
def sub (x y : Wide) : Wide :=
  let high := if (vliSub x.low y.low).2 ≠ 0 then (vliSub x.high (vliOf 1)).1 else x.high
  { low := (vliSub x.low y.low).1, high := (vliSub high y.high).1 }

/-- Half of it: the lowest bit of the upper half goes to the lower one. -/
def rshift1 (x : Wide) : Wide where
  low := orTop (vliRshift1 x.low) ((x.high.digit 0 &&& 1#64) <<< 63)
  high := vliRshift1 x.high

end Wide

/-- `l_modMultiple`: the modulus, shifted by `bits`. -/
def modMultiple (mod : Vli) (bits : Nat) : VliProduct where
  digits := (List.replicate (bits / 64) 0 ++
    (if bits % 64 ≠ 0 then (vliLshift mod (bits % 64)).1.digits ++ [(vliLshift mod (bits % 64)).2] else mod.digits) ++
    List.replicate (2 * numEccDigits) 0).take (2 * numEccDigits)
  length_digits := by rw [List.length_take, List.length_append, List.length_replicate]; omega

/-! ## Halves -/

namespace Wide

theorem value_ofProduct (p : VliProduct) : (ofProduct p).value = p.value := by
  have h := limbsValue_append (p.digits.take numEccDigits) (p.digits.drop numEccDigits)
  rw [List.take_append_drop, List.length_take, p.length_digits] at h
  rw [Limbs.value, h]
  rfl

theorem size_add_mul {a b k : Nat} (ha : a < 2 ^ k) (hb : b ≠ 0) : (a + 2 ^ k * b).size = b.size + k := by
  have hdiv : (a + 2 ^ k * b) / 2 ^ k = b := by
    rw [Nat.add_mul_div_left _ _ (Nat.two_pow_pos k), Nat.div_eq_of_lt ha, Nat.zero_add]
  rw [size_div_two_pow (k := k) (by rwa [hdiv]), hdiv, Nat.add_comm]

theorem numBits_eq (x : Wide) : x.numBits = x.value.size := by
  rw [numBits, vliNumBits_eq, vliNumBits_eq, value]
  split
  · rename_i h
    exact (size_add_mul x.low.value_lt fun h0 => h (by rw [h0, Nat.size_zero])).symm
  · rename_i h
    rw [Ne, not_not, Nat.size_eq_zero] at h
    rw [h, Nat.mul_zero, Nat.add_zero]

theorem le_iff (x y : Wide) : x.le y = true ↔ x.value ≤ y.value := by
  have hx := x.low.value_lt
  have hy := y.low.value_lt
  have hle : vliCmp x.low y.low ≤ 0 ↔ x.low.value ≤ y.low.value := by
    rw [← Int.not_lt, vliCmp_pos_iff, Nat.not_lt]
  have heq : vliCmp x.high y.high = 0 ↔ x.high.value = y.high.value := by
    rw [vliCmp_eq_zero_iff]
    exact ⟨congrArg Limbs.value, Limbs.value_inj⟩
  simp only [le, Bool.or_eq_true, Bool.and_eq_true, decide_eq_true_eq, vliCmp_neg_iff, hle, heq, value]
  omega

theorem value_sub {x y : Wide} (h : y.value ≤ x.value) : (x.sub y).value = x.value - y.value := by
  have hlow := vliSub_value x.low y.low
  have hborrow := vliSub_borrow x.low y.low
  have hlt := Vli.value_lt (vliSub x.low y.low).1
  have hylt := y.low.value_lt
  have hone : (vliOf 1).value = 1 := by rw [value_vliOf]; rfl
  rw [value, value] at h
  simp only [sub, value, Ne, ← toNat_eq_zero_iff]
  split
  · have hone' := value_vliSub_of_le (x := x.high) (y := vliOf 1) (by omega)
    have hhigh := value_vliSub_of_le (x := (vliSub x.high (vliOf 1)).1) (y := y.high) (by omega)
    omega
  · have hhigh := value_vliSub_of_le (x := x.high) (y := y.high) (by omega)
    omega

theorem value_rshift1 (x : Wide) : x.rshift1.value = x.value / 2 := by
  have hand : (x.high.digit 0 &&& 1#64).toNat = x.high.value % 2 := by
    have hdigit := Limbs.toNat_digit x.high 0
    rw [BitVec.toNat_and]
    refine (Nat.and_two_pow_sub_one_eq_mod _ 1).trans ?_
    rw [hdigit]
    simp only [Nat.mul_zero, pow_zero, Nat.div_one]
    omega
  have hbit : ((x.high.digit 0 &&& 1#64) <<< 63).toNat = 2 ^ 63 * (x.high.value % 2) := by
    rw [BitVec.toNat_shiftLeft, hand, Nat.shiftLeft_eq]
    omega
  have hlow := value_vliRshift1 x.low
  have hlt := x.low.value_lt
  have htop := value_orTop (vliRshift1 x.low) ((x.high.digit 0 &&& 1#64) <<< 63) (by omega) (by omega)
  rw [rshift1, value, htop, hlow, hbit, value_vliRshift1, value]
  omega

end Wide

theorem limbsValue_replicate_zero (k : Nat) : limbsValue (List.replicate k (0 : BitVec 64)) = 0 :=
  limbsValue_eq_zero_iff.mpr fun _ => List.eq_of_mem_replicate

/-- Digits at an offset, and zeros around them as far as there is room. -/
theorem limbsValue_place (ds : List (BitVec 64)) {k n : Nat} (h : k + ds.length ≤ n) :
    limbsValue ((List.replicate k 0 ++ ds ++ List.replicate n 0).take n) = 2 ^ (64 * k) * limbsValue ds := by
  have hlen : (List.replicate k (0 : BitVec 64) ++ ds).length = k + ds.length := by
    rw [List.length_append, List.length_replicate]
  rw [List.take_append, hlen, List.take_of_length_le (by omega), List.take_replicate, limbsValue_append,
    limbsValue_append, limbsValue_replicate_zero, limbsValue_replicate_zero, List.length_replicate, Nat.zero_add,
    Nat.mul_zero, Nat.add_zero]

/-- It is the modulus times a power of two, where there is room. -/
theorem value_modMultiple (mod : Vli) {bits : Nat} (h : bits ≤ 256) :
    (modMultiple mod bits).value = mod.value * 2 ^ bits := by
  have hshift := vliLshift_value mod (Nat.le_of_lt (Nat.mod_lt bits (show 0 < 64 by decide)))
  have hlen := (vliLshift mod (bits % 64)).1.length_digits
  have hpow : (2 : Nat) ^ bits = 2 ^ (64 * (bits / 64)) * 2 ^ (bits % 64) := by rw [← pow_add, Nat.div_add_mod]
  rw [Limbs.value, modMultiple]
  split
  · rw [limbsValue_place, limbsValue_append, hlen, limbsValue_cons, limbsValue_nil, Nat.mul_zero, Nat.add_zero,
      show 64 * numEccDigits = 256 from rfl, hpow]
    · rw [Limbs.value] at hshift
      rw [hshift, Limbs.value]
      ring
    · rw [List.length_append, hlen, List.length_singleton, show numEccDigits = 4 from rfl]
      omega
  · rename_i hb
    rw [Ne, not_not] at hb
    rw [limbsValue_place, hpow, hb, pow_zero, Nat.mul_one, Nat.mul_comm, Limbs.value]
    rw [mod.length_digits, show numEccDigits = 4 from rfl]
    omega

/-! ## The loop -/

/-- `l_product`, `l_modMultiple` and `l_productBits` of `vli_modMult`. -/
structure ModMult where
  product : Wide
  multiple : Wide
  productBits : Nat

/-- The condition of the loop. -/
def modMultCond (mod : Vli) (s : ModMult) : Bool :=
  s.productBits > numEccDigits * 64 || vliCmp s.multiple.low mod ≥ 0

/-- The body of the loop. -/
def modMultBody (s : ModMult) : ModMult where
  product := if s.multiple.le s.product then s.product.sub s.multiple else s.product
  multiple := s.multiple.rshift1
  productBits := s.productBits - 1

/-- A round takes a bit off or halves the multiple. -/
theorem modMultBody_lt {mod : Vli} (hmod : mod.value ≠ 0) {s : ModMult} (h : modMultCond mod s = true) :
    (modMultBody s).productBits + (modMultBody s).multiple.value < s.productBits + s.multiple.value := by
  rw [modMultCond, Bool.or_eq_true, decide_eq_true_eq, decide_eq_true_eq, ge_iff_le, vliCmp_nonneg_iff] at h
  have hle : s.multiple.low.value ≤ s.multiple.value := Nat.le_add_right _ _
  simp only [modMultBody, Wide.value_rshift1]
  omega

/-- The loop of `vli_modMult`. -/
def modMultLoop (mod : Vli) (hmod : mod.value ≠ 0) (s : ModMult) : ModMult :=
  if _h : modMultCond mod s then modMultLoop mod hmod (modMultBody s) else s
termination_by s.productBits + s.multiple.value
decreasing_by exact modMultBody_lt hmod _h

/-- `vli_modMult`. With modulus 0 its loop does not end. -/
def vliModMult (left right mod : Vli) (hmod : mod.value ≠ 0) : Vli :=
  let product := Wide.ofProduct (vliMult left right)
  if product.numBits < vliNumBits mod then product.low
  else
    (modMultLoop mod hmod ⟨product, Wide.ofProduct (modMultiple mod (product.numBits - vliNumBits mod)),
      product.numBits⟩).product.low

/-- What the loop keeps for a modulus `m` of 256 bits and a number `x`: the multiple is the
modulus shifted, until it is half of it, and what is left is below twice the multiple. -/
structure ReduceInv (m x : Nat) (s : ModMult) : Prop where
  modEq : s.product.value ≡ x [MOD m]
  bound : (∃ k, s.productBits = 256 + k ∧ s.multiple.value = m * 2 ^ k ∧ s.product.value < m * 2 ^ (k + 1)) ∨
    s.productBits = 255 ∧ s.multiple.value = m / 2 ∧ s.product.value < m

variable {mod : Vli} {x : Nat} {s : ModMult}

/-- The loop goes on while the modulus is not shifted below itself. -/
theorem ReduceInv.cond_iff (h : ReduceInv mod.value x s) (hm : 0 < mod.value) :
    modMultCond mod s = true ↔ 256 ≤ s.productBits := by
  have hlt := mod.value_lt
  rw [modMultCond, Bool.or_eq_true, decide_eq_true_eq, decide_eq_true_eq, ge_iff_le, vliCmp_nonneg_iff,
    show numEccDigits * 64 = 256 from rfl]
  rcases h.bound with ⟨k, hbits, hvalue, -⟩ | ⟨hbits, hvalue, -⟩
  · refine iff_of_true ?_ (by omega)
    rcases Nat.eq_zero_or_pos k with rfl | hk
    · right
      rw [pow_zero, Nat.mul_one, Wide.value] at hvalue
      omega
    · left
      omega
  · refine iff_of_false ?_ (by omega)
    rw [Wide.value] at hvalue
    omega

/-- A round. -/
theorem ReduceInv.round (h : ReduceInv mod.value x s) (hbits : 256 ≤ s.productBits) :
    ReduceInv mod.value x (modMultBody s) := by
  obtain ⟨k, hk, hvalue, hlt⟩ : ∃ k, s.productBits = 256 + k ∧ s.multiple.value = mod.value * 2 ^ k ∧
      s.product.value < mod.value * 2 ^ (k + 1) := by
    rcases h.bound with h | h
    · exact h
    · omega
  -- What is left is now below the multiple.
  have hround : (modMultBody s).product.value ≡ x [MOD mod.value] ∧
      (modMultBody s).product.value < mod.value * 2 ^ k := by
    rw [pow_succ, ← Nat.mul_assoc, ← hvalue] at hlt
    rw [← hvalue]
    simp only [modMultBody]
    split
    · rename_i hle
      rw [Wide.le_iff] at hle
      rw [Wide.value_sub hle]
      refine ⟨Nat.ModEq.trans ?_ h.modEq, by omega⟩
      have hzero : s.multiple.value ≡ 0 [MOD mod.value] := by
        rw [hvalue, Nat.modEq_zero_iff_dvd]
        exact Nat.dvd_mul_right _ _
      refine Nat.ModEq.add_right_cancel hzero ?_
      rw [Nat.sub_add_cancel hle, Nat.add_zero]
    · rename_i hle
      rw [Wide.le_iff] at hle
      exact ⟨h.modEq, by omega⟩
  refine ⟨hround.1, ?_⟩
  have hhalf : (modMultBody s).multiple.value = mod.value * 2 ^ k / 2 := by rw [modMultBody, Wide.value_rshift1, hvalue]
  have hbits' : (modMultBody s).productBits = s.productBits - 1 := rfl
  cases k with
  | zero =>
    right
    rw [pow_zero, Nat.mul_one] at hhalf hround
    exact ⟨by omega, hhalf, hround.2⟩
  | succ k =>
    left
    refine ⟨k, by omega, ?_, hround.2⟩
    rw [hhalf, pow_succ, ← Nat.mul_assoc, Nat.mul_div_cancel _ (by decide)]

/-- The loop ends with the remainder. -/
theorem ReduceInv.loop (hmod : mod.value ≠ 0) (h : ReduceInv mod.value x s) :
    (modMultLoop mod hmod s).product.value = x % mod.value := by
  induction s using modMultLoop.induct mod hmod with
  | case1 s hcond ih =>
    rw [modMultLoop, dif_pos hcond]
    exact ih (h.round ((h.cond_iff (Nat.pos_of_ne_zero hmod)).mp hcond))
  | case2 s hcond =>
    rw [modMultLoop, dif_neg hcond]
    have hbits := (h.cond_iff (Nat.pos_of_ne_zero hmod)).not.mp hcond
    rcases h.bound with ⟨k, hk, -⟩ | ⟨-, -, hlt⟩
    · omega
    · rw [← h.modEq, Nat.mod_eq_of_lt hlt]

theorem size_le_add {a i j : Nat} (h : a < 2 ^ i * 2 ^ j) : a.size ≤ i + j :=
  Nat.size_le.mpr (by rwa [pow_add])

/-- `vli_modMult` is the remainder of the product, for a modulus of 256 bits. -/
theorem value_vliModMult (left right : Vli) {mod : Vli} (hmod : mod.value ≠ 0) (htop : 2 ^ 255 ≤ mod.value) :
    (vliModMult left right mod hmod).value = left.value * right.value % mod.value := by
  have hmodlt := mod.value_lt
  have hsize : vliNumBits mod = 256 := by
    rw [vliNumBits_eq]
    exact le_antisymm (Nat.size_le.mpr hmodlt) (Nat.lt_size.mpr htop)
  have hproduct : (Wide.ofProduct (vliMult left right)).value = left.value * right.value := by
    rw [Wide.value_ofProduct, value_vliMult]
  rw [← hproduct, vliModMult, hsize]
  generalize Wide.ofProduct (vliMult left right) = product
  simp only [Wide.numBits_eq]
  -- A number below the modulus has nothing in the upper half.
  have hlow : ∀ p : Wide, p.value < mod.value → p.low.value = p.value := fun p hp => by
    rw [Wide.value] at hp ⊢
    omega
  split
  · rename_i h
    have hlt : product.value < mod.value := lt_of_lt_of_le (Nat.size_le.mp (Nat.le_of_lt_succ h)) htop
    rw [hlow product hlt, Nat.mod_eq_of_lt hlt]
  · rename_i h
    have hwide : product.value < 2 ^ 256 * 2 ^ 256 := by
      have h1 := product.low.value_lt
      have h2 := product.high.value_lt
      rw [Wide.value]
      omega
    have hsize' : product.value.size ≤ 256 + 256 := size_le_add hwide
    obtain ⟨k, hk⟩ := Nat.exists_eq_add_of_le (Nat.not_lt.mp h)
    have hinv : ReduceInv mod.value product.value
        ⟨product, Wide.ofProduct (modMultiple mod (product.value.size - 256)), product.value.size⟩ := by
      refine ⟨rfl, Or.inl ⟨k, hk, ?_, ?_⟩⟩
      · rw [Wide.value_ofProduct, value_modMultiple mod (by omega), hk, Nat.add_sub_cancel_left]
      · have := Nat.lt_size_self product.value
        calc product.value < 2 ^ product.value.size := this
          _ = 2 ^ 255 * 2 ^ (k + 1) := by rw [hk, ← pow_add]; congr 1; omega
          _ ≤ mod.value * 2 ^ (k + 1) := Nat.mul_le_mul_right _ htop
    have hloop := hinv.loop hmod
    rw [hlow _ (by rw [hloop]; exact Nat.mod_lt _ (Nat.pos_of_ne_zero hmod)), hloop]

/-- `vli_modMult` is the remainder modulo any number of 256 bits, and so it is
`vli_modMult_fast` modulo the prime. -/
theorem vliModMult_exact (left right : Vli) {mod : Vli} (hmod : mod.value ≠ 0) (htop : 2 ^ 255 ≤ mod.value) :
    (vliModMult left right mod hmod).value = left.value * right.value % mod.value ∧
      (mod = curveP → vliModMult left right mod hmod = vliModMultFast left right) := by
  refine ⟨value_vliModMult left right hmod htop, ?_⟩
  rintro rfl
  exact Limbs.value_inj ((value_vliModMult left right hmod htop).trans (value_vliModMultFast left right).symm)

theorem vliModMult_exact_sample : 2 ^ 255 ≤ curveP.value ∧
    (vliModMult (vliOf 2) curveP curveP curveP_ne_zero).value = 0 := by
  have htop : 2 ^ 255 ≤ curveP.value := by decide +kernel
  have h := (vliModMult_exact (vliOf 2) curveP curveP_ne_zero htop).1
  exact ⟨htop, h.trans (Nat.mul_mod_left _ _)⟩

end Bryllite.Ecc
