import Bryllite.Ecc.Vli

/-!
# Products (secp256r1.cpp, vli_mult and vli_square)

The digits of a product are made column by column, with an accumulator of three words
that keeps the carries (`MultAcc`). With 128-bit integers no carry is lost: a term adds
its product (`addProduct_value`), a column the sum of its terms (`foldl_value`), and the
columns make the product (`value_vliMult`) and the square (`value_vliSquare`).
-/

namespace Bryllite.Ecc

open Bryllite.Framework

/-- `l_product`: the digits of a product. -/
abbrev VliProduct := Limbs 64 (2 * numEccDigits)

/-- `r01` and `r2`. -/
structure MultAcc where
  r01 : BitVec 128
  r2 : BitVec 64

namespace MultAcc

def value (acc : MultAcc) : Nat := acc.r01.toNat + 2 ^ 128 * acc.r2.toNat

end MultAcc

/-- `l_min`. -/
def lMin (k : Nat) : Nat := if k < numEccDigits then 0 else k + 1 - numEccDigits

/-- The loop over `i` of `vli_mult`. -/
def multTerms (k : Nat) : List Nat := (List.range numEccDigits).filter fun i => lMin k ≤ i && i ≤ k

/-- The loop over `i` of `vli_square`. -/
def squareTerms (k : Nat) : List Nat :=
  (List.range numEccDigits).filter fun i => lMin k ≤ i && i ≤ k && i ≤ k - i

/-- A product is added to the accumulator. -/
def addProduct (acc : MultAcc) (product : BitVec 128) : MultAcc where
  r01 := acc.r01 + product
  r2 := acc.r2 + if acc.r01 + product < product then 1#64 else 0#64

/-- A term of `vli_mult`. -/
def multTerm (left right : Vli) (k : Nat) (acc : MultAcc) (i : Nat) : MultAcc :=
  addProduct acc ((left.digit i).setWidth 128 * (right.digit (k - i)).setWidth 128)

/-- A term of `vli_square`. -/
def squareTerm (left : Vli) (k : Nat) (acc : MultAcc) (i : Nat) : MultAcc :=
  let product := (left.digit i).setWidth 128 * (left.digit (k - i)).setWidth 128
  if i < k - i then
    addProduct { acc with r2 := acc.r2 + (product >>> 127).setWidth 64 } (product * 2#128)
  else addProduct acc product

/-- A digit of the result, and `r01` for the next one. -/
def nextDigit (acc : MultAcc) : BitVec 64 × BitVec 128 :=
  (acc.r01.setWidth 64, acc.r01 >>> 64 ||| acc.r2.setWidth 128 <<< 64)

/-- All digits of the result, from what each column makes of `r01`, whose low word is the last one. -/
def columns {κ : Type} (column : κ → Nat → BitVec 64 × κ) (low : κ → BitVec 64) (r01 : κ) : VliProduct where
  digits := (chain column r01 (List.range (2 * numEccDigits - 1))).1 ++
    [low (chain column r01 (List.range (2 * numEccDigits - 1))).2]
  length_digits := by rw [List.length_append, length_chain]; rfl

/-- The column `k` of `vli_mult`. -/
def multColumn (left right : Vli) (r01 : BitVec 128) (k : Nat) : BitVec 64 × BitVec 128 :=
  nextDigit ((multTerms k).foldl (multTerm left right k) ⟨r01, 0⟩)

/-- `vli_mult`. -/
def vliMult (left right : Vli) : VliProduct := columns (multColumn left right) (·.setWidth 64) 0

/-- The column `k` of `vli_square`. -/
def squareColumn (left : Vli) (r01 : BitVec 128) (k : Nat) : BitVec 64 × BitVec 128 :=
  nextDigit ((squareTerms k).foldl (squareTerm left k) ⟨r01, 0⟩)

/-- `vli_square`. -/
def vliSquare (left : Vli) : VliProduct := columns (squareColumn left) (·.setWidth 64) 0

/-! ## Terms -/

theorem toNat_product (a b : BitVec 64) : (a.setWidth 128 * b.setWidth 128).toNat = a.toNat * b.toNat := by
  have h := Nat.mul_lt_mul'' a.isLt b.isLt
  rw [BitVec.toNat_mul, BitVec.toNat_setWidth, BitVec.toNat_setWidth,
    Nat.mod_eq_of_lt (lt_trans a.isLt (by decide)), Nat.mod_eq_of_lt (lt_trans b.isLt (by decide)), Nat.mod_eq_of_lt h]

theorem addProduct_value (acc : MultAcc) (product : BitVec 128) (h : acc.r2.toNat + 1 < 2 ^ 64) :
    (addProduct acc product).value = acc.value + product.toNat ∧
      (addProduct acc product).r2.toNat ≤ acc.r2.toNat + 1 := by
  have h1 := acc.r01.isLt
  have h2 := product.isLt
  simp only [addProduct, MultAcc.value, BitVec.lt_def, BitVec.toNat_add]
  split
  · rw [BitVec.toNat_ofNat]
    omega
  · rw [BitVec.toNat_ofNat]
    omega

theorem multTerm_value (left right : Vli) (k : Nat) {acc : MultAcc} (i : Nat) (h : acc.r2.toNat + 2 < 2 ^ 64) :
    (multTerm left right k acc i).value = acc.value + (left.digit i).toNat * (right.digit (k - i)).toNat ∧
      (multTerm left right k acc i).r2.toNat ≤ acc.r2.toNat + 2 := by
  have := addProduct_value acc ((left.digit i).setWidth 128 * (right.digit (k - i)).setWidth 128) (by omega)
  rw [toNat_product] at this
  exact ⟨this.1, this.2.trans (by omega)⟩

/-- The weight of a term of a square. -/
def squareWeight (k i : Nat) : Nat := if i < k - i then 2 else 1

theorem squareTerm_value (left : Vli) (k : Nat) {acc : MultAcc} (i : Nat) (h : acc.r2.toNat + 2 < 2 ^ 64) :
    (squareTerm left k acc i).value =
        acc.value + squareWeight k i * ((left.digit i).toNat * (left.digit (k - i)).toNat) ∧
      (squareTerm left k acc i).r2.toNat ≤ acc.r2.toNat + 2 := by
  have hp := toNat_product (left.digit i) (left.digit (k - i))
  have hlt := ((left.digit i).setWidth 128 * (left.digit (k - i)).setWidth 128).isLt
  simp only [squareTerm, squareWeight]
  split
  · -- The bit shifted out by doubling is counted in `r2`.
    generalize (left.digit i).setWidth 128 * (left.digit (k - i)).setWidth 128 = product at hp hlt ⊢
    have htop : ((product >>> 127).setWidth 64).toNat = product.toNat / 2 ^ 127 := by
      rw [BitVec.toNat_setWidth, BitVec.toNat_ushiftRight, Nat.shiftRight_eq_div_pow]
      omega
    have hr2 : (acc.r2 + (product >>> 127).setWidth 64).toNat = acc.r2.toNat + product.toNat / 2 ^ 127 := by
      rw [BitVec.toNat_add, htop]
      omega
    have hdouble : (product * 2#128).toNat + 2 ^ 128 * (product.toNat / 2 ^ 127) = 2 * product.toNat := by
      rw [BitVec.toNat_mul, BitVec.toNat_ofNat]
      omega
    have := addProduct_value { acc with r2 := acc.r2 + (product >>> 127).setWidth 64 } (product * 2#128)
      (by simp only; omega)
    simp only [MultAcc.value, hr2] at this ⊢
    omega
  · have := addProduct_value acc ((left.digit i).setWidth 128 * (left.digit (k - i)).setWidth 128) (by omega)
    rw [hp] at this
    rw [Nat.one_mul]
    exact ⟨this.1, this.2.trans (by omega)⟩

/-- Terms that each add a number and at most 2 to `r2`. -/
theorem foldl_value {term : MultAcc → Nat → MultAcc} {t : Nat → Nat}
    (hterm : ∀ acc i, acc.r2.toNat + 2 < 2 ^ 64 → (term acc i).value = acc.value + t i ∧
      (term acc i).r2.toNat ≤ acc.r2.toNat + 2) (is : List Nat) {acc : MultAcc}
    (h : acc.r2.toNat + 2 * is.length < 2 ^ 64) : (is.foldl term acc).value = acc.value + (is.map t).sum := by
  induction is generalizing acc with
  | nil => simp
  | cons i is ih =>
    rw [List.length_cons] at h
    obtain ⟨hv, hr⟩ := hterm acc i (by omega)
    rw [List.foldl_cons, ih (by omega), hv, List.map_cons, List.sum_cons, Nat.add_assoc]

/-! ## Columns -/

theorem nextDigit_value (acc : MultAcc) :
    (nextDigit acc).1.toNat + 2 ^ 64 * (nextDigit acc).2.toNat = acc.value := by
  have h1 := acc.r01.isLt
  have h2 := acc.r2.isLt
  have hr2 : (acc.r2.setWidth 128 <<< 64).toNat = 2 ^ 64 * acc.r2.toNat := by
    rw [BitVec.toNat_shiftLeft, BitVec.toNat_setWidth, Nat.shiftLeft_eq]
    omega
  have hr01 : (acc.r01 >>> 64).toNat = acc.r01.toNat / 2 ^ 64 := by
    rw [BitVec.toNat_ushiftRight, Nat.shiftRight_eq_div_pow]
  have hor : (acc.r01 >>> 64 ||| acc.r2.setWidth 128 <<< 64).toNat = acc.r01.toNat / 2 ^ 64 + 2 ^ 64 * acc.r2.toNat := by
    rw [BitVec.or_comm, BitVec.toNat_or, hr2, hr01, ← Nat.two_pow_add_eq_or_of_lt (by omega), Nat.add_comm]
  rw [nextDigit, hor, BitVec.toNat_setWidth, MultAcc.value]
  omega

/-- Columns that each add a number, up to what they miss: so does the result. -/
theorem columns_value {κ : Type} {column : κ → Nat → BitVec 64 × κ} {low : κ → BitVec 64} (r01 : κ)
    (weight : κ → Nat) {t : Nat → Nat} (miss : κ → Nat → Nat) {total : Nat} (hzero : weight r01 = 0)
    (hlow : ∀ c, (low c).toNat = weight c % 2 ^ 64)
    (hcolumn : ∀ c k, (column c k).1.toNat + 2 ^ 64 * weight (column c k).2 + miss c k = t k + weight c)
    (htotal : ∑ k ∈ Finset.range (2 * numEccDigits - 1), t k * 2 ^ (64 * k) = total) (hlt : total < 2 ^ 256 * 2 ^ 256) :
    ((columns column low r01).value : Int) +
      chainSum column (fun c k => (miss c k : Int)) r01 (List.range (2 * numEccDigits - 1)) = total := by
  have hstep : ∀ c, True → ∀ k, ((column c k).1.toNat : Int) + 2 ^ 64 * (weight (column c k).2 : Int) =
      ((t k : Int) - miss c k) + weight c := fun c _ k => by have := hcolumn c k; omega
  have h := chain_value (fun c => (weight c : Int)) (fun _ h _ => h) hstep (c := r01) trivial
    (List.range (2 * numEccDigits - 1))
  rw [chainSum_sub (fun _ k => (t k : Int)), chainSum_eq_digitSum, digitSum_range, List.length_range, hzero] at h
  have htotal' : ∑ k ∈ Finset.range (2 * numEccDigits - 1), (t k : Int) * 2 ^ (64 * k) = total := by
    rw [← htotal]
    push_cast
    rfl
  have hmiss : 0 ≤ chainSum column (fun c k => (miss c k : Int)) r01 (List.range (2 * numEccDigits - 1)) :=
    chainSum_nonneg (fun _ _ => Int.natCast_nonneg _) _ _
  rw [htotal', show 64 * (2 * numEccDigits - 1) = 448 from rfl] at h
  rw [Limbs.value, columns, limbsValue_append, length_chain, List.length_range, limbsValue_cons, limbsValue_nil,
    hlow, show 64 * (2 * numEccDigits - 1) = 448 from rfl]
  omega

theorem sum_filter_range (p : Nat → Bool) (t : Nat → Nat) (n : Nat) :
    (((List.range n).filter p).map t).sum = ∑ i ∈ (Finset.range n).filter fun i => p i = true, t i := by
  rw [Finset.sum, Finset.filter_val, Finset.range_val, Multiset.range, Multiset.filter_coe, Multiset.map_coe,
    Multiset.sum_coe]
  congr 3
  funext i
  rw [Bool.decide_coe]

/-- The terms of a product are those of its columns. -/
theorem sum_multTerms (t : Nat → Nat) (k : Nat) :
    ((multTerms k).map t).sum = ∑ i ∈ column numEccDigits k, t i := by
  rw [multTerms, sum_filter_range, column]
  refine Finset.sum_congr (Finset.filter_congr fun i hi => ?_) fun _ _ => rfl
  rw [Finset.mem_range] at hi
  rw [lMin, Bool.and_eq_true, decide_eq_true_eq, decide_eq_true_eq]
  split <;> omega

/-- Those of a square are the column's that come first, counted twice. -/
theorem sum_squareTerms (d : Nat → Nat) {k : Nat} (hk : k < 2 * numEccDigits - 1) :
    ((squareTerms k).map fun i => squareWeight k i * (d i * d (k - i))).sum =
      ∑ i ∈ column numEccDigits k, d i * d (k - i) := by
  have hk : k < 7 := hk
  interval_cases k <;>
    simp [show squareTerms 0 = [0] by decide, show squareTerms 1 = [0] by decide, show squareTerms 2 = [0, 1] by decide,
      show squareTerms 3 = [0, 1] by decide, show squareTerms 4 = [1, 2] by decide, show squareTerms 5 = [2] by decide,
      show squareTerms 6 = [3] by decide, show column numEccDigits 0 = {0} by decide,
      show column numEccDigits 1 = {0, 1} by decide, show column numEccDigits 2 = {0, 1, 2} by decide,
      show column numEccDigits 3 = {0, 1, 2, 3} by decide, show column numEccDigits 4 = {1, 2, 3} by decide,
      show column numEccDigits 5 = {2, 3} by decide, show column numEccDigits 6 = {3} by decide, squareWeight] <;> ring

/-- Columns that miss nothing. -/
theorem value_columns {column : BitVec 128 → Nat → BitVec 64 × BitVec 128} {t : Nat → Nat} {total : Nat}
    (hcolumn : ∀ r01 k, (column r01 k).1.toNat + 2 ^ 64 * (column r01 k).2.toNat = t k + r01.toNat)
    (htotal : ∑ k ∈ Finset.range (2 * numEccDigits - 1), t k * 2 ^ (64 * k) = total) (hlt : total < 2 ^ 256 * 2 ^ 256) :
    (columns column (·.setWidth 64) 0).value = total := by
  have h := columns_value 0 BitVec.toNat (fun _ _ => 0) rfl (fun r01 => BitVec.toNat_setWidth 64 r01)
    (fun r01 k => hcolumn r01 k) htotal hlt
  rw [chainSum_eq_digitSum (fun _ => ((0 : Nat) : Int)), digitSum_range] at h
  simp only [Int.natCast_zero, Int.zero_mul, Finset.sum_const_zero, Int.add_zero] at h
  exact_mod_cast h

theorem mul_value_lt (left right : Vli) : left.value * right.value < 2 ^ 256 * 2 ^ 256 :=
  Nat.mul_lt_mul'' left.value_lt right.value_lt

/-- The accumulator of a column, which has at most four terms. -/
theorem column_value {term : MultAcc → Nat → MultAcc} {t : Nat → Nat}
    (hterm : ∀ acc i, acc.r2.toNat + 2 < 2 ^ 64 → (term acc i).value = acc.value + t i ∧
      (term acc i).r2.toNat ≤ acc.r2.toNat + 2) (p : Nat → Bool) (r01 : BitVec 128) :
    (((List.range numEccDigits).filter p).foldl term ⟨r01, 0⟩).value =
      (((List.range numEccDigits).filter p).map t).sum + r01.toNat := by
  have hlen : ((List.range numEccDigits).filter p).length ≤ 4 := List.length_filter_le _ _
  have hzero : (0 : BitVec 64).toNat = 0 := rfl
  rw [foldl_value hterm _ (by simp only [hzero]; omega), MultAcc.value, hzero, Nat.mul_zero, Nat.add_zero, Nat.add_comm]

/-- `vli_mult` is the product of the values. -/
theorem value_vliMult (left right : Vli) : (vliMult left right).value = left.value * right.value := by
  have hcolumn : ∀ r01 k, (multColumn left right r01 k).1.toNat + 2 ^ 64 * (multColumn left right r01 k).2.toNat =
      ((multTerms k).map fun i => (left.digit i).toNat * (right.digit (k - i)).toNat).sum + r01.toNat := by
    intro r01 k
    rw [multColumn, nextDigit_value]
    exact column_value (fun acc i => multTerm_value left right k i) _ r01
  refine value_columns hcolumn ?_ (mul_value_lt left right)
  rw [Limbs.value_mul]
  exact Finset.sum_congr rfl fun k _ => by rw [sum_multTerms]

/-- `vli_square` is the square of the value. -/
theorem value_vliSquare (left : Vli) : (vliSquare left).value = left.value * left.value := by
  have hcolumn : ∀ r01 k, (squareColumn left r01 k).1.toNat + 2 ^ 64 * (squareColumn left r01 k).2.toNat =
      ((squareTerms k).map fun i =>
        squareWeight k i * ((left.digit i).toNat * (left.digit (k - i)).toNat)).sum + r01.toNat := by
    intro r01 k
    rw [squareColumn, nextDigit_value]
    exact column_value (fun acc i => squareTerm_value left k i) _ r01
  refine value_columns hcolumn ?_ (mul_value_lt left left)
  rw [Limbs.value_mul]
  exact Finset.sum_congr rfl fun k hk => by
    rw [sum_squareTerms (fun i => (left.digit i).toNat) (Finset.mem_range.mp hk)]

/-- No carry is lost on any two numbers, and a square is the product with itself, digit for digit. -/
theorem products_exact (left right : Vli) :
    (vliMult left right).value = left.value * right.value ∧ vliSquare left = vliMult left left :=
  ⟨value_vliMult left right, Limbs.value_inj ((value_vliSquare left).trans (value_vliMult left left).symm)⟩

end Bryllite.Ecc
