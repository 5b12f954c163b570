import Mathlib.Algebra.BigOperators.Group.Finset.Sigma
import Mathlib.Algebra.BigOperators.Ring.Finset
import Mathlib.Data.Nat.Digits.Lemmas
import Mathlib.Tactic.LinearCombination
import Mathlib.Tactic.Positivity
import Mathlib.Tactic.Ring

/-!
# Numbers of several words

`Limbs w n` are `n` words of `w` bits, the least significant one first, with their
`value`. A `chain` is a pass over digits that hands a carry on: where each step is an
equation between its digit, its carries and what goes in, so is the pass (`chain_value`).
`chainDown` is a pass from the most significant word on, which divides (`chainDown_value`).
`value_mul` is a product by columns.
-/

namespace Bryllite.Framework

/-- `n` words of `w` bits, the least significant one first. -/
@[ext] structure Limbs (w n : Nat) where
  digits : List (BitVec w)
  length_digits : digits.length = n
  deriving DecidableEq

variable {w n : Nat} {α κ : Type}

/-- The value of words, the least significant one first. -/
def limbsValue (ds : List (BitVec w)) : Nat := Nat.ofDigits (2 ^ w) (ds.map BitVec.toNat)

@[simp] theorem limbsValue_nil : limbsValue ([] : List (BitVec w)) = 0 := rfl

@[simp] theorem limbsValue_cons (d : BitVec w) (ds : List (BitVec w)) :
    limbsValue (d :: ds) = d.toNat + 2 ^ w * limbsValue ds := by
  rw [limbsValue, List.map_cons, Nat.ofDigits_cons, limbsValue]

theorem limbsValue_append (ds es : List (BitVec w)) :
    limbsValue (ds ++ es) = limbsValue ds + 2 ^ (w * ds.length) * limbsValue es := by
  rw [limbsValue, List.map_append, Nat.ofDigits_append, List.length_map, pow_mul, limbsValue, limbsValue]

theorem limbsValue_lt (ds : List (BitVec w)) : limbsValue ds < 2 ^ (w * ds.length) := by
  induction ds with
  | nil => simp
  | cons d ds ih =>
    rw [limbsValue_cons, List.length_cons, Nat.mul_add_one, Nat.add_comm (w * _), pow_add]
    have hd := d.isLt
    calc d.toNat + 2 ^ w * limbsValue ds < 2 ^ w * (limbsValue ds + 1) := by rw [Nat.mul_add_one]; omega
      _ ≤ 2 ^ w * 2 ^ (w * ds.length) := Nat.mul_le_mul_left _ ih

theorem limbsValue_inj {ds es : List (BitVec w)} (hl : ds.length = es.length)
    (h : limbsValue ds = limbsValue es) : ds = es := by
  induction ds generalizing es with
  | nil => exact (List.length_eq_zero_iff.mp hl.symm).symm
  | cons d ds ih =>
    obtain ⟨e, es, rfl⟩ := List.exists_cons_of_length_eq_add_one hl.symm
    rw [limbsValue_cons, limbsValue_cons] at h
    have hmod := congrArg (· % 2 ^ w) h
    have hdiv := congrArg (· / 2 ^ w) h
    simp only [Nat.add_mul_mod_self_left, Nat.mod_eq_of_lt d.isLt, Nat.mod_eq_of_lt e.isLt] at hmod
    simp only [Nat.add_mul_div_left _ _ (Nat.two_pow_pos w), Nat.div_eq_of_lt d.isLt, Nat.div_eq_of_lt e.isLt,
      Nat.zero_add] at hdiv
    rw [BitVec.eq_of_toNat_eq hmod, ih (Nat.succ.inj hl) hdiv]

/-- The `i`-th word is the `i`-th digit of the value. -/
theorem toNat_getD (ds : List (BitVec w)) (i : Nat) :
    (ds.getD i 0).toNat = limbsValue ds / 2 ^ (w * i) % 2 ^ w := by
  induction ds generalizing i with
  | nil => simp
  | cons d ds ih =>
    cases i with
    | zero => simp [Nat.mod_eq_of_lt d.isLt]
    | succ i =>
      rw [List.getD_cons_succ, ih, limbsValue_cons, Nat.mul_add_one, Nat.add_comm (w * i), pow_add,
        ← Nat.div_div_eq_div_mul, Nat.add_mul_div_left _ _ (Nat.two_pow_pos w), Nat.div_eq_of_lt d.isLt, Nat.zero_add]

namespace Limbs

def value (x : Limbs w n) : Nat := limbsValue x.digits

/-- The `i`-th word; 0 behind the last one. -/
def digit (x : Limbs w n) (i : Nat) : BitVec w := x.digits.getD i 0

theorem value_lt (x : Limbs w n) : x.value < 2 ^ (w * n) := by
  have := limbsValue_lt x.digits
  rwa [x.length_digits] at this

theorem value_inj {x y : Limbs w n} (h : x.value = y.value) : x = y :=
  Limbs.ext (limbsValue_inj (x.length_digits.trans y.length_digits.symm) h)

theorem toNat_digit (x : Limbs w n) (i : Nat) : (x.digit i).toNat = x.value / 2 ^ (w * i) % 2 ^ w :=
  toNat_getD x.digits i

theorem value_eq_sum (x : Limbs w n) : x.value = ∑ i ∈ Finset.range n, (x.digit i).toNat * 2 ^ (w * i) := by
  obtain ⟨ds, rfl⟩ := x
  simp only [value, digit]
  induction ds with
  | nil => rfl
  | cons d ds ih =>
    rw [limbsValue_cons, List.length_cons, Finset.sum_range_succ', ih, Finset.mul_sum, Nat.add_comm]
    refine congrArg₂ _ (Finset.sum_congr rfl fun i _ => ?_) (by simp)
    rw [List.getD_cons_succ, Nat.mul_add_one, pow_add]
    ring

theorem ext_digit {x y : Limbs w n} (h : ∀ i < n, x.digit i = y.digit i) : x = y := by
  refine value_inj ?_
  rw [value_eq_sum, value_eq_sum]
  exact Finset.sum_congr rfl fun i hi => by rw [h i (Finset.mem_range.mp hi)]

theorem digits_eq (x : Limbs w n) : x.digits = (List.range n).map x.digit := by
  obtain ⟨ds, rfl⟩ := x
  refine List.ext_getElem (by simp) fun i hi _ => ?_
  simp [digit, hi]

end Limbs

/-! ## Passes -/

/-- A pass from the least significant digit on: a step makes a word and the next carry. -/
def chain (step : κ → α → BitVec w × κ) : κ → List α → List (BitVec w) × κ
  | c, [] => ([], c)
  | c, x :: xs => ((step c x).1 :: (chain step (step c x).2 xs).1, (chain step (step c x).2 xs).2)

/-- The value of what goes into each step of a pass. -/
def chainSum (step : κ → α → BitVec w × κ) (g : κ → α → Int) : κ → List α → Int
  | _, [] => 0
  | c, x :: xs => g c x + 2 ^ w * chainSum step g (step c x).2 xs

/-- The value of digits of any kind. -/
def digitSum (w : Nat) (g : α → Int) : List α → Int
  | [] => 0
  | x :: xs => g x + 2 ^ w * digitSum w g xs

section chain

variable {step : κ → α → BitVec w × κ} {g : κ → α → Int} {ok : κ → Prop}

theorem length_chain (c : κ) (xs : List α) : (chain step c xs).1.length = xs.length := by
  induction xs generalizing c with
  | nil => rfl
  | cons x xs ih => exact congrArg (· + 1) (ih _)

/-- What holds of the carry at each step holds of it at the end. -/
theorem chain_ok (hok : ∀ c, ok c → ∀ x, ok (step c x).2) {c : κ} (hc : ok c) (xs : List α) :
    ok (chain step c xs).2 := by
  induction xs generalizing c with
  | nil => exact hc
  | cons x xs ih => exact ih (hok c hc x)

theorem chain_value (weight : κ → Int) (hok : ∀ c, ok c → ∀ x, ok (step c x).2)
    (hstep : ∀ c, ok c → ∀ x, ((step c x).1.toNat : Int) + 2 ^ w * weight (step c x).2 = g c x + weight c)
    {c : κ} (hc : ok c) (xs : List α) :
    (limbsValue (chain step c xs).1 : Int) + 2 ^ (w * xs.length) * weight (chain step c xs).2 =
      chainSum step g c xs + weight c := by
  induction xs generalizing c with
  | nil => simp [chain, chainSum]
  | cons x xs ih =>
    have ih := ih (hok c hc x)
    have hstep := hstep c hc x
    rw [chain, chainSum, limbsValue_cons, List.length_cons, Nat.mul_add_one, pow_add]
    push_cast
    linear_combination hstep + 2 ^ w * ih

theorem chainSum_eq_digitSum (g : α → Int) (c : κ) (xs : List α) :
    chainSum step (fun _ => g) c xs = digitSum w g xs := by
  induction xs generalizing c with
  | nil => rfl
  | cons x xs ih => rw [chainSum, digitSum, ih]

theorem chainSum_sub (g g' : κ → α → Int) (c : κ) (xs : List α) :
    chainSum step (fun c x => g c x - g' c x) c xs = chainSum step g c xs - chainSum step g' c xs := by
  induction xs generalizing c with
  | nil => rfl
  | cons x xs ih =>
    rw [chainSum, chainSum, chainSum, ih]
    ring

theorem chainSum_scale (a : Int) (g : κ → α → Int) (c : κ) (xs : List α) :
    chainSum step (fun c x => a * g c x) c xs = a * chainSum step g c xs := by
  induction xs generalizing c with
  | nil => rw [chainSum, chainSum, Int.mul_zero]
  | cons x xs ih =>
    rw [chainSum, chainSum, ih]
    ring

theorem chainSum_nonneg (hg : ∀ c x, 0 ≤ g c x) (c : κ) (xs : List α) : 0 ≤ chainSum step g c xs := by
  induction xs generalizing c with
  | nil => rfl
  | cons x xs ih => exact Int.add_nonneg (hg c x) (Int.mul_nonneg (by positivity) (ih _))

/-- It is 0 exactly if nothing goes into any step. -/
theorem chainSum_eq_zero_iff {g : κ → α → Int} (hg : ∀ c x, 0 ≤ g c x) (step : κ → α → BitVec w × κ) (c : κ)
    (xs : List α) : chainSum step g c xs = 0 ↔
    ∀ k, (h : k < xs.length) → g (chain step c (xs.take k)).2 xs[k] = 0 := by
  induction xs generalizing c with
  | nil => exact iff_of_true rfl fun k h => absurd h (Nat.not_lt_zero k)
  | cons x xs ih =>
    have hrest : 0 ≤ 2 ^ w * chainSum step g (step c x).2 xs :=
      Int.mul_nonneg (by positivity) (chainSum_nonneg hg _ xs)
    have hx := hg c x
    rw [chainSum]
    constructor
    · intro h k hk
      have hsum : chainSum step g (step c x).2 xs = 0 := by
        rcases Int.mul_eq_zero.mp (by omega : 2 ^ w * chainSum step g (step c x).2 xs = 0) with h | h
        · exact absurd h (by positivity)
        · exact h
      cases k with
      | zero => exact (by omega : g c x = 0)
      | succ k => exact (ih _).mp hsum k (Nat.succ_lt_succ_iff.mp hk)
    · intro h
      have hsum := (ih (step c x).2).mpr fun k hk => h (k + 1) (Nat.succ_lt_succ hk)
      rw [hsum, Int.mul_zero, Int.add_zero]
      exact h 0 (Nat.succ_pos _)

theorem digitSum_zip (a b : Int) {xs ys : List (BitVec w)} (h : xs.length = ys.length) :
    digitSum w (fun p : BitVec w × BitVec w => a * (p.1.toNat : Int) + b * p.2.toNat) (xs.zip ys) =
      a * limbsValue xs + b * limbsValue ys := by
  induction xs generalizing ys with
  | nil =>
    obtain rfl := List.length_eq_zero_iff.mp h.symm
    simp [digitSum]
  | cons x xs ih =>
    obtain ⟨y, ys, rfl⟩ := List.exists_cons_of_length_eq_add_one h.symm
    rw [List.zip_cons_cons, digitSum, ih (Nat.succ.inj h), limbsValue_cons, limbsValue_cons]
    push_cast
    ring

theorem digitSum_scale (a : Int) (xs : List (BitVec w)) :
    digitSum w (fun x : BitVec w => a * (x.toNat : Int)) xs = a * limbsValue xs := by
  induction xs with
  | nil => simp [digitSum]
  | cons x xs ih =>
    rw [digitSum, ih, limbsValue_cons]
    push_cast
    ring

theorem digitSum_range (g : Nat → Int) (m : Nat) :
    digitSum w g (List.range m) = ∑ k ∈ Finset.range m, g k * 2 ^ (w * k) := by
  suffices h : ∀ s, digitSum w g (List.range' s m) = ∑ k ∈ Finset.range m, g (s + k) * 2 ^ (w * k) by
    simpa [List.range_eq_range'] using h 0
  induction m with
  | zero => exact fun _ => rfl
  | succ m ih =>
    intro s
    rw [List.range'_succ, digitSum, ih, Finset.sum_range_succ', Finset.mul_sum, Int.add_comm]
    refine congrArg₂ _ (Finset.sum_congr rfl fun k _ => ?_) (by simp)
    rw [Nat.mul_add_one, pow_add, Nat.add_comm k 1, Nat.add_assoc]
    ring

end chain

/-- A pass from the most significant word on. -/
def chainDown (step : κ → BitVec w → BitVec w × κ) (c : κ) : List (BitVec w) → List (BitVec w) × κ
  | [] => ([], c)
  | d :: ds =>
    ((step (chainDown step c ds).2 d).1 :: (chainDown step c ds).1, (step (chainDown step c ds).2 d).2)

section chainDown

variable {step : κ → BitVec w → BitVec w × κ} {ok : κ → Prop}

theorem length_chainDown (c : κ) (ds : List (BitVec w)) : (chainDown step c ds).1.length = ds.length := by
  induction ds with
  | nil => rfl
  | cons d ds ih => exact congrArg (· + 1) ih

theorem chainDown_ok (hok : ∀ c, ok c → ∀ d, ok (step c d).2) {c : κ} (hc : ok c) (ds : List (BitVec w)) :
    ok (chainDown step c ds).2 := by
  induction ds with
  | nil => exact hc
  | cons d ds ih => exact hok _ ih d

/-- A pass whose steps divide by `a` and leave a remainder. -/
theorem chainDown_value (weight : κ → Nat) (a : Nat) (hok : ∀ c, ok c → ∀ d, ok (step c d).2)
    (hstep : ∀ c, ok c → ∀ d, a * (step c d).1.toNat + weight (step c d).2 = d.toNat + 2 ^ w * weight c)
    {c : κ} (hc : ok c) (ds : List (BitVec w)) :
    a * limbsValue (chainDown step c ds).1 + weight (chainDown step c ds).2 =
      limbsValue ds + 2 ^ (w * ds.length) * weight c := by
  induction ds with
  | nil => simp [chainDown]
  | cons d ds ih =>
    have hstep := hstep _ (chainDown_ok hok hc ds) d
    rw [chainDown, limbsValue_cons, limbsValue_cons, List.length_cons, Nat.mul_add_one, pow_add]
    zify at hstep ih ⊢
    linear_combination hstep + 2 ^ w * ih

end chainDown

namespace Limbs

/-- A pass over the words of two numbers. -/
def zipChain (step : κ → BitVec w × BitVec w → BitVec w × κ) (c : κ) (x y : Limbs w n) : Limbs w n × κ :=
  (⟨(chain step c (x.digits.zip y.digits)).1,
    by rw [length_chain, List.length_zip, x.length_digits, y.length_digits, Nat.min_self]⟩,
    (chain step c (x.digits.zip y.digits)).2)

/-- A pass over the words of a number. -/
def mapChain (step : κ → BitVec w → BitVec w × κ) (c : κ) (x : Limbs w n) : Limbs w n × κ :=
  (⟨(chain step c x.digits).1, (length_chain c _).trans x.length_digits⟩, (chain step c x.digits).2)

/-- A pass over the words of a number from the most significant one on. -/
def mapChainDown (step : κ → BitVec w → BitVec w × κ) (c : κ) (x : Limbs w n) : Limbs w n × κ :=
  (⟨(chainDown step c x.digits).1, (length_chainDown c _).trans x.length_digits⟩, (chainDown step c x.digits).2)

theorem zipChain_ok {step : κ → BitVec w × BitVec w → BitVec w × κ} {ok : κ → Prop}
    (hok : ∀ c, ok c → ∀ p, ok (step c p).2) {c : κ} (hc : ok c) (x y : Limbs w n) : ok (zipChain step c x y).2 :=
  chain_ok hok hc _

theorem zipChain_value {step : κ → BitVec w × BitVec w → BitVec w × κ} {ok : κ → Prop} (weight : κ → Int)
    (a b : Int) (hok : ∀ c, ok c → ∀ p, ok (step c p).2)
    (hstep : ∀ c, ok c → ∀ p, ((step c p).1.toNat : Int) + 2 ^ w * weight (step c p).2 =
      a * p.1.toNat + b * p.2.toNat + weight c) {c : κ} (hc : ok c) (x y : Limbs w n) :
    ((zipChain step c x y).1.value : Int) + 2 ^ (w * n) * weight (zipChain step c x y).2 =
      a * x.value + b * y.value + weight c := by
  have hlen : x.digits.length = y.digits.length := x.length_digits.trans y.length_digits.symm
  have h := chain_value weight hok hstep hc (x.digits.zip y.digits)
  rw [chainSum_eq_digitSum, digitSum_zip a b hlen, List.length_zip, x.length_digits, y.length_digits,
    Nat.min_self] at h
  exact h

theorem mapChain_value {step : κ → BitVec w → BitVec w × κ} {ok : κ → Prop} (weight : κ → Int)
    (a : Int) (hok : ∀ c, ok c → ∀ d, ok (step c d).2)
    (hstep : ∀ c, ok c → ∀ d, ((step c d).1.toNat : Int) + 2 ^ w * weight (step c d).2 = a * d.toNat + weight c)
    {c : κ} (hc : ok c) (x : Limbs w n) :
    ((mapChain step c x).1.value : Int) + 2 ^ (w * n) * weight (mapChain step c x).2 = a * x.value + weight c := by
  have h := chain_value weight hok hstep hc x.digits
  rw [chainSum_eq_digitSum, digitSum_scale, x.length_digits] at h
  exact h

theorem mapChainDown_value {step : κ → BitVec w → BitVec w × κ} {ok : κ → Prop} (weight : κ → Nat)
    (a : Nat) (hok : ∀ c, ok c → ∀ d, ok (step c d).2)
    (hstep : ∀ c, ok c → ∀ d, a * (step c d).1.toNat + weight (step c d).2 = d.toNat + 2 ^ w * weight c)
    {c : κ} (hc : ok c) (x : Limbs w n) :
    a * (mapChainDown step c x).1.value + weight (mapChainDown step c x).2 =
      x.value + 2 ^ (w * n) * weight c := by
  have h := chainDown_value weight a hok hstep hc x.digits
  rwa [x.length_digits] at h

end Limbs

/-! ## Products -/

/-- The terms of the column `k` of a product of numbers of `n` words. -/
def column (n k : Nat) : Finset Nat := (Finset.range n).filter fun i => i ≤ k ∧ k - i < n

/-- A product, by columns. -/
theorem Limbs.value_mul (x y : Limbs w n) : x.value * y.value = ∑ k ∈ Finset.range (2 * n - 1),
    (∑ i ∈ column n k, (x.digit i).toNat * (y.digit (k - i)).toNat) * 2 ^ (w * k) := by
  rw [x.value_eq_sum, y.value_eq_sum, Finset.sum_mul_sum, ← Finset.sum_product',
    ← Finset.sum_fiberwise_of_maps_to (t := Finset.range (2 * n - 1)) (g := fun p : Nat × Nat => p.1 + p.2)]
  · refine Finset.sum_congr rfl fun k _ => ?_
    rw [Finset.sum_mul]
    refine Finset.sum_nbij' (fun p => p.1) (fun i => (i, k - i)) ?_ ?_ ?_ ?_ ?_
    · rintro ⟨i, j⟩ h
      simp only [column, Finset.mem_filter, Finset.mem_product, Finset.mem_range] at h ⊢
      omega
    · intro i h
      simp only [column, Finset.mem_filter, Finset.mem_product, Finset.mem_range] at h ⊢
      omega
    · rintro ⟨i, j⟩ h
      simp only [Finset.mem_filter] at h
      rw [← h.2, Nat.add_sub_cancel_left]
    · exact fun _ _ => rfl
    · rintro ⟨i, j⟩ h
      simp only [Finset.mem_filter] at h
      rw [← h.2, Nat.add_sub_cancel_left, Nat.mul_add, pow_add]
      ring
  · rintro ⟨i, j⟩ h
    simp only [Finset.mem_product, Finset.mem_range] at h ⊢
    omega

end Bryllite.Framework
