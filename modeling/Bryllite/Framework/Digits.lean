import Mathlib.Algebra.Order.Ring.Nat
import Mathlib.Data.List.TakeWhile
import Mathlib.Data.Nat.Digits.Lemmas
import Mathlib.Tactic.Ring

/-!
# Base conversion

A numeral is the list of its digits, the most significant one first. `convert`
is the numeral in another base with the same value and as many leading zeros,
and converting back gives the numeral (`convert_convert`).

A `DigitBuffer` has a fixed number of digits, the least significant one first,
of which it knows how many are in use. `push` multiplies it and adds a digit,
passing over the digits in use only, and fails where the result does not fit
(`exists_push`); `significant` are its digits without leading zeros. A buffer
whose size is the length of a numeral times a ratio above that of the
logarithms of the bases holds its value (`pow_le_pow_of_ratio`).
-/

namespace Bryllite.Framework

/-! ## Numerals -/

/-- The number of leading zeros. -/
def leadingZeros (ds : List Nat) : Nat := (ds.takeWhile (· = 0)).length

/-- The value of a numeral. -/
def numeralValue (b : Nat) (ds : List Nat) : Nat := Nat.ofDigits b ds.reverse

/-- The numeral in base `b'` with the value and the leading zeros of one in base `b`. -/
def convert (b b' : Nat) (ds : List Nat) : List Nat :=
  List.replicate (leadingZeros ds) 0 ++ (Nat.digits b' (numeralValue b ds)).reverse

variable {b b' : Nat} {ds : List Nat}

theorem replicate_append_dropWhile (ds : List Nat) :
    List.replicate (leadingZeros ds) 0 ++ ds.dropWhile (· = 0) = ds := by
  have hz : ds.takeWhile (· = 0) = List.replicate (leadingZeros ds) 0 := by
    refine List.eq_replicate_iff.mpr ⟨rfl, fun d hd => ?_⟩
    have := List.mem_takeWhile_imp hd
    exact of_decide_eq_true this
  rw [← hz, List.takeWhile_append_dropWhile]

theorem numeralValue_replicate_append (b k : Nat) (ds : List Nat) :
    numeralValue b (List.replicate k 0 ++ ds) = numeralValue b ds := by
  rw [numeralValue, List.reverse_append, List.reverse_replicate, Nat.ofDigits_append_replicate_zero, numeralValue]

/-- The digits of the value are those after the leading zeros. -/
theorem digits_numeralValue (hb : 1 < b) (h : ∀ d ∈ ds, d < b) :
    (Nat.digits b (numeralValue b ds)).reverse = ds.dropWhile (· = 0) := by
  rw [← replicate_append_dropWhile ds, numeralValue_replicate_append, replicate_append_dropWhile, numeralValue,
    Nat.digits_ofDigits b hb, List.reverse_reverse]
  · intro d hd
    exact h d ((List.dropWhile_sublist _).mem (List.mem_reverse.mp hd))
  · intro hne
    rw [List.getLast_reverse]
    have := List.head_dropWhile_not (p := fun d : Nat => decide (d = 0)) (l := ds) (by simpa using hne)
    exact of_decide_eq_false this

/-- A value has no leading zeros of its own. -/
theorem takeWhile_reverse_digits (b n : Nat) : (Nat.digits b n).reverse.takeWhile (· = 0) = [] := by
  rcases h : (Nat.digits b n).reverse with _ | ⟨d, ds⟩
  · rfl
  · have hdigits : Nat.digits b n = ds.reverse ++ [d] := by rw [← List.reverse_cons, ← h, List.reverse_reverse]
    have hn : n ≠ 0 := by
      rintro rfl
      rw [Nat.digits_zero] at hdigits
      cases List.append_ne_nil_of_right_ne_nil _ (List.cons_ne_nil d []) hdigits.symm
    have hd : d ≠ 0 := by simpa [hdigits] using Nat.getLast_digit_ne_zero b hn
    exact List.takeWhile_cons_of_neg (by simpa using hd)

theorem leadingZeros_convert (b b' : Nat) (ds : List Nat) : leadingZeros (convert b b' ds) = leadingZeros ds := by
  rw [leadingZeros, convert, List.takeWhile_append_of_pos, takeWhile_reverse_digits, List.append_nil,
    List.length_replicate]
  intro d hd
  exact decide_eq_true (List.eq_of_mem_replicate hd)

theorem numeralValue_convert (b b' : Nat) (ds : List Nat) :
    numeralValue b' (convert b b' ds) = numeralValue b ds := by
  rw [convert, numeralValue_replicate_append, numeralValue, List.reverse_reverse, Nat.ofDigits_digits]

/-- Only the digits after the leading zeros matter for the value. -/
theorem convert_eq (b b' : Nat) (ds : List Nat) : convert b b' ds = List.replicate (leadingZeros ds) 0 ++
    (Nat.digits b' (numeralValue b (ds.dropWhile (· = 0)))).reverse := by
  rw [← numeralValue_replicate_append b (leadingZeros ds), replicate_append_dropWhile, convert]

/-- Converting a numeral and back. -/
theorem convert_convert (hb : 1 < b) (h : ∀ d ∈ ds, d < b) : convert b' b (convert b b' ds) = ds := by
  rw [convert, leadingZeros_convert, numeralValue_convert, digits_numeralValue hb h, replicate_append_dropWhile]

theorem convert_lt (hb : 1 < b') : ∀ d ∈ convert b b' ds, d < b' := by
  intro d hd
  rcases List.mem_append.mp hd with hd | hd
  · rw [List.eq_of_mem_replicate hd]
    omega
  · exact Nat.digits_lt_base hb (List.mem_reverse.mp hd)

/-! ## Buffers -/

/-- The digits of a buffer from the `i`-th on are multiplied by `mul`, and the
carry is added, as long as there is a carry or the digits are among the first
`used`. It ends with the digits, the carry, and where it has stopped. -/
def mulAdd (base mul used : Nat) : Nat → Nat → List Nat → List Nat × Nat × Nat
  | i, carry, [] => ([], carry, i)
  | i, carry, d :: ds =>
    if carry ≠ 0 ∨ i < used then
      let (ds, carry', i') := mulAdd base mul used (i + 1) ((carry + mul * d) / base) ds
      ((carry + mul * d) % base :: ds, carry', i')
    else (d :: ds, carry, i)

section mulAdd

variable {base mul used : Nat}

theorem length_mulAdd (i carry : Nat) (ds : List Nat) : (mulAdd base mul used i carry ds).1.length = ds.length := by
  induction ds generalizing i carry with
  | nil => rfl
  | cons d ds ih =>
    unfold mulAdd
    split
    · exact congrArg (· + 1) (ih _ _)
    · rfl

theorem mulAdd_lt (hb : 0 < base) (i carry : Nat) (h : ∀ d ∈ ds, d < base) :
    ∀ d ∈ (mulAdd base mul used i carry ds).1, d < base := by
  induction ds generalizing i carry with
  | nil => exact h
  | cons d ds ih =>
    unfold mulAdd
    split
    · intro d' hd'
      rcases List.mem_cons.mp hd' with rfl | hd'
      · exact Nat.mod_lt _ hb
      · exact ih _ _ (fun d hd => h d (List.mem_cons_of_mem _ hd)) d' hd'
    · exact h

theorem ofDigits_of_zeros (h : ∀ d ∈ ds, d = 0) : Nat.ofDigits base ds = 0 := by
  rw [List.eq_replicate_iff.mpr ⟨rfl, h⟩, Nat.ofDigits_replicate_zero]

/-- What is not in use, one digit further on. -/
theorem zeros_tail {i d : Nat} (h : ∀ x ∈ (d :: ds).drop (used - i), x = 0) :
    ∀ x ∈ ds.drop (used - (i + 1)), x = 0 := by
  rcases Nat.lt_or_ge i used with hi | hi
  · rwa [show used - i = used - (i + 1) + 1 by omega, List.drop_succ_cons] at h
  · rw [Nat.sub_eq_zero_of_le hi, List.drop_zero] at h
    exact fun x hx => h x (List.mem_cons_of_mem _ (List.mem_of_mem_drop hx))

/-- It stops where only zeros are left. -/
theorem mulAdd_zeros (i carry : Nat) (h : ∀ d ∈ ds.drop (used - i), d = 0) :
    i ≤ (mulAdd base mul used i carry ds).2.2 ∧
    ∀ d ∈ (mulAdd base mul used i carry ds).1.drop ((mulAdd base mul used i carry ds).2.2 - i), d = 0 := by
  induction ds generalizing i carry with
  | nil => exact ⟨Nat.le_refl i, fun d hd => absurd hd (by rw [mulAdd, List.drop_nil]; exact List.not_mem_nil)⟩
  | cons d ds ih =>
    unfold mulAdd
    split
    · obtain ⟨hle, hz⟩ := ih (i + 1) ((carry + mul * d) / base) (zeros_tail h)
      refine ⟨Nat.le_of_succ_le hle, ?_⟩
      dsimp only
      rwa [show ∀ n, i + 1 ≤ n → n - i = n - (i + 1) + 1 by omega, List.drop_succ_cons]
      exact hle
    · rename_i hc
      refine ⟨Nat.le_refl i, ?_⟩
      rw [Nat.sub_eq_zero_of_le (by omega)] at h
      rw [Nat.sub_self]
      exact h

/-- The digits and the carry it leaves are the product and the carry it got. -/
theorem ofDigits_mulAdd (i carry : Nat) (h : ∀ d ∈ ds.drop (used - i), d = 0) :
    Nat.ofDigits base (mulAdd base mul used i carry ds).1 +
      base ^ ds.length * (mulAdd base mul used i carry ds).2.1 = mul * Nat.ofDigits base ds + carry := by
  induction ds generalizing i carry with
  | nil => simp [mulAdd]
  | cons d ds ih =>
    unfold mulAdd
    split
    · have := ih (i + 1) ((carry + mul * d) / base) (zeros_tail h)
      have hdiv := Nat.mod_add_div (carry + mul * d) base
      dsimp only
      rw [Nat.ofDigits_cons, Nat.ofDigits_cons, List.length_cons]
      generalize Nat.ofDigits base (mulAdd base mul used (i + 1) ((carry + mul * d) / base) ds).1 = v at *
      generalize (mulAdd base mul used (i + 1) ((carry + mul * d) / base) ds).2.1 = c at *
      calc (carry + mul * d) % base + base * v + base ^ (ds.length + 1) * c
          = (carry + mul * d) % base + base * (v + base ^ ds.length * c) := by ring
        _ = (carry + mul * d) % base + base * ((carry + mul * d) / base) + base * (mul * Nat.ofDigits base ds) := by
            rw [this]
            ring
        _ = mul * (d + base * Nat.ofDigits base ds) + carry := by
            rw [hdiv]
            ring
    · rename_i hc
      rw [Nat.sub_eq_zero_of_le (by omega), List.drop_zero] at h
      obtain rfl : carry = 0 := by omega
      show Nat.ofDigits base (d :: ds) + base ^ _ * 0 = mul * Nat.ofDigits base (d :: ds) + 0
      rw [ofDigits_of_zeros h]
      rfl

end mulAdd

/-- A number in `size` digits, the least significant one first, of which those
from `used` on are zero. -/
structure DigitBuffer (base size : Nat) where
  digits : List Nat
  used : Nat
  length_digits : digits.length = size
  digits_lt (d : Nat) : d ∈ digits → d < base
  zeros (d : Nat) : d ∈ digits.drop used → d = 0

namespace DigitBuffer

variable {base size mul : Nat}

/-- All digits are zero. -/
def zero (size : Nat) (hb : 0 < base) : DigitBuffer base size where
  digits := List.replicate size 0
  used := 0
  length_digits := List.length_replicate
  digits_lt d hd := by
    rw [List.eq_of_mem_replicate hd]
    exact hb
  zeros _ hd := List.eq_of_mem_replicate hd

/-- The number. -/
def value (b : DigitBuffer base size) : Nat := Nat.ofDigits base b.digits

/-- `mul` times the buffer plus `c`, if no carry is left. -/
def push (mul : Nat) (hb : 0 < base) (b : DigitBuffer base size) (c : Nat) : Option (DigitBuffer base size) :=
  let r := mulAdd base mul b.used 0 c b.digits
  if r.2.1 = 0 then
    some {
      digits := r.1
      used := r.2.2
      length_digits := (length_mulAdd 0 c b.digits).trans b.length_digits
      digits_lt := mulAdd_lt hb 0 c b.digits_lt
      zeros := (mulAdd_zeros 0 c b.zeros).2 }
  else none

/-- The digits in use, the most significant one first, without leading zeros. -/
def significant (b : DigitBuffer base size) : List Nat :=
  (b.digits.reverse.drop (size - b.used)).dropWhile (· = 0)

/-- The push of a digit after at most `n` others, where `n + 1` digits fit. -/
theorem exists_push (hb : 0 < base) (b : DigitBuffer base size) {n c : Nat} (hv : b.value < mul ^ n) (hc : c < mul)
    (hn : mul ^ (n + 1) ≤ base ^ size) :
    ∃ b', b.push mul hb c = some b' ∧ b'.value = mul * b.value + c ∧ b'.value < mul ^ (n + 1) := by
  have hofDigits : Nat.ofDigits base (mulAdd base mul b.used 0 c b.digits).1 +
      base ^ b.digits.length * (mulAdd base mul b.used 0 c b.digits).2.1 = mul * b.value + c :=
    ofDigits_mulAdd 0 c b.zeros
  have hlt : mul * b.value + c < mul ^ (n + 1) := by
    calc mul * b.value + c < mul * b.value + mul := Nat.add_lt_add_left hc _
      _ = mul * (b.value + 1) := by ring
      _ ≤ mul * mul ^ n := Nat.mul_le_mul_left _ hv
      _ = mul ^ (n + 1) := by ring
  rw [b.length_digits] at hofDigits
  -- A carry would be too much.
  have hcarry : (mulAdd base mul b.used 0 c b.digits).2.1 = 0 := by
    rcases Nat.eq_zero_or_pos (mulAdd base mul b.used 0 c b.digits).2.1 with h | h
    · exact h
    · have := Nat.le_mul_of_pos_right (base ^ size) h
      omega
  have hvalue : Nat.ofDigits base (mulAdd base mul b.used 0 c b.digits).1 = mul * b.value + c := by
    rwa [hcarry, Nat.mul_zero, Nat.add_zero] at hofDigits
  refine ⟨_, if_pos hcarry, hvalue, ?_⟩
  exact hvalue.trans_lt hlt

/-- The push of digits, where these and `n` others fit. -/
theorem exists_foldlM_push (hb : 0 < base) {cs : List Nat} (b : DigitBuffer base size) {n : Nat}
    (hv : b.value < mul ^ n) (hcs : ∀ c ∈ cs, c < mul) (hn : mul ^ (n + cs.length) ≤ base ^ size) :
    ∃ b', cs.foldlM (push mul hb) b = some b' ∧ b'.value = mul ^ cs.length * b.value + numeralValue mul cs ∧
      b'.value < mul ^ (n + cs.length) := by
  induction cs generalizing b n with
  | nil => exact ⟨b, rfl, by simp [numeralValue], hv⟩
  | cons c cs ih =>
    have hc := hcs c List.mem_cons_self
    have hn' : mul ^ (n + 1) ≤ base ^ size := by
      apply Nat.le_trans (Nat.pow_le_pow_right (Nat.zero_lt_of_lt hc) _) hn
      rw [List.length_cons]
      omega
    obtain ⟨b₁, hp, hv₁, hlt₁⟩ := exists_push hb b hv hc hn'
    have hadd : n + 1 + cs.length = n + (c :: cs).length := by
      rw [List.length_cons]
      omega
    obtain ⟨b', hf, hv', hlt'⟩ := ih b₁ hlt₁ (fun c hc => hcs c (List.mem_cons_of_mem _ hc)) (hadd ▸ hn)
    refine ⟨b', ?_, ?_, hadd ▸ hlt'⟩
    · rw [List.foldlM_cons, hp]
      exact hf
    · rw [hv', hv₁, numeralValue, numeralValue, Nat.ofDigits_reverse_cons, List.length_cons]
      ring

theorem significant_eq (hb : 1 < base) (b : DigitBuffer base size) :
    b.significant = (Nat.digits base b.value).reverse := by
  have hlen : (b.digits.drop b.used).reverse.length = size - b.used := by
    rw [List.length_reverse, List.length_drop, b.length_digits]
  have hsplit : b.digits.reverse = (b.digits.drop b.used).reverse ++ (b.digits.take b.used).reverse := by
    rw [← List.reverse_append, List.take_append_drop]
  have hdrop : (Nat.digits base (numeralValue base b.digits.reverse)).reverse = _ :=
    digits_numeralValue hb fun d hd => b.digits_lt d (List.mem_reverse.mp hd)
  rw [numeralValue, List.reverse_reverse] at hdrop
  rw [significant, value, hdrop, hsplit, List.drop_left' hlen, List.dropWhile_append_of_pos]
  intro d hd
  exact decide_eq_true (b.zeros d (List.mem_reverse.mp hd))

/-- The digits of a numeral are pushed to a buffer they fit in. -/
theorem exists_significant (hb : 1 < base) {cs : List Nat} (hcs : ∀ c ∈ cs, c < mul)
    (hn : mul ^ cs.length ≤ base ^ size) :
    ∃ b', cs.foldlM (push mul (Nat.zero_lt_of_lt hb)) (zero size (Nat.zero_lt_of_lt hb)) = some b' ∧
      b'.significant = (Nat.digits base (numeralValue mul cs)).reverse := by
  have hz : (zero size (Nat.zero_lt_of_lt hb) : DigitBuffer base size).value = 0 := Nat.ofDigits_replicate_zero
  have hlt : (zero size (Nat.zero_lt_of_lt hb) : DigitBuffer base size).value < mul ^ 0 := by
    rw [hz]
    exact Nat.one_pos
  obtain ⟨b', hf, hv, -⟩ := exists_foldlM_push (Nat.zero_lt_of_lt hb) _ hlt hcs (by rwa [Nat.zero_add])
  refine ⟨b', hf, ?_⟩
  rw [significant_eq hb, hv, hz, Nat.mul_zero, Nat.zero_add]

end DigitBuffer

/-- If `q` digits in base `a` fit in `p` digits in base `b`, then `n` digits fit
in one more than `n * p / q` digits. -/
theorem pow_le_pow_of_ratio {a b p q : Nat} (hq : 0 < q) (hb : 0 < b) (h : a ^ q ≤ b ^ p) (n : Nat) :
    a ^ n ≤ b ^ (n * p / q + 1) := by
  have hlt : n * p < q * (n * p / q + 1) := Nat.lt_mul_div_succ _ hq
  rw [← Nat.pow_le_pow_iff_left (Nat.pos_iff_ne_zero.mp hq)]
  calc (a ^ n) ^ q = (a ^ q) ^ n := by rw [← Nat.pow_mul, Nat.mul_comm, Nat.pow_mul]
    _ ≤ (b ^ p) ^ n := Nat.pow_le_pow_left h n
    _ = b ^ (n * p) := by rw [← Nat.pow_mul, Nat.mul_comm]
    _ ≤ b ^ (q * (n * p / q + 1)) := Nat.pow_le_pow_right hb hlt.le
    _ = (b ^ (n * p / q + 1)) ^ q := by rw [← Nat.pow_mul, Nat.mul_comm]

end Bryllite.Framework
