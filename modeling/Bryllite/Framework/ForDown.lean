import Mathlib.Data.Nat.Bitwise

/-!
# Loops that count down

`forDown` runs a body from an index down to a bound. With an invariant that names the
index, what holds before it holds at the bound (`forDown_inv`). A loop over the bits of a
number from the most significant one on goes through its halves (`div_two_pow_testBit`),
so one that doubles and adds makes the number itself (`forDown_bits`).
-/

namespace Bryllite.Framework

variable {σ : Type} {body : Nat → σ → σ} {lo n : Nat}

/-- `for( i = n - 1; i >= lo; --i ) body`. -/
def forDown (body : Nat → σ → σ) (lo : Nat) : Nat → σ → σ
  | 0, s => s
  | n + 1, s => if lo ≤ n then forDown body lo n (body n s) else s

/-- Where each round takes the invariant from its index down by one. -/
theorem forDown_inv (I : Nat → σ → Prop) (hbody : ∀ i s, lo ≤ i → i < n → I (i + 1) s → I i (body i s)) {s : σ}
    (hle : lo ≤ n) (h : I n s) : I lo (forDown body lo n s) := by
  induction n generalizing s with
  | zero =>
    obtain rfl := Nat.le_zero.mp hle
    exact h
  | succ n ih =>
    rw [forDown]
    split
    · rename_i hlo
      exact ih (fun i s hi hin => hbody i s hi (Nat.lt_succ_of_lt hin)) hlo (hbody n s hlo (Nat.lt_succ_self n) h)
    · rename_i hlo
      obtain rfl : lo = n + 1 := by omega
      exact h

/-- What every round keeps. -/
theorem forDown_keep {I : σ → Prop} (hbody : ∀ i s, I s → I (body i s)) {s : σ} (h : I s) :
    I (forDown body lo n s) := by
  induction n generalizing s with
  | zero => exact h
  | succ n ih =>
    rw [forDown]
    split
    · exact ih (hbody n s h)
    · exact h

/-- A loop with nothing to count. -/
theorem forDown_of_le (h : n ≤ lo) (s : σ) : forDown body lo n s = s := by
  cases n with
  | zero => rfl
  | succ n => rw [forDown, if_neg (by omega)]

/-- The number without its last bits is twice the number without one more, and the bit. -/
theorem div_two_pow_testBit (n i : Nat) : n / 2 ^ i = 2 * (n / 2 ^ (i + 1)) + (n.testBit i).toNat := by
  rw [Nat.toNat_testBit, pow_succ, ← Nat.div_div_eq_div_mul]
  omega

theorem div_two_pow_eq_one {k n : Nat} (hle : 2 ^ n ≤ k) (hlt : k < 2 ^ (n + 1)) : k / 2 ^ n = 1 :=
  Nat.div_eq_of_lt_le (by omega) (by rw [pow_succ] at hlt; omega)

/-- A loop over the bits of `k` that keeps a relation to what they make so far. -/
theorem forDown_bits (R : Nat → σ → Prop) (k : Nat)
    (hbody : ∀ i s, lo ≤ i → i < n → R (k / 2 ^ (i + 1)) s → R (2 * (k / 2 ^ (i + 1)) + (k.testBit i).toNat) (body i s))
    {s : σ} (hle : lo ≤ n) (h : R (k / 2 ^ n) s) : R (k / 2 ^ lo) (forDown body lo n s) := by
  refine forDown_inv (fun i s => R (k / 2 ^ i) s) (fun i s hi hin hR => ?_) hle h
  rw [div_two_pow_testBit k i]
  exact hbody i s hi hin hR

end Bryllite.Framework
