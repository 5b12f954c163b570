import Bryllite.Framework.CoZ
import Bryllite.Framework.ForDown

/-!
# Two multiples at once

The sum of two multiples is made from the top bits of both numbers down: the sum so far is
doubled, and one of the two points or their sum is added (`comb_eq`). On points that have a
denominator each, an addition to the double goes wrong where the two are equal or opposite,
and the denominator is 0 from there on (`Scaled.addTo`).
-/

namespace Bryllite.Framework

section Comb

variable {A : Type} [AddCommGroup A] (P Q : A) (u v : Nat)

/-- The sum of the multiples, without the last `i` bits of the numbers. -/
def comb (i : Nat) : A := (u / 2 ^ i) • P + (v / 2 ^ i) • Q

/-- What the bits `i` add. -/
def addend (i : Nat) : A := (u.testBit i).toNat • P + (v.testBit i).toNat • Q

theorem comb_eq (i : Nat) : comb P Q u v i = addend P Q u v i + 2 • comb P Q u v (i + 1) := by
  rw [comb, comb, addend, div_two_pow_testBit u i, div_two_pow_testBit v i, add_nsmul, add_nsmul, nsmul_add,
    ← mul_nsmul', ← mul_nsmul']
  abel

theorem comb_zero : comb P Q u v 0 = u • P + v • Q := by
  rw [comb, pow_zero, Nat.div_one, Nat.div_one]

/-- The top bits. -/
theorem comb_top {i : Nat} (hu : u < 2 ^ (i + 1)) (hv : v < 2 ^ (i + 1)) : comb P Q u v i = addend P Q u v i := by
  rw [comb_eq, comb, Nat.div_eq_of_lt hu, Nat.div_eq_of_lt hv, zero_nsmul, zero_nsmul, add_zero, nsmul_zero, add_zero]

/-- The point that the bits `i` add is equal or opposite to the double. -/
def ClashAt (i : Nat) : Prop :=
  addend P Q u v i ≠ 0 ∧
    (addend P Q u v i = 2 • comb P Q u v (i + 1) ∨ addend P Q u v i = -(2 • comb P Q u v (i + 1)))

/-- There is a clash from the bits `i` on, below `n`. -/
def Clashes (n i : Nat) : Prop := ∃ j, i ≤ j ∧ j < n ∧ ClashAt P Q u v j

variable {P Q u v} {n i : Nat}

theorem clashes_succ_iff (hi : i < n) : Clashes P Q u v n i ↔ ClashAt P Q u v i ∨ Clashes P Q u v n (i + 1) := by
  constructor
  · rintro ⟨j, hij, hjn, hj⟩
    rcases Nat.eq_or_lt_of_le hij with rfl | hlt
    · exact .inl hj
    · exact .inr ⟨j, hlt, hjn, hj⟩
  · rintro (h | ⟨j, hij, hjn, hj⟩)
    · exact ⟨i, Nat.le_refl i, hi, h⟩
    · exact ⟨j, Nat.le_of_succ_le hij, hjn, hj⟩

theorem not_clashes_self (n : Nat) : ¬Clashes P Q u v n n := by
  rintro ⟨j, hij, hjn, -⟩
  omega

end Comb

namespace CoZ

open WeierstrassCurve

variable {F : Type} [Field F] [DecidableEq F] {W : Affine F} [W.IsShortNF] {z : F} {c a : F × F} {P Q : W.Point}

/-- A point is added to one that has a denominator. -/
theorem Scaled.addTo (hc : Scaled W z c P) (hz : z ≠ 0) (ha : Scaled W 1 a Q) :
    (Q = P ∨ Q = -P → z * (c.1 - (CoZ.applyZ z a).1) = 0) ∧
    (¬(Q = P ∨ Q = -P) → z * (c.1 - (CoZ.applyZ z a).1) ≠ 0 ∧
      Scaled W (z * (c.1 - (CoZ.applyZ z a).1)) (CoZ.add (CoZ.applyZ z a) c).2 (Q + P)) := by
  have ht := ha.applyZ z
  rw [one_mul] at ht
  have hiff := ht.x_eq_iff hc hz
  refine ⟨fun h => ?_, fun h => ?_⟩
  · rw [hiff.mpr h, sub_self, mul_zero]
  · have hne := hiff.not.mpr h
    exact ⟨mul_ne_zero hz (sub_ne_zero.mpr (Ne.symm hne)), (ht.add hc hne).2⟩

end CoZ

end Bryllite.Framework
