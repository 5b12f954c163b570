import Mathlib.Algebra.Field.ZMod
import Mathlib.GroupTheory.OrderOfElement
import Mathlib.Tactic.FieldSimp
import Mathlib.Tactic.LinearCombination

/-!
# Signatures over a group of prime order

The algorithm of ECDSA, over a group with a number for each of its elements: a signature is
`r`, the number of a multiple `k` of the generator, and `s = (e + r d) / k` (`signature`).
It is valid for the public key of `d` (`valid_signature`).
-/

namespace Bryllite.Framework.Ecdsa

variable {A : Type} [AddCommGroup A] {G : A} {n : Nat} {xOf : A → Nat}

/-- `a / s` modulo `n`. -/
def quotient (n a s : Nat) : Nat := ((a : ZMod n) * (s : ZMod n)⁻¹).val

/-- The signature `(r, s)` of `e` is valid for the public key `Q`. -/
structure Valid (G : A) (n : Nat) (xOf : A → Nat) (Q : A) (e r s : Nat) : Prop where
  r_ne_zero : r ≠ 0
  s_ne_zero : s ≠ 0
  r_lt : r < n
  s_lt : s < n
  x_eq : xOf (quotient n e s • G + quotient n r s • Q) % n = r

/-- The signature of `e` by the private key `d`, from the random number `k`. -/
def signature (G : A) (n : Nat) (xOf : A → Nat) (d e k : Nat) : Nat × Nat :=
  let r := xOf (k • G) % n
  (r, quotient n (e + r * d) k)

variable [Fact n.Prime]

theorem quotient_lt (a s : Nat) : quotient n a s < n := ZMod.val_lt _

theorem natCast_quotient (a s : Nat) : (quotient n a s : ZMod n) = a * (s : ZMod n)⁻¹ := ZMod.natCast_zmod_val _

/-- The number below `n` that is the quotient. -/
theorem eq_quotient {a s v : Nat} (hv : v < n) (h : (v : ZMod n) = a * (s : ZMod n)⁻¹) : v = quotient n a s := by
  rw [quotient, ← h, ZMod.val_cast_of_lt hv]

theorem nsmul_congr (hG : addOrderOf G = n) {a b : Nat} (h : (a : ZMod n) = b) : a • G = b • G := by
  rw [nsmul_eq_nsmul_iff_modEq, hG]
  exact (ZMod.natCast_eq_natCast_iff _ _ _).mp h

theorem natCast_ne_zero {a : Nat} (h0 : a ≠ 0) (hlt : a < n) : (a : ZMod n) ≠ 0 := by
  rw [ne_eq, ZMod.natCast_eq_zero_iff]
  exact fun hdvd => h0 (Nat.eq_zero_of_dvd_of_lt hdvd hlt)

theorem zero_quotient (s : Nat) : quotient n 0 s = 0 := by
  rw [quotient, Nat.cast_zero, zero_mul, ZMod.val_zero]

theorem quotient_zero (a : Nat) : quotient n a 0 = 0 := by
  rw [quotient, Nat.cast_zero, inv_zero, mul_zero, ZMod.val_zero]

theorem mul_quotient {a s : Nat} (ha : a < n) (h0 : s ≠ 0) (hs : s < n) : quotient n (a * s) s = a := by
  refine (eq_quotient ha ?_).symm
  rw [Nat.cast_mul, mul_assoc, mul_inv_cancel₀ (natCast_ne_zero h0 hs), mul_one]

/-- The two multiples are that of `k`. -/
theorem nsmul_quotient (hG : addOrderOf G = n) {d e k r : Nat} (hk : (k : ZMod n) ≠ 0)
    (hs : quotient n (e + r * d) k ≠ 0) :
    quotient n e (quotient n (e + r * d) k) • G + quotient n r (quotient n (e + r * d) k) • d • G = k • G := by
  have hscast := natCast_ne_zero hs (quotient_lt _ _)
  have hsdef := natCast_quotient (n := n) (e + r * d) k
  generalize quotient n (e + r * d) k = s at hscast hsdef ⊢
  push_cast at hsdef
  rw [smul_smul, ← add_nsmul]
  refine nsmul_congr hG ?_
  rw [Nat.cast_add, Nat.cast_mul, natCast_quotient, natCast_quotient]
  field_simp
  rw [hsdef]
  field_simp

theorem valid_signature (hG : addOrderOf G = n) {d e k : Nat} (hk : (k : ZMod n) ≠ 0)
    (hr : (signature G n xOf d e k).1 ≠ 0) (hs : (signature G n xOf d e k).2 ≠ 0) :
    Valid G n xOf (d • G) e (signature G n xOf d e k).1 (signature G n xOf d e k).2 where
  r_ne_zero := hr
  s_ne_zero := hs
  r_lt := Nat.mod_lt _ (Fact.out : n.Prime).pos
  s_lt := quotient_lt _ _
  x_eq := congrArg (xOf · % n) (nsmul_quotient hG hk hs)

end Bryllite.Framework.Ecdsa
