import Mathlib.AlgebraicGeometry.EllipticCurve.Affine.Point
import Mathlib.GroupTheory.Perm.Cycle.Type

/-!
# The order of a curve

A curve over a field of `q` elements has at most `2 q + 1` points (`card_point_le`). So a
point of an order above a third of that leaves one or two cosets, and where no point is its
own opposite there is one: the curve has that many points (`natCard_point`). If that is a
prime, it is the order of every point (`addOrderOf_eq`).
-/

namespace Bryllite.Framework

open WeierstrassCurve WeierstrassCurve.Affine

variable {F : Type} [Field F] [DecidableEq F] {W : Affine F}

/-- One of the points with a given `x`, if there is any. -/
noncomputable def someY (W : Affine F) (x : F) : F :=
  open Classical in if h : ∃ y, W.Nonsingular x y then h.choose else 0

/-- A point by its `x` and which of the two it is. -/
noncomputable def pointCode : W.Point → Option (F × Bool)
  | 0 => none
  | .some x y _ => some (x, decide (y = someY W x))

theorem pointCode_injective : Function.Injective (pointCode (W := W)) := by
  rintro (_ | ⟨x, y, h⟩) (_ | ⟨x', y', h'⟩) heq
  · rfl
  · cases heq
  · cases heq
  · obtain ⟨rfl, hdec⟩ := Prod.mk.inj (Option.some.inj heq)
    have hsome : W.Nonsingular x (someY W x) := by
      rw [someY, dif_pos ⟨y, h⟩]
      exact Exists.choose_spec ⟨y, h⟩
    have hy := Y_eq_of_X_eq h.1 hsome.1 rfl
    have hy' := Y_eq_of_X_eq h'.1 hsome.1 rfl
    rw [decide_eq_decide] at hdec
    have : y = y' := by
      by_cases hc : y = someY W x
      · rw [hc, ← hdec.mp hc]
      · rw [hy.resolve_left hc, hy'.resolve_left (hdec.not.mp hc)]
    subst this
    rfl

variable [Fintype F]

instance finite_point : Finite W.Point := Finite.of_injective _ pointCode_injective

theorem card_point_le : Nat.card W.Point ≤ 2 * Fintype.card F + 1 := by
  have h := Nat.card_le_card_of_injective _ (pointCode_injective (W := W))
  rw [Nat.card_eq_fintype_card (α := Option (F × Bool)), Fintype.card_option, Fintype.card_prod, Fintype.card_bool,
    mul_comm] at h
  exact h

section PrimeOrder

variable {n : Nat} (hn : n.Prime) {P : W.Point} (hP : addOrderOf P = n) (hlt : 2 * Fintype.card F + 1 < 3 * n)
  (htwo : ∀ Q : W.Point, Q + Q = 0 → Q = 0)
include hP hlt htwo

theorem natCard_point : Nat.card W.Point = n := by
  obtain ⟨k, hk⟩ : n ∣ Nat.card W.Point := hP ▸ addOrderOf_dvd_natCard P
  have hle : n * k ≤ 2 * Fintype.card F + 1 := hk ▸ card_point_le (W := W)
  have hk3 : k < 3 := by
    by_contra h
    exact absurd (Nat.mul_le_mul_left n (not_lt.mp h)) (by omega)
  have hk0 : k ≠ 0 := by
    rintro rfl
    exact Nat.card_pos.ne' (hk.trans (Nat.mul_zero n))
  -- a group of even order has an element of order 2
  have hk2 : k ≠ 2 := by
    rintro rfl
    obtain ⟨R, hR⟩ := exists_prime_addOrderOf_dvd_card' (G := W.Point) 2 (hk ▸ Dvd.intro_left n rfl)
    have hRR : R + R = 0 := by rw [← two_nsmul, ← hR, addOrderOf_nsmul_eq_zero]
    rw [htwo R hRR, addOrderOf_zero] at hR
    exact absurd hR (by omega)
  obtain rfl : k = 1 := by omega
  rw [hk, Nat.mul_one]

include hn

theorem addOrderOf_eq {Q : W.Point} (hQ : Q ≠ 0) : addOrderOf Q = n := by
  have hdvd : addOrderOf Q ∣ n := natCard_point hP hlt htwo ▸ addOrderOf_dvd_natCard Q
  exact (hn.eq_one_or_self_of_dvd _ hdvd).resolve_left fun h => hQ (AddMonoid.addOrderOf_eq_one_iff.mp h)

end PrimeOrder

end Bryllite.Framework
