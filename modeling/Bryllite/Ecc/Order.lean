import Bryllite.Ecc.PointMult
import Bryllite.Framework.CurveOrder
import Bryllite.Framework.ModCubic

/-!
# The order of the curve (secp256r1.cpp, curve_G and curve_n)

`curve_G` is a point of the curve (`nonsingular_curveG`). A ladder on residues, with every
comparison made, meets two opposite neighbours at `( curve_n - 1 ) / 2`, so that the order
of `curve_G` is the prime `curve_n` (`addOrderOf_basePoint`). The cubic of the curve has no
root (`no_root`), so that no point is its own opposite; hence the curve has `curve_n` points,
and every point but the neutral one has that order (`curve_order`).
-/

namespace Bryllite.Ecc

open Bryllite.Framework WeierstrassCurve

theorem curve_equation_iff (x y : Fp) : curve.Equation x y ↔ y ^ 2 = (x ^ 2 - 3) * x + curveB.toFp := by
  have hcubic : (x ^ 2 - 3) * x = x ^ 3 + -3 * x := by ring
  rw [Affine.equation_iff, hcubic]
  simp only [curve, zero_mul, add_zero]

/-- The curve has no singular points. -/
theorem nonsingular_of_equation {x y : Fp} (h : curve.Equation x y) : curve.Nonsingular x y := by
  have hΔ : curve.Δ ≠ 0 := by decide +kernel
  exact (Affine.equation_iff_nonsingular_of_Δ_ne_zero hΔ).mp h

theorem nonsingular_curveG : curve.Nonsingular curveG.x.toFp curveG.y.toFp := by
  refine nonsingular_of_equation ((curve_equation_iff _ _).mpr ?_)
  decide +kernel

/-- The point of `curve_G`. -/
def basePoint : curve.Point := .some curveG.x.toFp curveG.y.toFp nonsingular_curveG

theorem represents_of_eq {p : EccPoint} (h : curve.Nonsingular p.x.toFp p.y.toFp) :
    p.Represents (.some p.x.toFp p.y.toFp h) :=
  ⟨_, _, h, rfl, by simp [CoZ.applyZ, EccPoint.coords]⟩

theorem represents_curveG : curveG.Represents basePoint := represents_of_eq nonsingular_curveG

/-- The first rung of the ladder from `curve_G`. -/
def baseRung : (Fp × Fp) × (Fp × Fp) := coordsPair (xyczInitialDouble curveG none).swap

theorem rungs_baseRung : CoZ.Rungs curve basePoint 1 baseRung := by
  have hy : curveG.coords.2 ≠ 0 := by decide +kernel
  exact rungs_initialDouble represents_curveG (represents_curveG.add_self_ne_zero Fp.two_ne_zero hy) (by decide +kernel)

/-- The two neighbours of half the order have one `x`. -/
theorem checkedLadder_baseRung :
    ((CoZ.checkedLadder baseRung (curveN.value / 2)).any fun r => r.1.1 = r.2.1) = true := by
  decide +kernel

theorem addOrderOf_basePoint : addOrderOf basePoint = curveN.value := by
  have hne : basePoint ≠ 0 := represents_curveG.ne_zero
  have hhalf : curveN.value / 2 ≠ 0 := by decide +kernel
  have hodd : 2 * (curveN.value / 2) + 1 = curveN.value := by decide +kernel
  obtain ⟨r, hr, heq⟩ := (Option.any_eq_true _ _).mp checkedLadder_baseRung
  have hzero := CoZ.smul_eq_zero_of_checked rungs_baseRung hhalf hr (of_decide_eq_true heq) hne
  rw [hodd] at hzero
  have : Fact curveN.value.Prime := ⟨prime_curveN⟩
  exact addOrderOf_eq_prime hzero hne

/-! ## All points -/

/-- The inverse of `X ^ p - X` modulo the cubic of the curve. -/
def frobeniusInverse : ModCubic Fp where
  c0 := 76626890310466861426869089647039036757962535851890885406097439786770458211455
  c1 := 74462945259064871768191128030512052509059297803194871526163573358218695456204
  c2 := 34768139465301476436978405170953382516735956999154666452188405812258086013549

theorem no_root (x : Fp) : (x ^ 2 - 3) * x + curveB.toFp ≠ 0 := by
  have hinverse : ModCubic.mul (-3) curveB.toFp frobeniusInverse
      (ModCubic.sub (ModCubic.powX (-3) curveB.toFp curveP.value) ModCubic.X) = ModCubic.one := by decide +kernel
  have h := ModCubic.no_root_of_inverse Fp.pow_card frobeniusInverse hinverse x
  rwa [show (x ^ 2 - 3) * x + curveB.toFp = x ^ 3 + -3 * x + curveB.toFp by ring]

theorem eq_zero_of_add_self {Q : curve.Point} (h : Q + Q = 0) : Q = 0 := by
  by_contra hQ
  obtain _ | ⟨x, y, hxy⟩ := Q
  · exact hQ rfl
  · have hQ : CoZ.Scaled curve 1 (x, y) (.some x y hxy) := ⟨x, y, hxy, rfl, by simp [CoZ.applyZ]⟩
    have hy : y = 0 := by
      by_contra hy
      exact hQ.add_self_ne_zero Fp.two_ne_zero hy h
    have heq := (curve_equation_iff x y).mp hxy.1
    rw [hy, zero_pow two_ne_zero] at heq
    exact no_root x heq.symm

theorem card_lt_order : 2 * Fintype.card Fp + 1 < 3 * curveN.value := by
  rw [show Fintype.card Fp = curveP.value from ZMod.card _]
  decide +kernel

theorem addOrderOf_point {P : curve.Point} (hP : P ≠ 0) : addOrderOf P = curveN.value :=
  addOrderOf_eq prime_curveN addOrderOf_basePoint card_lt_order (fun _ => eq_zero_of_add_self) hP

/-- `curve_n` is the number of points of the curve, and the order of each but the neutral one. -/
theorem curve_order : Nat.card curve.Point = curveN.value ∧
    ∀ P : curve.Point, P ≠ 0 → addOrderOf P = curveN.value :=
  ⟨natCard_point addOrderOf_basePoint card_lt_order fun _ => eq_zero_of_add_self, fun _ => addOrderOf_point⟩

/-! ## The multiples of a point of the curve -/

/-- The coordinates meet the equation of the curve. -/
def EccPoint.OnCurve (p : EccPoint) : Prop := curve.Equation p.x.toFp p.y.toFp

theorem onCurve_curveG : curveG.OnCurve := nonsingular_curveG.1

/-- The point of the curve. -/
def EccPoint.point (p : EccPoint) (h : p.OnCurve) : curve.Point := .some _ _ (nonsingular_of_equation h)

theorem EccPoint.represents_iff {p : EccPoint} {P : curve.Point} :
    p.Represents P ↔ ∃ h : p.OnCurve, P = p.point h := by
  constructor
  · rintro ⟨x, y, hxy, rfl, hc⟩
    simp only [CoZ.applyZ, one_pow, mul_one, EccPoint.coords, Prod.mk.injEq] at hc
    obtain ⟨rfl, rfl⟩ := hc
    exact ⟨hxy.1, rfl⟩
  · rintro ⟨h, rfl⟩
    exact represents_of_eq _

theorem EccPoint.OnCurve.represents {p : EccPoint} (h : p.OnCurve) : p.Represents (p.point h) :=
  represents_iff.mpr ⟨h, rfl⟩

theorem EccPoint.OnCurve.point_ne_zero {p : EccPoint} (h : p.OnCurve) : p.point h ≠ 0 := h.represents.ne_zero

/-- Where `EccPoint_mult` has no multiple to give: the denominator 0, a point
with `x` 0, and the scalars `curve_n` and the number before it. -/
def MultFails (point : EccPoint) (scalar : Vli) (initialZ : Option Vli) : Prop :=
  (initialZ.getD (vliOf 1)).toFp = 0 ∨ point.x.toFp = 0 ∨ 2 * (scalar.value / 2) + 1 = curveN.value

instance decidable_multFails (point : EccPoint) (scalar : Vli) (initialZ : Option Vli) :
    Decidable (MultFails point scalar initialZ) := inferInstanceAs (Decidable (_ ∨ _ ∨ _))

/-- Of a point of the curve, `EccPoint_mult` gives zeros there, -/
theorem eccPointMult_of_fails {point : EccPoint} (hp : point.OnCurve) {scalar : Vli} {initialZ : Option Vli}
    (h : MultFails point scalar initialZ) : eccPointMult point scalar initialZ = ⟨vliClear, vliClear⟩ := by
  by_cases hz : (initialZ.getD (vliOf 1)).toFp = 0
  · exact eccPointMult_z_zero point scalar hz
  · rcases h.resolve_left hz with hx | hn
    · exact eccPointMult_x_zero hx scalar initialZ
    · exact eccPointMult_order hp.represents (addOrderOf_point hp.point_ne_zero) hz hn

/-- and the multiple otherwise. -/
theorem eccPointMult_of_not_fails {point : EccPoint} (hp : point.OnCurve) {scalar : Vli} {initialZ : Option Vli}
    (h : ¬MultFails point scalar initialZ) : (eccPointMult point scalar initialZ).Reduced ∧
      (eccPointMult point scalar initialZ).Represents (takenScalar scalar • point.point hp) := by
  obtain ⟨hz, h⟩ := not_or.mp h
  obtain ⟨hx, hn⟩ := not_or.mp h
  exact eccPointMult_spec hp.represents (addOrderOf_point hp.point_ne_zero) hz hx hn

/-- `EccPoint_mult` of any point of the curve, by any scalar and from any
denominator: zeros where it fails, and else the multiple. -/
theorem eccPointMult_exact {point : EccPoint} (hp : point.OnCurve) (scalar : Vli) (initialZ : Option Vli) :
    if MultFails point scalar initialZ then eccPointMult point scalar initialZ = ⟨vliClear, vliClear⟩
    else (eccPointMult point scalar initialZ).Represents (takenScalar scalar • point.point hp) := by
  split
  · rename_i h
    exact eccPointMult_of_fails hp h
  · rename_i h
    exact (eccPointMult_of_not_fails hp h).2

theorem eccPointMult_exact_sample : curveG.OnCurve ∧ ¬MultFails curveG (vliOf 5) none ∧
    (eccPointMult curveG (vliOf 5) none).Represents (5 • basePoint) := by
  have hfails : ¬MultFails curveG (vliOf 5) none := by decide +kernel
  have h := eccPointMult_exact onCurve_curveG (vliOf 5) none
  rw [if_neg hfails] at h
  exact ⟨onCurve_curveG, hfails, h⟩

end Bryllite.Ecc
