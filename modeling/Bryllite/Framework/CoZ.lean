import Mathlib.AlgebraicGeometry.EllipticCurve.Affine.Point
import Mathlib.AlgebraicGeometry.EllipticCurve.NormalForms
import Mathlib.Tactic.FieldSimp
import Mathlib.Tactic.LinearCombination

/-!
# Points that share a denominator

On a short Weierstrass curve two points with one `z`, as `(x z ^ 2, y z ^ 3)`, are added
without it: `add` makes the sum and the first point again for a new `z` that both share
(`Scaled.add`), and `addConj` the sum and the difference (`Scaled.addConj`). `double` is
the first step from one point to two (`Scaled.double`).
-/

namespace Bryllite.Framework.CoZ

open WeierstrassCurve WeierstrassCurve.Affine

section Formulas

variable {F : Type} [CommRing F]

def applyZ (z : F) (c : F × F) : F × F := (c.1 * z ^ 2, c.2 * z ^ 3)

/-- The first point, and the sum. -/
def add (c d : F × F) : (F × F) × (F × F) :=
  let a := (d.1 - c.1) ^ 2
  let b := c.1 * a
  let e := d.1 * a
  let x := (d.2 - c.2) ^ 2 - b - e
  ((b, c.2 * (e - b)), (x, (d.2 - c.2) * (b - x) - c.2 * (e - b)))

/-- The first point less the second, and the sum. -/
def addConj (c d : F × F) : (F × F) × (F × F) :=
  let a := (d.1 - c.1) ^ 2
  let b := c.1 * a
  let e := d.1 * a
  let x := (d.2 - c.2) ^ 2 - (b + e)
  let x' := (d.2 + c.2) ^ 2 - (b + e)
  ((x', (d.2 + c.2) * (x' - b) - c.2 * (e - b)), (x, (d.2 - c.2) * (b - x) - c.2 * (e - b)))

/-- The double, for the `z` of the point and half of `3 (x ^ 2 - z ^ 4)`. -/
def double (b : F) (c : F × F) : F × F :=
  let a := c.1 * c.2 ^ 2
  let x := b ^ 2 - 2 * a
  (x, b * (a - x) - c.2 ^ 4)

end Formulas

variable {F : Type} [Field F] {W : Affine F} {z : F} {c d : F × F} {P Q : W.Point}

/-- `c` is the point `P` for the denominator `z`. -/
def Scaled (W : Affine F) (z : F) (c : F × F) (P : W.Point) : Prop :=
  ∃ x y, ∃ h : W.Nonsingular x y, P = .some x y h ∧ c = applyZ z (x, y)

theorem Scaled.ne_zero (h : Scaled W z c P) : P ≠ 0 := by
  obtain ⟨x, y, hxy, rfl, -⟩ := h
  exact Point.some_ne_zero hxy

/-- Different `x` come from a `z` that is not zero. -/
theorem Scaled.z_ne_zero (hc : Scaled W z c P) (hd : Scaled W z d Q) (hne : c.1 ≠ d.1) : z ≠ 0 := by
  obtain ⟨x, y, -, -, rfl⟩ := hc
  obtain ⟨x', y', -, -, rfl⟩ := hd
  rintro rfl
  simp [applyZ] at hne

theorem Scaled.x_eq_iff (hc : Scaled W z c P) (hd : Scaled W z d Q) (hz : z ≠ 0) :
    c.1 = d.1 ↔ P = Q ∨ P = -Q := by
  obtain ⟨x, y, hxy, rfl, rfl⟩ := hc
  obtain ⟨x', y', hxy', rfl, rfl⟩ := hd
  rw [← Point.X_eq_iff]
  exact mul_left_inj' (pow_ne_zero 2 hz)

theorem Scaled.neg [W.IsShortNF] (hc : Scaled W z c P) : Scaled W z (c.1, -c.2) (-P) := by
  obtain ⟨x, y, hxy, rfl, rfl⟩ := hc
  refine ⟨x, W.negY x y, (nonsingular_neg ..).mpr hxy, Point.neg_some hxy, ?_⟩
  simp [applyZ, negY]

/-- A point for one `z` is a point for another. -/
theorem Scaled.applyZ (hc : Scaled W z c P) (t : F) : Scaled W (z * t) (applyZ t c) P := by
  obtain ⟨x, y, hxy, rfl, rfl⟩ := hc
  refine ⟨x, y, hxy, rfl, ?_⟩
  simp only [CoZ.applyZ, mul_pow, mul_assoc]

/-- The coordinates for any `z` come from those for `1`. -/
theorem Scaled.eq_applyZ (hc : Scaled W z c P) (hd : Scaled W 1 d P) : c = CoZ.applyZ z d := by
  obtain ⟨x, y, hxy, rfl, rfl⟩ := hc
  obtain ⟨x', y', hxy', heq, rfl⟩ := hd
  cases heq
  simp [CoZ.applyZ]

/-- The coordinates for any `z` have the ratio of those for `1`. -/
theorem Scaled.ratio {p q : F × F} (hc : Scaled W z c P) (hd : Scaled W z d Q) (hp : Scaled W 1 p P)
    (hq : Scaled W 1 q Q) : q.1 * c.1 = p.1 * d.1 := by
  rw [hc.eq_applyZ hp, hd.eq_applyZ hq]
  exact mul_left_comm _ _ _

theorem Scaled.coords_eq (hc : Scaled W z c P) (hd : Scaled W z d P) : c = d := by
  obtain ⟨x, y, hxy, rfl, rfl⟩ := hc
  obtain ⟨x', y', hxy', heq, rfl⟩ := hd
  cases heq
  rfl

variable [W.IsShortNF]

theorem Scaled.y_ne_negY (hc : Scaled W z c P) (htwo : (2 : F) ≠ 0) (hy : c.2 ≠ 0) :
    ∃ x y, ∃ h : W.Nonsingular x y, P = .some x y h ∧ c = CoZ.applyZ z (x, y) ∧ y ≠ 0 ∧ y ≠ W.negY x y := by
  obtain ⟨x, y, hxy, rfl, rfl⟩ := hc
  have hy0 : y ≠ 0 := left_ne_zero_of_mul hy
  refine ⟨x, y, hxy, rfl, rfl, hy0, ?_⟩
  rw [negY, a₁_of_isShortNF, a₃_of_isShortNF, zero_mul, sub_zero, sub_zero, ne_eq, eq_neg_iff_add_eq_zero, ← two_mul]
  exact mul_ne_zero htwo hy0

variable [DecidableEq F]

theorem Scaled.add_self_of_y_eq_zero (hc : Scaled W z c P) (hz : z ≠ 0) (hy : c.2 = 0) : P + P = 0 := by
  obtain ⟨x, y, hxy, rfl, rfl⟩ := hc
  obtain rfl : y = 0 := (mul_eq_zero.mp hy).resolve_right (pow_ne_zero 3 hz)
  refine Point.add_self_of_Y_eq ?_
  simp [negY]

theorem Scaled.add_self_ne_zero (hc : Scaled W z c P) (htwo : (2 : F) ≠ 0) (hy : c.2 ≠ 0) : P + P ≠ 0 := by
  obtain ⟨x, y, hxy, rfl, -, -, hne⟩ := hc.y_ne_negY htwo hy
  rw [Point.add_self_of_Y_ne hne]
  exact Point.some_ne_zero _

theorem Scaled.add (hc : Scaled W z c P) (hd : Scaled W z d Q) (hne : c.1 ≠ d.1) :
    Scaled W (z * (d.1 - c.1)) (add c d).1 P ∧ Scaled W (z * (d.1 - c.1)) (add c d).2 (P + Q) := by
  have hz := hc.z_ne_zero hd hne
  obtain ⟨x, y, hxy, rfl, rfl⟩ := hc
  obtain ⟨x', y', hxy', rfl, rfl⟩ := hd
  have hx : x ≠ x' := fun h => hne (congrArg (· * z ^ 2) h)
  have hsub : x - x' ≠ 0 := sub_ne_zero.mpr hx
  refine ⟨⟨x, y, hxy, rfl, ?_⟩, ⟨_, _, _, Point.add_of_X_ne hx, ?_⟩⟩
  · simp only [CoZ.add, CoZ.applyZ, Prod.mk.injEq]
    constructor <;> ring
  · simp only [CoZ.add, CoZ.applyZ, addX, addY, negAddY, negY, slope_of_X_ne hx, a₁_of_isShortNF, a₂_of_isShortNF,
      a₃_of_isShortNF, Prod.mk.injEq]
    constructor <;> field_simp <;> ring

theorem Scaled.addConj (hc : Scaled W z c P) (hd : Scaled W z d Q) (hne : c.1 ≠ d.1) :
    Scaled W (z * (d.1 - c.1)) (addConj c d).1 (P - Q) ∧
      Scaled W (z * (d.1 - c.1)) (addConj c d).2 (P + Q) := by
  -- the difference is the sum with the negated point
  have hdiff := (hc.add hd.neg hne).2
  have hsum := (hc.add hd hne).2
  rw [← sub_eq_add_neg] at hdiff
  have hfst : (CoZ.addConj c d).1 = (CoZ.add c (d.1, -d.2)).2 := by
    simp only [CoZ.addConj, CoZ.add, Prod.mk.injEq]
    constructor <;> ring
  have hsnd : (CoZ.addConj c d).2 = (CoZ.add c d).2 := by
    simp only [CoZ.addConj, CoZ.add, Prod.mk.injEq]
    constructor <;> ring
  rw [hfst, hsnd]
  exact ⟨hdiff, hsum⟩

theorem Scaled.double (ha₄ : W.a₄ = -3) (htwo : (2 : F) ≠ 0) (hz : z ≠ 0) (hc : Scaled W z c P) (hy : c.2 ≠ 0) {b : F}
    (hb : 2 * b = 3 * (c.1 ^ 2 - z ^ 4)) : Scaled W (c.2 * z) (double b c) (P + P) := by
  obtain ⟨x, y, hxy, rfl, rfl, hy0, hne⟩ := hc.y_ne_negY htwo hy
  have hbx : b = 3 * (x ^ 2 - 1) * z ^ 4 / 2 := by
    rw [eq_div_iff htwo, mul_comm b, hb, CoZ.applyZ]
    ring
  refine ⟨_, _, _, Point.add_self_of_Y_ne hne, ?_⟩
  have hslope : W.slope x x y y = 3 * (x ^ 2 - 1) / (2 * y) := by
    rw [slope_of_Y_ne rfl hne, a₁_of_isShortNF, a₂_of_isShortNF, ha₄, negY, a₁_of_isShortNF, a₃_of_isShortNF]
    congr 1 <;> ring
  simp only [CoZ.double, CoZ.applyZ, addX, addY, negAddY, negY, hslope, hbx, a₁_of_isShortNF, a₂_of_isShortNF,
    a₃_of_isShortNF, Prod.mk.injEq]
  constructor <;> field_simp <;> ring

end Bryllite.Framework.CoZ
