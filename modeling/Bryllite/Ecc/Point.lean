import Bryllite.Ecc.Residue
import Bryllite.Framework.CoZ

/-!
# Points (secp256r1.cpp, EccPoint_double_jacobian to XYcZ_addC)

The point operations are the formulas for points with a shared denominator on residues
(`coords_xyczAdd`, `coords_xyczAddC`, `coords_doubleJacobian`), and leave reduced
coordinates.
-/

namespace Bryllite.Ecc

open Bryllite.Framework

@[ext] structure EccPoint where
  x : Vli
  y : Vli
  deriving DecidableEq

/-- `curve_b`. -/
def curveB : Vli := ⟨[0x3BCE3C3E27D2604B, 0x651D06B0CC53B0F6, 0xB3EBBD55769886BC, 0x5AC635D8AA3A93E7], rfl⟩

/-- `curve_G`. -/
def curveG : EccPoint where
  x := ⟨[0xF4A13945D898C296, 0x77037D812DEB33A0, 0xF8BCE6E563A440F2, 0x6B17D1F2E12C4247], rfl⟩
  y := ⟨[0xCBB6406837BF51F5, 0x2BCE33576B315ECE, 0x8EE7EB4A7C0F9E16, 0x4FE342E2FE1A7F9B], rfl⟩

/-- `EccPoint_isZero`. -/
def eccPointIsZero (point : EccPoint) : Bool := vliIsZero point.x && vliIsZero point.y

/-- `X1` is halved modulo the prime: it is added if `X1` is odd, and the carry put on top. -/
def halfModP (x1 : Vli) : Vli :=
  if vliTestBit x1 0 ≠ 0 then
    let (x1, carry) := vliAdd x1 curveP
    orTop (vliRshift1 x1) (carry <<< 63)
  else vliRshift1 x1

/-- `EccPoint_double_jacobian`. -/
def eccPointDoubleJacobian (p : EccPoint) (z1 : Vli) : EccPoint × Vli :=
  if vliIsZero z1 then (p, z1)
  else
    let t4 := vliModSquareFast p.y
    let t5 := vliModMultFast p.x t4
    let t4 := vliModSquareFast t4
    let y1 := vliModMultFast p.y z1
    let z1 := vliModSquareFast z1
    let x1 := vliModAdd p.x z1 curveP
    let z1 := vliModAdd z1 z1 curveP
    let z1 := vliModSub x1 z1 curveP
    let x1 := vliModMultFast x1 z1
    let z1 := vliModAdd x1 x1 curveP
    let x1 := vliModAdd x1 z1 curveP
    let x1 := halfModP x1
    let z1 := vliModSquareFast x1
    let z1 := vliModSub z1 t5 curveP
    let z1 := vliModSub z1 t5 curveP
    let t5 := vliModSub t5 z1 curveP
    let x1 := vliModMultFast x1 t5
    let t4 := vliModSub x1 t4 curveP
    (⟨z1, t4⟩, y1)

/-- `apply_z`. -/
def applyZ (p : EccPoint) (z : Vli) : EccPoint :=
  let t1 := vliModSquareFast z
  let x1 := vliModMultFast p.x t1
  let t1 := vliModMultFast t1 z
  let y1 := vliModMultFast p.y t1
  ⟨x1, y1⟩

/-- `XYcZ_initial_double`: the double of the point, and the point. -/
def xyczInitialDouble (p : EccPoint) (initialZ : Option Vli) : EccPoint × EccPoint :=
  let z := initialZ.getD (vliOf 1)
  let (d, z) := eccPointDoubleJacobian (applyZ p z) z
  (d, applyZ p z)

/-- `XYcZ_add`. -/
def xyczAdd (p q : EccPoint) : EccPoint × EccPoint :=
  let t5 := vliModSub q.x p.x curveP
  let t5 := vliModSquareFast t5
  let x1 := vliModMultFast p.x t5
  let x2 := vliModMultFast q.x t5
  let y2 := vliModSub q.y p.y curveP
  let t5 := vliModSquareFast y2
  let t5 := vliModSub t5 x1 curveP
  let t5 := vliModSub t5 x2 curveP
  let x2 := vliModSub x2 x1 curveP
  let y1 := vliModMultFast p.y x2
  let x2 := vliModSub x1 t5 curveP
  let y2 := vliModMultFast y2 x2
  let y2 := vliModSub y2 y1 curveP
  (⟨x1, y1⟩, ⟨t5, y2⟩)

/-- `XYcZ_addC`. -/
def xyczAddC (p q : EccPoint) : EccPoint × EccPoint :=
  let t5 := vliModSub q.x p.x curveP
  let t5 := vliModSquareFast t5
  let x1 := vliModMultFast p.x t5
  let x2 := vliModMultFast q.x t5
  let t5 := vliModAdd q.y p.y curveP
  let y2 := vliModSub q.y p.y curveP
  let t6 := vliModSub x2 x1 curveP
  let y1 := vliModMultFast p.y t6
  let t6 := vliModAdd x1 x2 curveP
  let x2 := vliModSquareFast y2
  let x2 := vliModSub x2 t6 curveP
  let t7 := vliModSub x1 x2 curveP
  let y2 := vliModMultFast y2 t7
  let y2 := vliModSub y2 y1 curveP
  let t7 := vliModSquareFast t5
  let t7 := vliModSub t7 t6 curveP
  let t6 := vliModSub t7 x1 curveP
  let t6 := vliModMultFast t6 t5
  let y1 := vliModSub t6 y1 curveP
  (⟨t7, y1⟩, ⟨x2, y2⟩)

namespace EccPoint

/-- The coordinates as residues. -/
def coords (p : EccPoint) : Fp × Fp := (p.x.toFp, p.y.toFp)

structure Reduced (p : EccPoint) : Prop where
  x : p.x.Reduced
  y : p.y.Reduced

end EccPoint

variable {p q : EccPoint}

/-! ## The operations on residues -/

/-- The carry of an odd number comes back as the top bit. -/
theorem value_halfModP (x : Vli) : (halfModP x).value = halveMod curveP.value x.value := by
  have hadd := vliAdd_value x curveP
  have hcarry := vliAdd_carry x curveP
  have hlt := Vli.value_lt (vliAdd x curveP).1
  have hhalf := value_vliRshift1 (vliAdd x curveP).1
  rw [halfModP, halveMod]
  by_cases hodd : vliTestBit x 0 ≠ 0
  · have hmod : x.value % 2 = 1 := by simpa using (vliTestBit_ne_zero_iff x 0).mp hodd
    have hbit : ((vliAdd x curveP).2 <<< 63).toNat = (vliAdd x curveP).2.toNat * 2 ^ 63 := by
      rw [BitVec.toNat_shiftLeft, Nat.shiftLeft_eq]
      omega
    rw [if_pos hodd, if_neg (by omega), value_orTop _ _ (by omega) (by omega), hbit]
    omega
  · have hmod : x.value % 2 = 0 := by simpa using (vliTestBit_ne_zero_iff x 0).not.mp hodd
    rw [if_neg hodd, if_pos hmod, value_vliRshift1]

@[simp] theorem reduced_halfModP {x : Vli} (hx : x.Reduced) : (halfModP x).Reduced := by
  rw [Vli.Reduced] at *
  rw [value_halfModP]
  exact halveMod_lt hx

theorem toFp_halfModP (x : Vli) : 2 * (halfModP x).toFp = x.toFp := by
  have h := two_mul_halveMod curveP_odd x.value
  rw [← value_halfModP, ← Fp.natCast_eq_natCast_iff, Nat.cast_mul, Nat.cast_two] at h
  rwa [Vli.toFp, Vli.toFp]

@[simp] theorem reduced_applyZ (p : EccPoint) (z : Vli) : (applyZ p z).Reduced := by
  constructor <;> simp only [applyZ, reduced_modMult]

@[simp] theorem coords_applyZ (p : EccPoint) (z : Vli) : (applyZ p z).coords = CoZ.applyZ z.toFp p.coords := by
  simp only [applyZ, EccPoint.coords, CoZ.applyZ, toFp_modMult, toFp_modSquare, Prod.mk.injEq, true_and]
  ring

theorem reduced_xyczAdd (p q : EccPoint) : (xyczAdd p q).1.Reduced ∧ (xyczAdd p q).2.Reduced := by
  refine ⟨⟨?_, ?_⟩, ⟨?_, ?_⟩⟩ <;> simp [xyczAdd]

theorem coords_xyczAdd (hp : p.Reduced) (q : EccPoint) :
    ((xyczAdd p q).1.coords, (xyczAdd p q).2.coords) = CoZ.add p.coords q.coords := by
  have hx := (reduced_xyczAdd p q).2.x
  simp only [xyczAdd] at hx
  simp [xyczAdd, EccPoint.coords, CoZ.add, hp.x, hp.y, hx]

theorem reduced_xyczAddC (p q : EccPoint) : (xyczAddC p q).1.Reduced ∧ (xyczAddC p q).2.Reduced := by
  refine ⟨⟨?_, ?_⟩, ⟨?_, ?_⟩⟩ <;> simp [xyczAddC]

theorem coords_xyczAddC (hp : p.Reduced) (q : EccPoint) :
    ((xyczAddC p q).1.coords, (xyczAddC p q).2.coords) = CoZ.addConj p.coords q.coords := by
  have hx := (reduced_xyczAddC p q).2.x
  simp only [xyczAddC] at hx
  simp [xyczAddC, EccPoint.coords, CoZ.addConj, hp.x, hp.y, hx, mul_comm]

theorem reduced_doubleJacobian (p : EccPoint) {z : Vli} (hz : z.value ≠ 0) :
    (eccPointDoubleJacobian p z).1.Reduced ∧ (eccPointDoubleJacobian p z).2.Reduced := by
  have hz' : vliIsZero z = false := Bool.eq_false_iff.mpr fun h => hz ((vliIsZero_iff z).mp h)
  refine ⟨⟨?_, ?_⟩, ?_⟩ <;> simp [eccPointDoubleJacobian, hz']

/-- The double, where the halved number is one of its factors. -/
theorem coords_doubleJacobian (p : EccPoint) {z : Vli} (hz : z.value ≠ 0) :
    ∃ b, 2 * b = 3 * (p.coords.1 ^ 2 - z.toFp ^ 4) ∧ (eccPointDoubleJacobian p z).1.coords = CoZ.double b p.coords ∧
      (eccPointDoubleJacobian p z).2.toFp = p.coords.2 * z.toFp := by
  have hz' : vliIsZero z = false := Bool.eq_false_iff.mpr fun h => hz ((vliIsZero_iff z).mp h)
  let x := vliModMultFast (vliModAdd p.x (vliModSquareFast z) curveP)
    (vliModSub (vliModAdd p.x (vliModSquareFast z) curveP)
      (vliModAdd (vliModSquareFast z) (vliModSquareFast z) curveP) curveP)
  let b := halfModP (vliModAdd x (vliModAdd x x curveP) curveP)
  have hx : x.toFp = p.coords.1 ^ 2 - z.toFp ^ 4 := by
    simp only [x, toFp_modMult, toFp_modAdd, toFp_modSub, toFp_modSquare, reduced_modSquare, reduced_modAdd,
      EccPoint.coords]
    ring
  have hb : 2 * b.toFp = 3 * x.toFp := by
    rw [toFp_halfModP, toFp_modAdd _ (reduced_modAdd (reduced_modMult ..) (reduced_modMult ..)),
      toFp_modAdd _ (reduced_modMult ..)]
    ring
  let a := vliModMultFast p.x (vliModSquareFast p.y)
  let x3 := vliModSub (vliModSub (vliModSquareFast b) a curveP) a curveP
  let y3 := vliModSub (vliModMultFast b (vliModSub a x3 curveP)) (vliModSquareFast (vliModSquareFast p.y)) curveP
  have heq : eccPointDoubleJacobian p z = (⟨x3, y3⟩, vliModMultFast p.y z) := by
    rw [eccPointDoubleJacobian, hz']
    rfl
  have ha : a.Reduced := reduced_modMult ..
  have hx3 : x3.Reduced := reduced_modSub (reduced_modSub (reduced_modSquare _) ha) ha
  rw [heq]
  refine ⟨b.toFp, by rw [hb, hx], ?_, by simp only [EccPoint.coords, toFp_modMult]⟩
  simp only [EccPoint.coords, CoZ.double, y3, toFp_modSub _ hx3, toFp_modSub _ (reduced_modSquare _), toFp_modMult,
    toFp_modSquare]
  simp only [x3, toFp_modSub _ ha, toFp_modSquare, a, toFp_modMult, Prod.mk.injEq]
  constructor <;> ring

end Bryllite.Ecc
