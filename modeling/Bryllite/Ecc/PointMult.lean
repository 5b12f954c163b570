import Bryllite.Ecc.Point
import Bryllite.Framework.Ladder

/-!
# Multiples of points (secp256r1.cpp, EccPoint_mult)

`EccPoint_mult` is a ladder of points that share a denominator (`coords_ladderBody`), and
takes the denominator out at the end. For a point of the order of the curve it is the
multiple, with exact exceptions (`eccPointMult_spec`): 0 and 1 count as 2 and 3, and the
result is the pair of zeros where the ladder meets the neutral point in its last step,
for `curve_n` and the number before it, and for points with `x` 0 (`eccPointMult_x_zero`).
-/

namespace Bryllite.Ecc

open Bryllite.Framework WeierstrassCurve

/-- `XYcZ_addC( Rx[1 - nb], Ry[1 - nb], Rx[nb], Ry[nb] )`. -/
def addCAt (nb : Bool) (r : EccPoint × EccPoint) : EccPoint × EccPoint :=
  if nb then xyczAddC r.1 r.2 else (xyczAddC r.2 r.1).swap

/-- `XYcZ_add( Rx[nb], Ry[nb], Rx[1 - nb], Ry[1 - nb] )`. -/
def addAt (nb : Bool) (r : EccPoint × EccPoint) : EccPoint × EccPoint :=
  if nb then (xyczAdd r.2 r.1).swap else xyczAdd r.1 r.2

/-- `nb = !vli_testBit( p_scalar, i )`. -/
def notBit (scalar : Vli) (i : Nat) : Bool := vliTestBit scalar i = 0

def ladderBody (scalar : Vli) (i : Nat) (r : EccPoint × EccPoint) : EccPoint × EccPoint :=
  addAt (notBit scalar i) (addCAt (notBit scalar i) r)

/-- The final `1/Z` of `EccPoint_mult`, from `R[0]`, `R[1]` and the point at `1 - nb`. -/
def finalZ (point : EccPoint) (nb : Bool) (r : EccPoint × EccPoint) : Vli :=
  let b := if nb then r.1 else r.2
  let z := vliModSub r.2.x r.1.x curveP
  let z := vliModMultFast z b.y
  let z := vliModMultFast z point.x
  let z := vliModInv z curveP prime_curveP.ne_zero
  let z := vliModMultFast z point.y
  vliModMultFast z b.x

/-- `EccPoint_mult`. -/
def eccPointMult (point : EccPoint) (scalar : Vli) (initialZ : Option Vli) : EccPoint :=
  let r := (xyczInitialDouble point initialZ).swap
  let r := forDown (ladderBody scalar) 1 (vliNumBits scalar - 1) r
  let nb := notBit scalar 0
  let r := addCAt nb r
  applyZ (addAt nb r).1 (finalZ point nb r)

/-- The curve `y^2 = x^3 - 3x + curve_b`. -/
def curve : Affine Fp where
  a₁ := 0
  a₂ := 0
  a₃ := 0
  a₄ := -3
  a₆ := curveB.toFp

instance : curve.IsShortNF := ⟨rfl, rfl, rfl⟩

/-- The coordinates are those of a point of the curve. -/
def EccPoint.Represents (p : EccPoint) (P : curve.Point) : Prop := CoZ.Scaled curve 1 p.coords P

/-! ## A step of the ladder -/

def coordsPair (r : EccPoint × EccPoint) : (Fp × Fp) × (Fp × Fp) := (r.1.coords, r.2.coords)

variable {r : EccPoint × EccPoint}

theorem reduced_addCAt (nb : Bool) (r : EccPoint × EccPoint) : (addCAt nb r).1.Reduced ∧ (addCAt nb r).2.Reduced := by
  cases nb
  · exact (reduced_xyczAddC r.2 r.1).symm
  · exact reduced_xyczAddC r.1 r.2

theorem reduced_addAt (nb : Bool) (r : EccPoint × EccPoint) : (addAt nb r).1.Reduced ∧ (addAt nb r).2.Reduced := by
  cases nb
  · exact reduced_xyczAdd r.1 r.2
  · exact (reduced_xyczAdd r.2 r.1).symm

/-- The difference is left at `1 - nb`. -/
theorem coords_addCAt (h : r.1.Reduced ∧ r.2.Reduced) (nb : Bool) : coordsPair (addCAt nb r) =
    if nb then CoZ.conjStep (!nb) (coordsPair r) else (CoZ.conjStep (!nb) (coordsPair r)).swap := by
  cases nb
  · exact congrArg Prod.swap (coords_xyczAddC h.2 r.1)
  · exact coords_xyczAddC h.1 r.2

/-- What is added last, where the pair of the difference and the sum is `c`. -/
theorem coords_addAt (h : r.1.Reduced ∧ r.2.Reduced) (nb : Bool) {c : (Fp × Fp) × (Fp × Fp)}
    (hc : coordsPair r = if nb then c else c.swap) : coordsPair (addAt nb r) = CoZ.nextRung (!nb) c := by
  cases nb
  · obtain rfl : (coordsPair r).swap = c := by rw [hc, if_neg Bool.false_ne_true, Prod.swap_swap]
    exact coords_xyczAdd h.1 r.2
  · obtain rfl : coordsPair r = c := hc
    exact congrArg Prod.swap (coords_xyczAdd h.2 r.1)

theorem coords_ladderBody (h : r.1.Reduced ∧ r.2.Reduced) (nb : Bool) :
    coordsPair (addAt nb (addCAt nb r)) = CoZ.ladderStep (!nb) (coordsPair r) :=
  coords_addAt (reduced_addCAt nb r) nb (coords_addCAt h nb)

theorem not_notBit (scalar : Vli) (i : Nat) : (!notBit scalar i) = scalar.value.testBit i := by
  rw [Bool.eq_iff_iff, ← vliTestBit_ne_zero_iff, notBit, Bool.not_eq_true', decide_eq_false_iff_not]

/-! ## The ends of the ladder -/

theorem coords_finalZ (point : EccPoint) (nb : Bool) {c : (Fp × Fp) × (Fp × Fp)} (h : r.1.Reduced ∧ r.2.Reduced)
    (hc : coordsPair r = if nb then c else c.swap) :
    (finalZ point nb r).toFp = CoZ.ladderInv (!nb) point.coords c := by
  have hsub := toFp_modSub r.2.x h.1.x
  rw [finalZ]
  simp only [toFp_modMult, toFp_modInv_of_reduced (reduced_modMult ..), hsub]
  cases nb
  · obtain rfl : (coordsPair r).swap = c := by rw [hc, if_neg Bool.false_ne_true, Prod.swap_swap]
    rfl
  · obtain rfl : coordsPair r = c := hc
    rfl

theorem value_ne_zero_of_toFp {v : Vli} (h : v.toFp ≠ 0) : v.value ≠ 0 :=
  fun h0 => h (by rw [Vli.toFp, h0, Nat.cast_zero])

theorem reduced_initialDouble (point : EccPoint) (initialZ : Option Vli) :
    (xyczInitialDouble point initialZ).1.Reduced ∧ (xyczInitialDouble point initialZ).2.Reduced := by
  rw [xyczInitialDouble]
  generalize initialZ.getD (vliOf 1) = z
  refine ⟨?_, reduced_applyZ _ _⟩
  by_cases hz : z.value = 0
  · rw [eccPointDoubleJacobian, if_pos ((vliIsZero_iff z).mpr hz)]
    exact reduced_applyZ _ _
  · exact (reduced_doubleJacobian _ hz).1

/-- The first rung, from a point and any denominator but 0. -/
theorem rungs_initialDouble {point : EccPoint} {P : curve.Point} (hp : point.Represents P) (hP : P + P ≠ 0)
    {initialZ : Option Vli} (hz : (initialZ.getD (vliOf 1)).toFp ≠ 0) :
    CoZ.Rungs curve P 1 (coordsPair (xyczInitialDouble point initialZ).swap) := by
  rw [xyczInitialDouble]
  generalize initialZ.getD (vliOf 1) = z at hz ⊢
  have hscaled := hp.applyZ z.toFp
  rw [one_mul, ← coords_applyZ] at hscaled
  obtain ⟨b, hb, hdouble, hz'⟩ := coords_doubleJacobian (applyZ point z) (value_ne_zero_of_toFp hz)
  have hy : (applyZ point z).coords.2 ≠ 0 := fun hy => hP (hscaled.add_self_of_y_eq_zero hz hy)
  have htwo := hscaled.double rfl Fp.two_ne_zero hz hy hb
  have hone := hp.applyZ (eccPointDoubleJacobian (applyZ point z) z).2.toFp
  rw [one_mul, ← coords_applyZ] at hone
  rw [← hdouble, ← hz'] at htwo
  refine ⟨(eccPointDoubleJacobian (applyZ point z) z).2.toFp, ?_, ?_, ?_⟩
  · rw [hz']
    exact mul_ne_zero hy hz
  · rw [one_nsmul]
    exact hone
  · rw [one_add_one_eq_two, two_nsmul]
    exact htwo

/-- The loop, from the first rung. The number 0 has the rung of 2 and 3 in the end. -/
theorem rungs_forDown {scalar : Vli} {P : curve.Point} (hr : r.1.Reduced ∧ r.2.Reduced)
    (hrungs : CoZ.Rungs curve P 1 (coordsPair r))
    (hclear : ∀ m, m ≠ 0 → m ≤ scalar.value / 4 → CoZ.Clear P m) :
    let s := forDown (ladderBody scalar) 1 (vliNumBits scalar - 1) r
    (s.1.Reduced ∧ s.2.Reduced) ∧ CoZ.Rungs curve P (max 1 (scalar.value / 2)) (coordsPair s) := by
  rw [vliNumBits_eq]
  by_cases hsmall : scalar.value < 2
  · have hsize : scalar.value.size ≤ 1 := Nat.size_le.mpr hsmall
    rw [forDown_of_le (by omega), show max 1 (scalar.value / 2) = 1 by omega]
    exact ⟨hr, hrungs⟩
  · have hne : scalar.value ≠ 0 := by omega
    have hsize : scalar.value.size ≠ 0 := Nat.size_eq_zero.not.mpr hne
    have hlow : 2 ^ (scalar.value.size - 1) ≤ scalar.value := Nat.lt_size.mp (by omega)
    have htop : scalar.value / 2 ^ (scalar.value.size - 1) = 1 :=
      div_two_pow_eq_one hlow (by rw [Nat.sub_add_cancel (by omega)]; exact Nat.lt_size_self _)
    rw [show max 1 (scalar.value / 2) = scalar.value / 2 ^ 1 by omega]
    refine forDown_bits (fun k s => (s.1.Reduced ∧ s.2.Reduced) ∧ CoZ.Rungs curve P k (coordsPair s)) scalar.value
      (fun i s hi hin hs => ?_) ?_ ?_
    · have hpow : 2 ^ (i + 1) ≤ scalar.value := (Nat.pow_le_pow_right (by omega) (by omega)).trans hlow
      have hm : scalar.value / 2 ^ (i + 1) ≠ 0 := (Nat.div_pos hpow (by positivity)).ne'
      have hm' : scalar.value / 2 ^ (i + 1) ≤ scalar.value / 4 :=
        Nat.div_le_div_left (Nat.pow_le_pow_right (n := 2) (by omega) (show 2 ≤ i + 1 by omega)) (by omega)
      have hstep := hs.2.step (!notBit scalar i) (hclear _ hm hm')
      rw [← coords_ladderBody hs.1, not_notBit] at hstep
      exact ⟨reduced_addAt _ _, hstep⟩
    · have : 2 ≤ scalar.value.size := Nat.lt_size.mpr (by omega)
      omega
    · rw [htop]
      exact ⟨hr, hrungs⟩

/-! ## The multiple -/

theorem eq_zeros {p : EccPoint} (hp : p.Reduced) (h : p.coords = (0, 0)) : p = ⟨vliClear, vliClear⟩ :=
  EccPoint.ext (eq_vliClear hp.x (congrArg Prod.fst h)) (eq_vliClear hp.y (congrArg Prod.snd h))

theorem applyZ_eq_zero {p : EccPoint} {z : Vli} (h : z.toFp = 0 ∨ p.coords = (0, 0)) :
    applyZ p z = ⟨vliClear, vliClear⟩ := by
  refine eq_zeros (reduced_applyZ p z) ?_
  rw [coords_applyZ, CoZ.applyZ]
  rcases h with h | h <;> simp [h]

theorem eccPointMult_x_zero {point : EccPoint} (hx : point.x.toFp = 0) (scalar : Vli) (initialZ : Option Vli) :
    eccPointMult point scalar initialZ = ⟨vliClear, vliClear⟩ := by
  refine applyZ_eq_zero (.inl ?_)
  rw [finalZ]
  simp only [toFp_modMult, toFp_modInv_of_reduced (reduced_modMult ..), hx, mul_zero, inv_zero, zero_mul]

variable {point : EccPoint} {P : curve.Point} {initialZ : Option Vli}

/-- The first rung from the denominator 0. -/
theorem initialDouble_z_zero (point : EccPoint) (hz : (initialZ.getD (vliOf 1)).toFp = 0) :
    (xyczInitialDouble point initialZ).1.coords = (0, 0) ∧ (xyczInitialDouble point initialZ).2.coords = (0, 0) := by
  rw [xyczInitialDouble]
  generalize initialZ.getD (vliOf 1) = z at hz
  have happly : ∀ {z : Vli}, z.toFp = 0 → (applyZ point z).coords = (0, 0) := by
    intro z hz
    rw [coords_applyZ, CoZ.applyZ, hz]
    simp
  by_cases h0 : z.value = 0
  · rw [eccPointDoubleJacobian, if_pos ((vliIsZero_iff z).mpr h0)]
    exact ⟨happly hz, happly hz⟩
  · obtain ⟨b, hb, hdouble, hz'⟩ := coords_doubleJacobian (applyZ point z) h0
    rw [happly hz] at hb hdouble hz'
    have hb0 : b = 0 := by simpa [hz, Fp.two_ne_zero] using hb
    refine ⟨?_, happly (by rw [hz', zero_mul])⟩
    rw [hdouble, hb0]
    simp [CoZ.double]

def Zeros (r : EccPoint × EccPoint) : Prop := (r.1.Reduced ∧ r.2.Reduced) ∧ coordsPair r = ((0, 0), (0, 0))

theorem Zeros.ladderBody {r : EccPoint × EccPoint} (h : Zeros r) (scalar : Vli) (i : Nat) :
    Zeros (ladderBody scalar i r) := by
  refine ⟨reduced_addAt _ _, ?_⟩
  rw [Ecc.ladderBody, coords_ladderBody h.1, h.2]
  cases notBit scalar i <;> simp [CoZ.ladderStep, CoZ.nextRung, CoZ.conjStep, CoZ.addConj, CoZ.add]

/-- From the denominator 0 there is nothing but zeros. -/
theorem eccPointMult_z_zero (point : EccPoint) (scalar : Vli) (hz : (initialZ.getD (vliOf 1)).toFp = 0) :
    eccPointMult point scalar initialZ = ⟨vliClear, vliClear⟩ := by
  have hinit : Zeros (xyczInitialDouble point initialZ).swap :=
    ⟨(reduced_initialDouble point initialZ).symm,
      Prod.ext (initialDouble_z_zero point hz).2 (initialDouble_z_zero point hz).1⟩
  have hloop : Zeros
      (forDown (Ecc.ladderBody scalar) 1 (vliNumBits scalar - 1) (xyczInitialDouble point initialZ).swap) :=
    forDown_keep (I := Zeros) (fun i r hr => hr.ladderBody scalar i) hinit
  exact applyZ_eq_zero (.inr (congrArg Prod.fst (hloop.ladderBody scalar 0).2))

theorem two_nsmul_ne_zero (horder : addOrderOf P = curveN.value) : P + P ≠ 0 := by
  rw [← two_nsmul]
  exact nsmul_ne_zero_of_lt_addOrderOf two_ne_zero (by rw [horder]; decide +kernel)

/-- The rung before the last bit. -/
theorem rungs_last (hp : point.Represents P) (horder : addOrderOf P = curveN.value)
    (hz : (initialZ.getD (vliOf 1)).toFp ≠ 0) (scalar : Vli) :
    let s := forDown (ladderBody scalar) 1 (vliNumBits scalar - 1) (xyczInitialDouble point initialZ).swap
    (s.1.Reduced ∧ s.2.Reduced) ∧ CoZ.Rungs curve P (max 1 (scalar.value / 2)) (coordsPair s) := by
  have hlt := scalar.value_lt
  refine rungs_forDown (reduced_initialDouble point initialZ).symm
    (rungs_initialDouble hp (two_nsmul_ne_zero horder) hz) fun m hm hle => ?_
  rw [value_curveN] at horder
  exact CoZ.clear_of_addOrderOf horder (by norm_num) hm (by omega) (by omega)

/-- The scalar that `EccPoint_mult` takes: 0 and 1 count as 2 and 3. -/
def takenScalar (scalar : Vli) : Nat := 2 * max 1 (scalar.value / 2) + scalar.value % 2

/-- The multiple, where the ladder meets no neutral point. -/
theorem eccPointMult_spec (hp : point.Represents P) (horder : addOrderOf P = curveN.value)
    (hz : (initialZ.getD (vliOf 1)).toFp ≠ 0) (hx : point.x.toFp ≠ 0) {scalar : Vli}
    (hn : 2 * (scalar.value / 2) + 1 ≠ curveN.value) :
    (eccPointMult point scalar initialZ).Reduced ∧
      (eccPointMult point scalar initialZ).Represents (takenScalar scalar • P) := by
  have hlt := scalar.value_lt
  obtain ⟨hreduced, hrungs⟩ := rungs_last hp horder hz scalar
  have hclear : CoZ.Clear P (max 1 (scalar.value / 2)) := by
    rw [value_curveN] at horder hn
    exact CoZ.clear_of_addOrderOf horder (by norm_num) (by omega) (by omega) (by omega)
  have hbit : scalar.value % 2 = (!notBit scalar 0).toNat := by
    rw [not_notBit, Nat.toNat_testBit, pow_zero, Nat.div_one]
  refine ⟨reduced_applyZ _ _, ?_⟩
  have hfinish := hrungs.finish (!notBit scalar 0) hclear hp hx
  rw [← coords_ladderBody hreduced, ← coords_finalZ point _ (reduced_addCAt _ _) (coords_addCAt hreduced _),
    ← hbit] at hfinish
  rw [EccPoint.Represents, eccPointMult, coords_applyZ]
  exact hfinish

/-- Where the last step of the ladder meets the neutral point, zeros. -/
theorem eccPointMult_order (hp : point.Represents P) (horder : addOrderOf P = curveN.value)
    (hz : (initialZ.getD (vliOf 1)).toFp ≠ 0) {scalar : Vli} (hn : 2 * (scalar.value / 2) + 1 = curveN.value) :
    eccPointMult point scalar initialZ = ⟨vliClear, vliClear⟩ := by
  obtain ⟨hreduced, hrungs⟩ := rungs_last hp horder hz scalar
  have hmax : max 1 (scalar.value / 2) = scalar.value / 2 := by
    rw [value_curveN] at hn
    omega
  rw [hmax] at hrungs
  have hodd : (2 * (scalar.value / 2) + 1) • P = 0 := by
    rw [hn, ← horder]
    exact addOrderOf_nsmul_eq_zero P
  refine applyZ_eq_zero (.inl ?_)
  rw [coords_finalZ point _ (reduced_addCAt _ _) (coords_addCAt hreduced _)]
  exact hrungs.ladderInv_eq_zero _ hodd _

end Bryllite.Ecc
