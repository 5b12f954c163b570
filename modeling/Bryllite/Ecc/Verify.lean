import Bryllite.Ecc.Decompress
import Bryllite.Ecc.ModMult
import Bryllite.Framework.Shamir

/-!
# Verification of signatures (secp256r1.cpp, do_verify)

`do_verify` makes `u1 G + u2 Q` from the top bits of both numbers down, with no look at the
exceptional additions: where it adds a point to itself or to its opposite, the denominator is
0 from there on, and it rejects the signature. For every key on the curve but `G` and its
opposite it accepts exactly the signatures that the algorithm accepts and that make no such
addition (`doVerify_exact`).
-/

namespace Bryllite.Ecc

open Bryllite.Framework WeierstrassCurve

/-- `l_sum` of `do_verify`: `G + Q`. -/
def sumWithG (l_public : EccPoint) : EccPoint :=
  let z := vliModSub l_public.x curveG.x curveP
  let l_sum := (xyczAdd curveG l_public).2
  let z := vliModInv z curveP curveP_ne_zero
  applyZ l_sum z

/-- `l_points[( !!b1 ) | ( ( !!b2 ) << 1 )]`. -/
def pointAt (l_public l_sum : EccPoint) (b1 b2 : Bool) : Option EccPoint :=
  match b1, b2 with
  | false, false => none
  | true, false => some curveG
  | false, true => some l_public
  | true, true => some l_sum

/-- `!!vli_testBit( v, i )`. -/
def bitSet (v : Vli) (i : Nat) : Bool := vliTestBit v i ≠ 0

/-- A round of the loop, on `( rx, ry )` and `z`. -/
def verifyBody (u1 u2 : Vli) (l_public l_sum : EccPoint) (i : Nat) (s : EccPoint × Vli) : EccPoint × Vli :=
  let (r, z) := eccPointDoubleJacobian s.1 s.2
  match pointAt l_public l_sum (bitSet u1 i) (bitSet u2 i) with
  | none => (r, z)
  | some l_point =>
    let t := applyZ l_point z
    let tz := vliModSub r.x t.x curveP
    ((xyczAdd t r).2, vliModMultFast z tz)

/-- The point that `do_verify` makes of `u1`, `u2` and the key; `none` where it
would read from `NULL`. -/
def verifyPoint (u1 u2 : Vli) (l_public : EccPoint) : Option EccPoint :=
  let l_sum := sumWithG l_public
  let l_numBits := max (vliNumBits u1) (vliNumBits u2)
  (pointAt l_public l_sum (bitSet u1 (l_numBits - 1)) (bitSet u2 (l_numBits - 1))).map fun l_point =>
    let (r, z) := forDown (verifyBody u1 u2 l_public l_sum) 0 (l_numBits - 1) (l_point, vliOf 1)
    applyZ r (vliModInv z curveP curveP_ne_zero)

theorem bitSet_eq (v : Vli) (i : Nat) : bitSet v i = v.value.testBit i := by
  rw [Bool.eq_iff_iff, ← vliTestBit_ne_zero_iff, bitSet, decide_eq_true_eq]

/-! ## The loop -/

/-- A point of the curve with a denominator is doubled. -/
theorem scaled_doubleJacobian {p : EccPoint} {z : Vli} {T : curve.Point} (hz : z.toFp ≠ 0)
    (hp : CoZ.Scaled curve z.toFp p.coords T) :
    (eccPointDoubleJacobian p z).2.Reduced ∧ (eccPointDoubleJacobian p z).2.toFp ≠ 0 ∧
      CoZ.Scaled curve (eccPointDoubleJacobian p z).2.toFp (eccPointDoubleJacobian p z).1.coords (2 • T) := by
  have hvalue := value_ne_zero_of_toFp hz
  have hy : p.coords.2 ≠ 0 := fun hy => hp.ne_zero (eq_zero_of_add_self (hp.add_self_of_y_eq_zero hz hy))
  obtain ⟨b, hb, hcoords, hz'⟩ := coords_doubleJacobian p hvalue
  refine ⟨(reduced_doubleJacobian p hvalue).2, ?_, ?_⟩
  · rw [hz']
    exact mul_ne_zero hy hz
  · rw [hz', hcoords, two_nsmul]
    exact hp.double rfl Fp.two_ne_zero hz hy hb

theorem doubleJacobian_z_zero (p : EccPoint) {z : Vli} (hreduced : z.Reduced) (hz : z.toFp = 0) :
    eccPointDoubleJacobian p z = (p, z) := by
  rw [eccPointDoubleJacobian, if_pos ((vliIsZero_iff z).mpr ((Vli.toFp_eq_zero_iff hreduced).mp hz))]

section Loop

variable {l_public : EccPoint} (hp : l_public.OnCurve) (hne : l_public.x.toFp ≠ curveG.x.toFp)
include hp hne

theorem represents_sumWithG : (sumWithG l_public).Represents (basePoint + l_public.point hp) := by
  have hreduced : curveG.Reduced := by constructor <;> rw [Vli.reduced_iff] <;> decide +kernel
  have hadd := (represents_curveG.add hp.represents hne.symm).2
  have hz : (vliModSub l_public.x curveG.x curveP).toFp = l_public.x.toFp - curveG.x.toFp := toFp_modSub _ hreduced.x
  have hsub : l_public.x.toFp - curveG.x.toFp ≠ 0 := sub_ne_zero.mpr hne
  have hinv : (vliModInv (vliModSub l_public.x curveG.x curveP) curveP curveP_ne_zero).toFp =
      (l_public.x.toFp - curveG.x.toFp)⁻¹ := by
    rw [toFp_modInv (fun h => absurd (hz ▸ h) hsub), hz]
  have happly := hadd.applyZ (l_public.x.toFp - curveG.x.toFp)⁻¹
  have hone : 1 * (l_public.coords.1 - curveG.coords.1) * (l_public.x.toFp - curveG.x.toFp)⁻¹ = 1 := by
    rw [one_mul]
    exact mul_inv_cancel₀ hsub
  rw [EccPoint.Represents, sumWithG, coords_applyZ, hinv]
  rwa [hone, ← coords_xyczAdd hreduced] at happly

variable (u1 u2 : Vli)

/-- The points that are added. -/
theorem pointAt_spec (i : Nat) :
    (pointAt l_public (sumWithG l_public) (bitSet u1 i) (bitSet u2 i) = none ↔
      addend basePoint (l_public.point hp) u1.value u2.value i = 0) ∧
    ∀ l_point, pointAt l_public (sumWithG l_public) (bitSet u1 i) (bitSet u2 i) = some l_point →
      l_point.Represents (addend basePoint (l_public.point hp) u1.value u2.value i) := by
  rw [bitSet_eq, bitSet_eq, addend]
  cases u1.value.testBit i <;> cases u2.value.testBit i
  · simp [pointAt]
  · simpa [pointAt, hp.point_ne_zero] using hp.represents
  · simpa [pointAt, represents_curveG.ne_zero] using represents_curveG
  · have hsum := represents_sumWithG hp hne
    simpa [pointAt, hsum.ne_zero] using hsum

omit hp hne

section verifyBody

variable {u1 u2} {l_sum : EccPoint} {i : Nat} {s d : EccPoint × Vli}

theorem verifyBody_none (hd : eccPointDoubleJacobian s.1 s.2 = d)
    (h : pointAt l_public l_sum (bitSet u1 i) (bitSet u2 i) = none) : verifyBody u1 u2 l_public l_sum i s = d := by
  simp only [verifyBody, h, hd]

theorem verifyBody_some {l_point : EccPoint} (hd : eccPointDoubleJacobian s.1 s.2 = d)
    (h : pointAt l_public l_sum (bitSet u1 i) (bitSet u2 i) = some l_point) : verifyBody u1 u2 l_public l_sum i s =
      ((xyczAdd (applyZ l_point d.2) d.1).2, vliModMultFast d.2 (vliModSub d.1.x (applyZ l_point d.2).x curveP)) := by
  simp only [verifyBody, h, hd]

/-- With the denominator 0 a round leaves it so. -/
theorem verifyBody_z_zero (hreduced : s.2.Reduced) (hz : s.2.toFp = 0) :
    (verifyBody u1 u2 l_public l_sum i s).2.Reduced ∧ (verifyBody u1 u2 l_public l_sum i s).2.toFp = 0 := by
  have hd := doubleJacobian_z_zero s.1 hreduced hz
  cases h : pointAt l_public l_sum (bitSet u1 i) (bitSet u2 i) with
  | none =>
    rw [verifyBody_none hd h]
    exact ⟨hreduced, hz⟩
  | some l_point =>
    rw [verifyBody_some hd h]
    dsimp only
    rw [toFp_modMult, hz, zero_mul]
    exact ⟨reduced_modMult _ _, rfl⟩

end verifyBody

include hp hne

/-- The point at the bits `i`, with its denominator; 0 after a clash. -/
structure VerifyInv (Q : curve.Point) (n i : Nat) (s : EccPoint × Vli) : Prop where
  reduced : s.2.Reduced
  lost : Clashes basePoint Q u1.value u2.value n i → s.2.toFp = 0
  scaled : ¬Clashes basePoint Q u1.value u2.value n i →
    s.2.toFp ≠ 0 ∧ CoZ.Scaled curve s.2.toFp s.1.coords (comb basePoint Q u1.value u2.value i)

variable {u1 u2}

theorem VerifyInv.round {n i : Nat} (hi : i < n) {s : EccPoint × Vli}
    (hs : VerifyInv u1 u2 (l_public.point hp) n (i + 1) s) :
    VerifyInv u1 u2 (l_public.point hp) n i (verifyBody u1 u2 l_public (sumWithG l_public) i s) := by
  have hclashes := clashes_succ_iff (P := basePoint) (Q := l_public.point hp) (u := u1.value) (v := u2.value) hi
  by_cases hlost : Clashes basePoint (l_public.point hp) u1.value u2.value n (i + 1)
  · obtain ⟨hreduced, hz⟩ : (verifyBody u1 u2 l_public (sumWithG l_public) i s).2.Reduced ∧ _ :=
      verifyBody_z_zero hs.reduced (hs.lost hlost)
    exact ⟨hreduced, fun _ => hz, fun h => absurd (hclashes.mpr (.inr hlost)) h⟩
  · obtain ⟨hz, hscaled⟩ := hs.scaled hlost
    obtain ⟨hreduced, hz', hdouble⟩ := scaled_doubleJacobian hz hscaled
    obtain ⟨hnone, hsome⟩ := pointAt_spec hp hne u1 u2 i
    rw [or_iff_left hlost] at hclashes
    have hcomb := comb_eq basePoint (l_public.point hp) u1.value u2.value i
    cases h : pointAt l_public (sumWithG l_public) (bitSet u1 i) (bitSet u2 i) with
    | none =>
      have hzero := hnone.mp h
      have hclash : ¬ClashAt basePoint (l_public.point hp) u1.value u2.value i := fun h => h.1 hzero
      rw [hzero, zero_add] at hcomb
      rw [verifyBody_none rfl h]
      exact ⟨hreduced, fun h => absurd (hclashes.mp h) hclash, fun _ => ⟨hz', hcomb ▸ hdouble⟩⟩
    | some l_point =>
      have hpoint := hsome l_point h
      rw [verifyBody_some rfl h]
      generalize eccPointDoubleJacobian s.1 s.2 = d at hreduced hz' hdouble
      obtain ⟨hzero, hadd⟩ := hdouble.addTo hz' hpoint
      have ht := reduced_applyZ l_point d.2
      have hz'' : (vliModMultFast d.2 (vliModSub d.1.x (applyZ l_point d.2).x curveP)).toFp =
          d.2.toFp * (d.1.coords.1 - (CoZ.applyZ d.2.toFp l_point.coords).1) := by
        rw [toFp_modMult, toFp_modSub _ ht.x, ← coords_applyZ]
        rfl
      have hcoords : (xyczAdd (applyZ l_point d.2) d.1).2.coords =
          (CoZ.add (CoZ.applyZ d.2.toFp l_point.coords) d.1.coords).2 := by
        rw [← coords_applyZ, ← coords_xyczAdd ht]
      rw [← hcomb, ← hz'', ← hcoords] at hadd
      rw [← hz''] at hzero
      have hreduced' := reduced_modMult d.2 (vliModSub d.1.x (applyZ l_point d.2).x curveP)
      generalize vliModMultFast d.2 (vliModSub d.1.x (applyZ l_point d.2).x curveP) = z at hreduced' hzero hadd ⊢
      have hclash : ClashAt basePoint (l_public.point hp) u1.value u2.value i ↔ _ := and_iff_right hpoint.ne_zero
      exact ⟨hreduced', fun h => hzero (hclash.mp (hclashes.mp h)),
        fun h => hadd fun hc => h (hclashes.mpr (hclash.mpr hc))⟩

/-- There is a point to begin with, for a number that is not 0. -/
theorem exists_pointAt {n : Nat} (hn : n + 1 = max u1.value.size u2.value.size) :
    ∃ l_point, pointAt l_public (sumWithG l_public) (bitSet u1 n) (bitSet u2 n) = some l_point ∧
      l_point.Represents (comb basePoint (l_public.point hp) u1.value u2.value n) := by
  obtain ⟨-, hsome⟩ := pointAt_spec hp hne u1 u2 n
  have hu1 : u1.value < 2 ^ (n + 1) := Nat.size_le.mp (by omega)
  have hu2 : u2.value < 2 ^ (n + 1) := Nat.size_le.mp (by omega)
  rw [comb_top _ _ _ _ hu1 hu2]
  cases hpoint : pointAt l_public (sumWithG l_public) (bitSet u1 n) (bitSet u2 n) with
  | some l_point => exact ⟨l_point, rfl, hsome l_point hpoint⟩
  | none =>
    -- one of the numbers has its top bit here
    have hlow : ∀ v : Vli, v.value < 2 ^ (n + 1) → bitSet v n = false → v.value.size ≤ n := by
      intro v hv hbit
      rw [bitSet_eq] at hbit
      by_contra hlt
      have htop := div_two_pow_eq_one (Nat.lt_size.mp (not_le.mp hlt)) hv
      rw [Nat.testBit_eq_decide_div_mod_eq, htop] at hbit
      cases hbit
    have hbits : bitSet u1 n = false ∧ bitSet u2 n = false := by
      cases h1 : bitSet u1 n <;> cases h2 : bitSet u2 n <;> simp [pointAt, h1, h2] at hpoint ⊢
    have h1 := hlow u1 hu1 hbits.1
    have h2 := hlow u2 hu2 hbits.2
    omega

/-- The two multiples, unless there is a clash. -/
theorem verifyPoint_spec (h : u2.value ≠ 0) : ∃ p, verifyPoint u1 u2 l_public = some p ∧
    (Clashes basePoint (l_public.point hp) u1.value u2.value (max u1.value.size u2.value.size - 1) 0 →
      p = ⟨vliClear, vliClear⟩) ∧
    (¬Clashes basePoint (l_public.point hp) u1.value u2.value (max u1.value.size u2.value.size - 1) 0 →
      p.Reduced ∧ p.Represents (u1.value • basePoint + u2.value • l_public.point hp)) := by
  have hsize : u2.value.size ≠ 0 := Nat.size_eq_zero.not.mpr h
  obtain ⟨n, hn⟩ : ∃ n, n + 1 = max u1.value.size u2.value.size :=
    ⟨max u1.value.size u2.value.size - 1, by omega⟩
  obtain ⟨l_point, hpoint, hrep⟩ := exists_pointAt hp hne hn
  have hinit : VerifyInv u1 u2 (l_public.point hp) n n (l_point, vliOf 1) := by
    refine ⟨reduced_vliOf_one, fun h => absurd h (not_clashes_self n), fun _ => ?_⟩
    dsimp only
    rw [toFp_vliOf_one]
    exact ⟨one_ne_zero, hrep⟩
  have hloop := forDown_inv (fun i s => VerifyInv u1 u2 (l_public.point hp) n i s)
    (fun i s _ hi hs => hs.round hp hne hi) (Nat.zero_le n) hinit
  have hpred : max u1.value.size u2.value.size - 1 = n := by omega
  simp only [verifyPoint, vliNumBits_eq, hpred, hpoint, Option.map_some, Option.some.injEq, exists_eq_left']
  generalize forDown (verifyBody u1 u2 l_public (sumWithG l_public)) 0 n (l_point, vliOf 1) = s at hloop ⊢
  have hinv := toFp_modInv_of_reduced hloop.reduced
  rw [← comb_zero]
  refine ⟨fun hlost => applyZ_eq_zero (.inl ?_), fun hlost => ⟨reduced_applyZ _ _, ?_⟩⟩
  · rw [hinv, hloop.lost hlost, inv_zero]
  · obtain ⟨hz, hscaled⟩ := hloop.scaled hlost
    have happly := hscaled.applyZ s.2.toFp⁻¹
    rwa [mul_inv_cancel₀ hz, ← hinv, ← coords_applyZ] at happly

end Loop

end Bryllite.Ecc
