import Bryllite.Ecc.Bytes
import Bryllite.Ecc.Order

/-!
# Compressed points (secp256r1.cpp, mod_sqrt and ecc_point_decompress)

`mod_sqrt` is the power `( curve_p + 1 ) / 4` (`toFp_modSqrt`), a square root of every square.
`ecc_point_decompress` does not look whether there is one: its result is on the curve exactly
if a point has the `x` (`onCurve_decompress_iff`), and then it is that point
(`decompress_compress`).
-/

namespace Bryllite.Ecc

open Bryllite.Framework

def modSqrtBody (a p1 : Vli) (i : Nat) (r : Vli) : Vli :=
  let r := vliModSquareFast r
  if vliTestBit p1 i ≠ 0 then vliModMultFast r a else r

/-- `mod_sqrt`. -/
def modSqrt (a : Vli) : Vli :=
  let p1 := (vliAdd curveP (vliOf 1)).1
  forDown (modSqrtBody a p1) 2 (vliNumBits p1) (vliOf 1)

/-- `ecc_point_decompress`. -/
def eccPointDecompress (compressed : Limbs 8 33) : EccPoint :=
  let x := eccBytes2native (slice compressed 1 32 (by omega))
  let y := vliModSquareFast x
  let y := vliModSub y (vliOf 3) curveP
  let y := vliModMultFast y x
  let y := vliModAdd y curveB curveP
  let y := modSqrt y
  ⟨x, if y.digit 0 &&& 1 ≠ (compressed.digit 0).setWidth 64 &&& 1 then (vliSub curveP y).1 else y⟩

/-- The bytes of a public key, as `create_key_pair` writes them. -/
def compress (p : EccPoint) : Limbs 8 33 :=
  join ⟨[(2 + (p.y.digit 0 &&& 1)).setWidth 8], rfl⟩ (eccNative2bytes p.x)

/-! ## The square root -/

theorem modSqrt_spec (a : Vli) : (modSqrt a).Reduced ∧ (modSqrt a).toFp = a.toFp ^ ((curveP.value + 1) / 4) := by
  have hp1 : (vliAdd curveP (vliOf 1)).1.value = curveP.value + 1 := by decide +kernel
  have hsize : 2 ≤ (curveP.value + 1).size := by decide +kernel
  rw [modSqrt, vliNumBits_eq, hp1]
  refine forDown_bits (fun m (r : Vli) => r.Reduced ∧ r.toFp = a.toFp ^ m) (curveP.value + 1)
    (fun i r _ _ hr => ?_) hsize ?_
  · obtain ⟨-, hr⟩ := hr
    have hbit := vliTestBit_ne_zero_iff (vliAdd curveP (vliOf 1)).1 i
    rw [hp1] at hbit
    rw [modSqrtBody]
    by_cases h : (curveP.value + 1).testBit i = true
    · rw [if_pos (hbit.mpr h), h, Bool.toNat_true, toFp_modMult, toFp_modSquare, hr, ← pow_mul, pow_succ, mul_comm 2]
      exact ⟨reduced_modMult .., rfl⟩
    · rw [if_neg (hbit.not.mpr h), Bool.eq_false_iff.mpr h, Bool.toNat_false, toFp_modSquare, hr, ← pow_mul,
        add_zero, mul_comm 2]
      exact ⟨reduced_modSquare .., rfl⟩
  · rw [Nat.div_eq_of_lt (Nat.lt_size_self _), pow_zero, toFp_vliOf_one]
    exact ⟨reduced_vliOf_one, rfl⟩

theorem modSqrt_sq {a : Vli} (h : IsSquare a.toFp) : (modSqrt a).toFp ^ 2 = a.toFp := by
  obtain ⟨r, hr⟩ := h
  have hquarter : 2 * ((curveP.value + 1) / 4 * 2) = curveP.value + 1 := by decide +kernel
  rw [(modSqrt_spec a).2, hr, ← sq, ← pow_mul, ← pow_mul, hquarter, pow_succ, Fp.pow_card, sq]

/-! ## The point -/

/-- The right side of the equation of the curve. -/
def curveRight (x : Vli) : Vli :=
  vliModAdd (vliModMultFast (vliModSub (vliModSquareFast x) (vliOf 3) curveP) x) curveB curveP

theorem toFp_curveRight (x : Vli) : (curveRight x).toFp = (x.toFp ^ 2 - 3) * x.toFp + curveB.toFp := by
  have h3 : (vliOf 3).Reduced := by rw [Vli.reduced_iff]; decide +kernel
  have hb : curveB.Reduced := by rw [Vli.reduced_iff]; decide +kernel
  have hthree : (vliOf 3).toFp = 3 := by decide +kernel
  rw [curveRight, toFp_modAdd _ hb, toFp_modMult, toFp_modSub _ h3, toFp_modSquare, hthree]

/-- Of the square root and its opposite, the one with a parity. -/
def withParity (parity : BitVec 64) (y : Vli) : Vli :=
  if y.digit 0 &&& 1 ≠ parity &&& 1 then (vliSub curveP y).1 else y

theorem eccPointDecompress_eq (compressed : Limbs 8 33) : eccPointDecompress compressed =
    ⟨eccBytes2native (slice compressed 1 32 (by omega)), withParity ((compressed.digit 0).setWidth 64)
      (modSqrt (curveRight (eccBytes2native (slice compressed 1 32 (by omega)))))⟩ := rfl

theorem and_one_eq_iff (a b : BitVec 64) : a &&& 1 = b &&& 1 ↔ a.toNat % 2 = b.toNat % 2 := by
  rw [← BitVec.toNat_inj, BitVec.toNat_and, BitVec.toNat_and]
  simp

theorem withParity_spec (parity : BitVec 64) {y : Vli} (hy : y.Reduced) :
    (withParity parity y).toFp ^ 2 = y.toFp ^ 2 ∧ (withParity parity y).value % 2 = parity.toNat % 2 ∧
      (y.toFp ≠ 0 → (withParity parity y).Reduced) := by
  have hle : y.value ≤ curveP.value := (Vli.reduced_iff.mp hy).le
  have hodd := curveP_odd
  have hdigit : (y.digit 0).toNat % 2 = y.value % 2 := by
    rw [Limbs.toNat_digit]
    omega
  have hiff := and_one_eq_iff (y.digit 0) parity
  rw [hdigit] at hiff
  rw [withParity]
  split
  · rename_i h
    rw [ne_eq, hiff] at h
    refine ⟨?_, ?_, fun hne => ?_⟩
    · rw [toFp_vliSub_curveP hle, neg_sq]
    · rw [value_vliSub_of_le hle]
      omega
    · have h0 : y.value ≠ 0 := value_ne_zero_of_toFp hne
      rw [Vli.reduced_iff, value_vliSub_of_le hle]
      omega
  · rename_i h
    exact ⟨rfl, hiff.mp (not_not.mp h), fun _ => hy⟩


variable {compressed : Limbs 8 33}

theorem x_decompress (compressed : Limbs 8 33) :
    (eccPointDecompress compressed).x = eccBytes2native (slice compressed 1 32 (by omega)) := rfl

theorem y_decompress (compressed : Limbs 8 33) : (eccPointDecompress compressed).y =
    withParity ((compressed.digit 0).setWidth 64) (modSqrt (curveRight (eccPointDecompress compressed).x)) := by
  rw [eccPointDecompress_eq]

/-- The result is on the curve exactly if some point of the curve has its `x`. -/
theorem onCurve_decompress_iff : (eccPointDecompress compressed).OnCurve ↔
    ∃ y, curve.Equation (eccPointDecompress compressed).x.toFp y := by
  refine ⟨fun h => ⟨_, h⟩, fun ⟨y, hy⟩ => ?_⟩
  have hy' := (curve_equation_iff _ _).mp hy
  rw [← toFp_curveRight] at hy'
  have hsq := modSqrt_sq ⟨y, by rw [← hy', sq]⟩
  rw [EccPoint.OnCurve, curve_equation_iff, ← toFp_curveRight, y_decompress,
    (withParity_spec _ (modSqrt_spec _).1).1, hsq]

theorem EccPoint.OnCurve.y_ne_zero {p : EccPoint} (h : p.OnCurve) : p.y.toFp ≠ 0 := by
  intro hy
  have heq := (curve_equation_iff _ _).mp h
  rw [hy, zero_pow two_ne_zero] at heq
  exact no_root _ heq.symm

theorem parity_decompress (compressed : Limbs 8 33) :
    (eccPointDecompress compressed).y.value % 2 = (compressed.digit 0).toNat % 2 := by
  have hprefix : ((compressed.digit 0).setWidth 64).toNat = (compressed.digit 0).toNat := by
    have := (compressed.digit 0).isLt
    rw [BitVec.toNat_setWidth, Nat.mod_eq_of_lt (by omega)]
  rw [y_decompress, (withParity_spec _ (modSqrt_spec _).1).2.1, hprefix]

theorem reduced_decompress (h : (eccPointDecompress compressed).OnCurve) :
    (eccPointDecompress compressed).y.Reduced := by
  have hy := h.y_ne_zero
  rw [y_decompress] at hy ⊢
  refine (withParity_spec _ (modSqrt_spec _).1).2.2 fun h0 => hy ?_
  rw [← sq_eq_zero_iff, (withParity_spec _ (modSqrt_spec _).1).1, h0, zero_pow two_ne_zero]

/-- Two numbers below the prime that are opposite have different parities. -/
theorem parity_ne_of_neg {u v : Vli} (hu : u.Reduced) (hv : v.Reduced) (hne : v.toFp ≠ 0) (h : u.toFp = -v.toFp) :
    u.value % 2 ≠ v.value % 2 := by
  have hodd := curveP_odd
  have h0 : v.value ≠ 0 := value_ne_zero_of_toFp hne
  rw [Vli.reduced_iff] at hv
  have hsub : (vliSub curveP v).1.Reduced := by
    rw [Vli.reduced_iff, value_vliSub_of_le hv.le]
    omega
  rw [← toFp_vliSub_curveP hv.le, Vli.toFp_inj hu hsub] at h
  rw [h, value_vliSub_of_le hv.le]
  omega

/-- The point of the curve with an `x` and a parity. -/
theorem decompress_eq {q : EccPoint} (hq : q.OnCurve) (hy : q.y.Reduced) (hx : (eccPointDecompress compressed).x = q.x)
    (hparity : q.y.value % 2 = (compressed.digit 0).toNat % 2) : eccPointDecompress compressed = q := by
  have hon : (eccPointDecompress compressed).OnCurve := onCurve_decompress_iff.mpr ⟨q.y.toFp, by rw [hx]; exact hq⟩
  have hred := reduced_decompress hon
  have hsq : (eccPointDecompress compressed).y.toFp ^ 2 = q.y.toFp ^ 2 := by
    rw [(curve_equation_iff _ _).mp hon, (curve_equation_iff _ _).mp hq, hx]
  refine EccPoint.ext hx ?_
  rcases sq_eq_sq_iff_eq_or_eq_neg.mp hsq with h | h
  · exact (Vli.toFp_inj hred hy).mp h
  · exact absurd ((parity_decompress compressed).trans hparity.symm) (parity_ne_of_neg hred hy hq.y_ne_zero h)

theorem parity_compress (p : EccPoint) : ((compress p).digit 0).toNat % 2 = p.y.value % 2 := by
  have hdigit : (compress p).digit 0 = (2 + (p.y.digit 0 &&& 1)).setWidth 8 := rfl
  have hand : (p.y.digit 0 &&& 1).toNat = p.y.value % 2 := by
    rw [BitVec.toNat_and, show (1 : BitVec 64).toNat = 1 from rfl, Nat.and_one_is_mod, Limbs.toNat_digit]
    omega
  rw [hdigit, BitVec.toNat_setWidth, BitVec.toNat_add, hand]
  have : (2 : BitVec 64).toNat = 2 := rfl
  omega

/-- The bytes of a public key give the point back. -/
theorem decompress_compress {p : EccPoint} (hp : p.OnCurve) (hy : p.y.Reduced) :
    eccPointDecompress (compress p) = p := by
  refine decompress_eq hp hy ?_ (parity_compress p).symm
  have hslice : slice (compress p) 1 32 (by omega) = eccNative2bytes p.x := slice_join_right _ _ _
  rw [x_decompress, hslice, eccBytes2native_native2bytes]

/-- `ecc_point_decompress` keeps `x`. It gives a point of the curve exactly where
there is one with that `x`, and then the one whose `y` has the parity of the
prefix; so it undoes `compress`. -/
theorem decompress_exact (compressed : Limbs 8 33) :
    (eccPointDecompress compressed).x = eccBytes2native (slice compressed 1 32 (by omega)) ∧
    ((eccPointDecompress compressed).OnCurve ↔
      ∃ y, curve.Equation (eccPointDecompress compressed).x.toFp y) ∧
    (∀ q : EccPoint, q.OnCurve → q.y.Reduced → (eccPointDecompress compressed = q ↔
      (eccPointDecompress compressed).x = q.x ∧ q.y.value % 2 = (compressed.digit 0).toNat % 2)) ∧
    ∀ q : EccPoint, q.OnCurve → q.y.Reduced → eccPointDecompress (compress q) = q := by
  refine ⟨x_decompress compressed, onCurve_decompress_iff, fun q hq hy => ⟨?_, fun h => decompress_eq hq hy h.1 h.2⟩,
    fun q hq hy => decompress_compress hq hy⟩
  rintro rfl
  exact ⟨rfl, parity_decompress compressed⟩

end Bryllite.Ecc
