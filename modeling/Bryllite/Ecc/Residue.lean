import Bryllite.Ecc.ModInv
import Bryllite.Ecc.Primes
import Mathlib.FieldTheory.Finite.Basic

/-!
# Numbers as residues (secp256r1.cpp)

`Vli.toFp` is the residue of a number modulo `curve_p`. The operations modulo the prime
are those of the field: products of all numbers, sums and differences where the right side
is reduced, halves, and inverses, with 0 for the one of 0 (`toFp_modInv`).
-/

namespace Bryllite.Ecc

open Bryllite.Framework

instance : Fact curveP.value.Prime := ⟨prime_curveP⟩

/-- The field of `curve_p`. -/
def Fp : Type := ZMod curveP.value

namespace Fp

instance : Field Fp := inferInstanceAs (Field (ZMod curveP.value))
instance : DecidableEq Fp := inferInstanceAs (DecidableEq (ZMod curveP.value))
instance : Fintype Fp := inferInstanceAs (Fintype (ZMod curveP.value))
instance : CharP Fp curveP.value := inferInstanceAs (CharP (ZMod curveP.value) curveP.value)

theorem natCast_eq_zero_iff (n : Nat) : (n : Fp) = 0 ↔ curveP.value ∣ n := CharP.cast_eq_zero_iff Fp _ n

theorem natCast_self : (curveP.value : Fp) = 0 := (natCast_eq_zero_iff _).mpr dvd_rfl

theorem natCast_eq_natCast_iff (m n : Nat) : (m : Fp) = n ↔ m ≡ n [MOD curveP.value] := CharP.natCast_eq_natCast Fp _

theorem natCast_mod (n : Nat) : ((n % curveP.value : Nat) : Fp) = n :=
  (natCast_eq_natCast_iff _ _).mpr (Nat.mod_modEq _ _)

theorem two_ne_zero : (2 : Fp) ≠ 0 := by decide +kernel

theorem pow_card (r : Fp) : r ^ curveP.value = r := ZMod.pow_card (p := curveP.value) r

end Fp

theorem curveP_odd : curveP.value % 2 = 1 := by decide +kernel

namespace Vli

def toFp (v : Vli) : Fp := v.value

/-- A number below the prime. -/
def Reduced (v : Vli) : Prop := v.value < curveP.value

variable {u v : Vli}

theorem toFp_def : v.toFp = v.value := rfl

theorem reduced_iff : v.Reduced ↔ v.value < curveP.value := Iff.rfl

theorem toFp_eq_zero_iff (h : v.Reduced) : v.toFp = 0 ↔ v.value = 0 := by
  rw [toFp, Fp.natCast_eq_zero_iff]
  exact ⟨fun hdvd => Nat.eq_zero_of_dvd_of_lt hdvd h, fun h0 => h0 ▸ dvd_zero _⟩

theorem toFp_inj (hu : u.Reduced) (hv : v.Reduced) : u.toFp = v.toFp ↔ u = v := by
  refine ⟨fun h => Limbs.value_inj ?_, congrArg toFp⟩
  exact Nat.ModEq.eq_of_lt_of_lt ((Fp.natCast_eq_natCast_iff _ _).mp h) hu hv

end Vli

open Vli

variable {u v : Vli}

@[simp] theorem toFp_vliClear : vliClear.toFp = 0 := by decide +kernel

@[simp] theorem toFp_vliOf_one : (vliOf 1).toFp = 1 := by decide +kernel

theorem reduced_vliOf_one : (vliOf 1).Reduced := by
  rw [reduced_iff]
  decide +kernel

@[simp] theorem reduced_modMult (u v : Vli) : (vliModMultFast u v).Reduced := by
  rw [Reduced, value_vliModMultFast]
  exact Nat.mod_lt _ prime_curveP.pos

@[simp] theorem toFp_modMult (u v : Vli) : (vliModMultFast u v).toFp = u.toFp * v.toFp := by
  rw [toFp, value_vliModMultFast, Fp.natCast_mod, Nat.cast_mul, toFp, toFp]

@[simp] theorem reduced_modSquare (u : Vli) : (vliModSquareFast u).Reduced := by
  rw [Reduced, value_vliModSquareFast]
  exact Nat.mod_lt _ prime_curveP.pos

@[simp] theorem toFp_modSquare (u : Vli) : (vliModSquareFast u).toFp = u.toFp ^ 2 := by
  rw [toFp, value_vliModSquareFast, Fp.natCast_mod, Nat.cast_mul, toFp, sq]

@[simp] theorem reduced_modAdd (hu : u.Reduced) (hv : v.Reduced) : (vliModAdd u v curveP).Reduced := by
  rw [Reduced] at *
  rw [value_vliModAdd hv.le]
  split <;> omega

@[simp] theorem toFp_modAdd (u : Vli) (hv : v.Reduced) : (vliModAdd u v curveP).toFp = u.toFp + v.toFp := by
  rw [toFp, value_vliModAdd (Nat.le_of_lt hv), toFp, toFp, ← Nat.cast_add]
  split
  · rfl
  · rename_i hle
    rw [Nat.cast_sub (not_lt.mp hle), Fp.natCast_self, sub_zero]

@[simp] theorem reduced_modSub (hu : u.Reduced) (hv : v.Reduced) : (vliModSub u v curveP).Reduced := by
  rw [Reduced] at *
  rw [value_vliModSub hv.le]
  split <;> omega

@[simp] theorem toFp_modSub (u : Vli) (hv : v.Reduced) : (vliModSub u v curveP).toFp = u.toFp - v.toFp := by
  rw [toFp, value_vliModSub (Nat.le_of_lt hv), toFp, toFp]
  split
  · rename_i hle
    rw [Nat.cast_sub hle]
  · have hle : v.value ≤ u.value + curveP.value := (Nat.le_of_lt hv).trans (Nat.le_add_left _ _)
    rw [Nat.cast_sub hle, Nat.cast_add, Fp.natCast_self, add_zero]

/-- The opposite, from the prime itself. -/
theorem toFp_vliSub_curveP (hv : v.value ≤ curveP.value) : (vliSub curveP v).1.toFp = -v.toFp := by
  rw [toFp, value_vliSub_of_le hv, Nat.cast_sub hv, Fp.natCast_self, zero_sub, toFp]

/-- The inverse of the field, where a multiple of the prime is 0 itself. -/
theorem toFp_modInv (hv : v.toFp = 0 → v.value = 0) :
    (vliModInv v curveP prime_curveP.ne_zero).toFp = v.toFp⁻¹ := by
  obtain ⟨-, hinv, hzero⟩ := vliModInv_spec curveP_odd prime_curveP.one_lt prime_curveP.ne_zero v
  by_cases h0 : v.value = 0
  · rw [hzero h0, toFp, toFp, h0, value_vliClear, Nat.cast_zero, inv_zero]
  · have hndvd : ¬curveP.value ∣ v.value := fun hdvd => h0 (hv ((Fp.natCast_eq_zero_iff _).mpr hdvd))
    have hgcd : v.value.gcd curveP.value = 1 := ((prime_curveP.coprime_iff_not_dvd).mpr hndvd).symm
    have h := hinv h0
    rw [hgcd, ← Fp.natCast_eq_natCast_iff, Nat.cast_mul, Nat.cast_one] at h
    exact eq_inv_of_mul_eq_one_left h

theorem toFp_modInv_of_reduced (hv : v.Reduced) : (vliModInv v curveP prime_curveP.ne_zero).toFp = v.toFp⁻¹ :=
  toFp_modInv (toFp_eq_zero_iff hv).mp

theorem eq_vliClear (hv : v.Reduced) (h : v.toFp = 0) : v = vliClear :=
  Limbs.value_inj (((toFp_eq_zero_iff hv).mp h).trans value_vliClear.symm)

/-! ## Numbers below the order -/

/-- `if( vli_cmp( curve_n, v ) != 1 ) vli_sub( v, v, curve_n )`. -/
def reduceN (v : Vli) : Vli := if vliCmp curveN v ≠ 1 then (vliSub v curveN).1 else v

theorem value_reduceN (v : Vli) : (reduceN v).value = v.value % curveN.value := by
  have hlt := v.value_lt
  have hn := value_curveN
  rw [reduceN]
  split
  · rename_i h
    have hle := (vliCmp_ne_one_iff _ _).mp h
    rw [value_vliSub_of_le hle, Nat.mod_eq_sub_mod hle, Nat.mod_eq_of_lt (by omega)]
  · rename_i h
    rw [Nat.mod_eq_of_lt (not_le.mp fun hle => h ((vliCmp_ne_one_iff _ _).mpr hle))]

theorem reduceN_lt (v : Vli) : (reduceN v).value < curveN.value := by
  rw [value_reduceN]
  exact Nat.mod_lt _ prime_curveN.pos

-- the unifier does not compute with the prime
attribute [irreducible] Vli.toFp Vli.Reduced

end Bryllite.Ecc
