import Bryllite.Ecc.Reduce
import Bryllite.Framework.BinaryEuclid

/-!
# Inverses (secp256r1.cpp, vli_modInv)

The loop of `vli_modInv` is Euclid's algorithm in binary on four digits (`modInvBody_euclid`):
a carry out of the digits comes back as the top bit after halving. It ends for every
modulus but 0, and for an odd one with the inverse up to the greatest common divisor
(`vliModInv_spec`).
-/

namespace Bryllite.Ecc

open Bryllite.Framework

/-- `EVEN`. -/
def even (vli : Vli) : Bool := vli.digit 0 &&& 1#64 = 0#64

/-- `vli[NUM_ECC_DIGITS - 1] |= bit`. -/
def orTop (vli : Vli) (bit : BitVec 64) : Vli where
  digits := vli.digits.modify (numEccDigits - 1) (· ||| bit)
  length_digits := (List.length_modify _ _ _).trans vli.length_digits

/-- A factor is halved: the modulus is added if it is odd, and the carry put on top. -/
def halve (u mod : Vli) : Vli :=
  let (u, carry) := if !even u then vliAdd u mod else (u, 0#64)
  if carry ≠ 0 then orTop (vliRshift1 u) 0x8000000000000000#64 else vliRshift1 u

/-- The factor of a difference: `if( vli_cmp( u, v ) < 0 ) vli_add( u, u, p_mod ); vli_sub( u, u, v );`. -/
def subFactor (u v mod : Vli) : Vli := (vliSub (if vliCmp u v < 0 then (vliAdd u mod).1 else u) v).1

/-- `a`, `b`, `u` and `v` of `vli_modInv`. -/
structure ModInv where
  a : Vli
  b : Vli
  u : Vli
  v : Vli

/-- The body of the loop. -/
def modInvBody (mod : Vli) (s : ModInv) : ModInv :=
  if even s.a then { s with a := vliRshift1 s.a, u := halve s.u mod }
  else if even s.b then { s with b := vliRshift1 s.b, v := halve s.v mod }
  else if vliCmp s.a s.b > 0 then
    { s with a := vliRshift1 (vliSub s.a s.b).1, u := halve (subFactor s.u s.v mod) mod }
  else { s with b := vliRshift1 (vliSub s.b s.a).1, v := halve (subFactor s.v s.u mod) mod }

/-! ## Parts of the loop -/

theorem even_iff (x : Vli) : even x = true ↔ x.value % 2 = 0 := by
  have hdigit := Limbs.toNat_digit x 0
  have hand : (x.digit 0 &&& 1#64).toNat = (x.digit 0).toNat % 2 := by
    rw [BitVec.toNat_and]
    exact Nat.and_two_pow_sub_one_eq_mod _ 1
  rw [even, decide_eq_true_eq, ← BitVec.toNat_inj, hand, hdigit]
  simp only [Nat.mul_zero, pow_zero, Nat.div_one, BitVec.toNat_ofNat]
  omega

theorem value_orTop (x : Vli) (bit : BitVec 64) (hx : x.value < 2 ^ 255) (hbit : bit.toNat % 2 ^ 63 = 0) :
    (orTop x bit).value = x.value + 2 ^ 192 * bit.toNat := by
  obtain ⟨ds, hlen⟩ := x
  match ds, hlen with
  | [a, b, c, d], hlen =>
    have htop : orTop ⟨[a, b, c, d], hlen⟩ bit = ⟨[a, b, c, d ||| bit], hlen⟩ := rfl
    rw [htop, value_vli, value_vli]
    rw [value_vli] at hx
    have hbit' : bit.toNat = 2 ^ 63 * (bit.toNat / 2 ^ 63) := by omega
    rw [BitVec.or_comm, toNat_or_of_lt hbit' (by omega)]
    omega

/-- A number halved modulo another: its carry comes back as the top bit. -/
theorem value_halve (u mod : Vli) : (halve u mod).value = halveMod mod.value u.value := by
  have hadd := vliAdd_value u mod
  have hcarry := vliAdd_carry u mod
  have hlt := Vli.value_lt (vliAdd u mod).1
  have hhalf := value_vliRshift1 (vliAdd u mod).1
  rw [halve, halveMod]
  cases he : even u with
  | true =>
    rw [even_iff] at he
    simp [he, value_vliRshift1]
  | false =>
    rw [Bool.eq_false_iff, Ne, even_iff] at he
    simp only [Bool.not_false, if_true, Ne, ← toNat_eq_zero_iff, if_neg he]
    split
    · have htop := value_orTop (vliRshift1 (vliAdd u mod).1) 0x8000000000000000#64 (by omega) (by decide)
      rw [show (0x8000000000000000#64).toNat = 2 ^ 63 from rfl] at htop
      omega
    · omega

theorem value_subFactor {u v mod : Vli} (hv : v.value ≤ mod.value) :
    (subFactor u v mod).value = subMod mod.value u.value v.value := by
  have hadd := vliAdd_value u mod
  have hcarry := vliAdd_carry u mod
  have hmod := Vli.value_lt mod
  have hlt := Vli.value_lt (vliAdd u mod).1
  rw [subFactor, subMod]
  split
  · rename_i h
    rw [vliCmp_neg_iff] at h
    rw [if_pos h]
    have hsub := vliSub_value (vliAdd u mod).1 v
    have hborrow := vliSub_borrow (vliAdd u mod).1 v
    have hlt' := Vli.value_lt (vliSub (vliAdd u mod).1 v).1
    omega
  · rename_i h
    rw [vliCmp_neg_iff] at h
    rw [if_neg h, value_vliSub_of_le (Nat.not_lt.mp h)]

/-! ## The loop -/

/-- The state of the algorithm that the digits stand for. -/
def ModInv.euclid (s : ModInv) : Euclid := ⟨s.a.value, s.b.value, s.u.value, s.v.value⟩

/-- The body makes the numbers of a step. -/
theorem modInvBody_numbers (mod : Vli) (s : ModInv) :
    (modInvBody mod s).a.value = (s.euclid.step mod.value).a ∧ (modInvBody mod s).b.value = (s.euclid.step mod.value).b := by
  simp only [modInvBody, Euclid.step, ModInv.euclid, even_iff, gt_iff_lt, vliCmp_pos_iff]
  by_cases ha : s.a.value % 2 = 0
  · simp only [ha, ↓reduceIte, value_vliRshift1, and_self]
  · by_cases hb : s.b.value % 2 = 0
    · simp only [ha, hb, ↓reduceIte, value_vliRshift1, and_self]
    · by_cases hlt : s.b.value < s.a.value
      · simp only [ha, hb, hlt, ↓reduceIte, value_vliRshift1, value_vliSub_of_le (Nat.le_of_lt hlt), and_self]
      · simp only [ha, hb, hlt, ↓reduceIte, value_vliRshift1, value_vliSub_of_le (Nat.not_lt.mp hlt), and_self]

/-- The body is a step, where the factors are reduced. -/
theorem modInvBody_euclid {mod : Vli} {s : ModInv} (hu : s.u.value ≤ mod.value) (hv : s.v.value ≤ mod.value) :
    (modInvBody mod s).euclid = s.euclid.step mod.value := by
  simp only [modInvBody, Euclid.step, ModInv.euclid, even_iff, gt_iff_lt, vliCmp_pos_iff]
  by_cases ha : s.a.value % 2 = 0
  · simp only [ha, ↓reduceIte, value_vliRshift1, value_halve]
  · by_cases hb : s.b.value % 2 = 0
    · simp only [ha, hb, ↓reduceIte, value_vliRshift1, value_halve]
    · by_cases hlt : s.b.value < s.a.value
      · simp only [ha, hb, hlt, ↓reduceIte, value_vliRshift1, value_vliSub_of_le (Nat.le_of_lt hlt), value_halve,
          value_subFactor hv]
      · simp only [ha, hb, hlt, ↓reduceIte, value_vliRshift1, value_vliSub_of_le (Nat.not_lt.mp hlt),
          value_halve, value_subFactor hu]

/-- Numbers that are not 0 stay so, and get smaller. -/
theorem modInvBody_lt (mod : Vli) {s : ModInv} (h : s.a.value ≠ 0 ∧ s.b.value ≠ 0) (hne : vliCmp s.a s.b ≠ 0) :
    ((modInvBody mod s).a.value ≠ 0 ∧ (modInvBody mod s).b.value ≠ 0) ∧
      (modInvBody mod s).a.value + (modInvBody mod s).b.value < s.a.value + s.b.value := by
  have hne' : s.euclid.a ≠ s.euclid.b := fun heq => hne ((vliCmp_eq_zero_iff _ _).mpr (Limbs.value_inj heq))
  obtain ⟨ha, hb, hlt⟩ := Euclid.step_lt (m := mod.value) (Nat.pos_of_ne_zero h.1) (Nat.pos_of_ne_zero h.2) hne'
  rw [(modInvBody_numbers mod s).1, (modInvBody_numbers mod s).2]
  exact ⟨⟨Nat.ne_of_gt ha, Nat.ne_of_gt hb⟩, hlt⟩

/-- `while( ( l_cmpResult = vli_cmp( a, b ) ) != 0 )`, and then `u`. -/
def modInvLoop (mod : Vli) (s : ModInv) (h : s.a.value ≠ 0 ∧ s.b.value ≠ 0) : Vli :=
  if hne : vliCmp s.a s.b ≠ 0 then modInvLoop mod (modInvBody mod s) (modInvBody_lt mod h hne).1 else s.u
termination_by s.a.value + s.b.value
decreasing_by exact (modInvBody_lt mod h hne).2

/-- `vli_modInv`. With modulus 0 its loop does not end. -/
def vliModInv (input mod : Vli) (hmod : mod.value ≠ 0) : Vli :=
  if h : vliIsZero input then vliClear
  else modInvLoop mod ⟨input, mod, vliOf 1, vliClear⟩ ⟨fun h0 => h ((vliIsZero_iff _).mpr h0), hmod⟩

/-- From a state that the algorithm reaches, its last factor. -/
theorem modInvLoop_spec {mod : Vli} {x : Nat} (hodd : mod.value % 2 = 1) {s : ModInv}
    (h : s.a.value ≠ 0 ∧ s.b.value ≠ 0) (hinv : EuclidInv mod.value x s.euclid) :
    (modInvLoop mod s h).value < mod.value ∧ (modInvLoop mod s h).value * x ≡ x.gcd mod.value [MOD mod.value] := by
  induction s, h using modInvLoop.induct mod with
  | case1 s h hne ih =>
    rw [modInvLoop, dif_pos hne]
    refine ih ?_
    rw [modInvBody_euclid (Nat.le_of_lt hinv.u_lt) (Nat.le_of_lt hinv.v_lt)]
    exact hinv.step hodd fun heq => hne ((vliCmp_eq_zero_iff _ _).mpr (Limbs.value_inj heq))
  | case2 s h hne =>
    rw [modInvLoop, dif_neg hne]
    rw [Ne, not_not, vliCmp_eq_zero_iff] at hne
    exact ⟨hinv.u_lt, hinv.mul_modEq (congrArg Limbs.value hne)⟩

/-- `vli_modInv` is the inverse up to the greatest common divisor; of 0 it is 0. -/
theorem vliModInv_spec {mod : Vli} (hodd : mod.value % 2 = 1) (hone : 1 < mod.value) (hmod : mod.value ≠ 0) (x : Vli) :
    (vliModInv x mod hmod).value < mod.value ∧
      (x.value ≠ 0 → (vliModInv x mod hmod).value * x.value ≡ x.value.gcd mod.value [MOD mod.value]) ∧
      (x.value = 0 → vliModInv x mod hmod = vliClear) := by
  rw [vliModInv]
  split
  · rename_i h
    rw [vliIsZero_iff] at h
    exact ⟨by rw [value_vliClear]; omega, fun hx => absurd h hx, fun _ => rfl⟩
  · rename_i h
    have hx : x.value ≠ 0 := fun hx => h ((vliIsZero_iff x).mpr hx)
    have hinit : EuclidInv mod.value x.value (ModInv.euclid ⟨x, mod, vliOf 1, vliClear⟩) := by
      have := EuclidInv.init hodd hone (Nat.pos_of_ne_zero hx)
      simpa [ModInv.euclid] using this
    obtain ⟨hlt, heq⟩ := modInvLoop_spec hodd ⟨hx, hmod⟩ hinit
    exact ⟨hlt, fun _ => heq, fun hx' => absurd hx' hx⟩

/-- Of a number with an inverse, `vli_modInv` is the one inverse below the modulus. -/
theorem vliModInv_exact {mod : Vli} (hodd : mod.value % 2 = 1) (hone : 1 < mod.value) (hmod : mod.value ≠ 0) {x : Vli}
    (hx : x.value.Coprime mod.value) (y : Nat) :
    (vliModInv x mod hmod).value = y ↔ y < mod.value ∧ y * x.value % mod.value = 1 := by
  obtain ⟨hlt, hmul, -⟩ := vliModInv_spec hodd hone hmod x
  have hx0 : x.value ≠ 0 := by
    intro h0
    rw [h0, Nat.coprime_zero_left] at hx
    omega
  have hinv := hmul hx0
  rw [hx.gcd_eq_one, Nat.ModEq, Nat.mod_eq_of_lt hone] at hinv
  constructor
  · rintro rfl
    exact ⟨hlt, hinv⟩
  · rintro ⟨hy, hmody⟩
    have hcancel : (vliModInv x mod hmod).value * x.value ≡ y * x.value [MOD mod.value] := hinv.trans hmody.symm
    exact (Nat.ModEq.cancel_right_of_coprime hx.symm hcancel).eq_of_lt_of_lt hlt hy

theorem vliModInv_exact_sample : curveP.value % 2 = 1 ∧ (vliOf 2).value.Coprime curveP.value ∧
    (vliModInv (vliOf 2) curveP curveP_ne_zero).value = (curveP.value + 1) / 2 := by
  have hodd : curveP.value % 2 = 1 := by decide +kernel
  have hone : 1 < curveP.value := by decide +kernel
  have hx : (vliOf 2).value.Coprime curveP.value := by decide +kernel
  exact ⟨hodd, hx, (vliModInv_exact hodd hone curveP_ne_zero hx _).mpr (by decide +kernel)⟩

end Bryllite.Ecc
