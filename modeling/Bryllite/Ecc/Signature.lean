import Bryllite.Ecc.KeyPair
import Bryllite.Ecc.Verify
import Bryllite.Framework.Ecdsa

/-!
# Signatures (secp256r1.cpp, do_sign and do_verify)

`do_sign` makes the signature of the algorithm from its random number, and `do_verify` decides
whether a signature is valid, but rejects it where its additions meet equal or opposite points
(`doVerify_exact`). So a signature is accepted by the public key unless there is such a clash
(`doVerify_doSign`), for private keys from 2 on and random numbers but 1: 0 and 1 count as 2
and 3 where `curve_G` is multiplied, but not where the signature is made of them.
-/

namespace Bryllite.Ecc

open Bryllite.Framework

/-- The point of `do_sign`, its `x` reduced. -/
def signPoint (k : Vli) : EccPoint :=
  let p := eccPointMult curveG k none
  { p with x := reduceN p.x }

/-- The signature of `do_sign`, after its loop. -/
def signatureOf (_private _hash : EccBytes) (k x : Vli) : Limbs 8 64 :=
  let l_tmp := eccBytes2native _private
  let l_s := vliModMult x l_tmp curveN curveN_ne_zero
  let l_tmp := eccBytes2native _hash
  let l_s := vliModAdd l_tmp l_s curveN
  let k := vliModInv k curveN curveN_ne_zero
  let l_s := vliModMult l_s k curveN curveN_ne_zero
  join (eccNative2bytes x) (eccNative2bytes l_s)

/-- `do_sign`: the signature, if it returns true. `p` is what its local variable
holds before it is set. -/
def doSign (random : Nat → Option Vli) (p : EccPoint) (_private _hash : EccBytes) : Option (Limbs 8 64) :=
  (tryLoop random signPoint (fun p => vliIsZero p.x) maxTries 0 p).map
    fun r => signatureOf _private _hash r.1 r.2.x

/-- `do_verify`; `none` where it would read from `NULL`. -/
def doVerify (_public : Limbs 8 33) (_hash : EccBytes) (_signature : Limbs 8 64) : Option Bool :=
  let l_public := eccPointDecompress _public
  let l_r := eccBytes2native (slice _signature 0 32 (by omega))
  let l_s := eccBytes2native (slice _signature 32 32 (by omega))
  if vliIsZero l_r || vliIsZero l_s then some false
  else if vliCmp curveN l_r ≠ 1 || vliCmp curveN l_s ≠ 1 then some false
  else
    let z := vliModInv l_s curveN curveN_ne_zero
    let u1 := vliModMult (eccBytes2native _hash) z curveN curveN_ne_zero
    let u2 := vliModMult l_r z curveN curveN_ne_zero
    (verifyPoint u1 u2 l_public).map fun p => vliCmp (reduceN p.x) l_r = 0

/-! ## Numbers modulo the order -/

instance fact_prime_curveN : Fact curveN.value.Prime := ⟨prime_curveN⟩

theorem curveN_top : 2 ^ 255 ≤ curveN.value := by decide +kernel

theorem vliModMult_lt (u v : Vli) : (vliModMult u v curveN curveN_ne_zero).value < curveN.value := by
  rw [value_vliModMult _ _ _ curveN_top]
  exact Nat.mod_lt _ prime_curveN.pos

theorem natCast_vliModMult (u v : Vli) :
    ((vliModMult u v curveN curveN_ne_zero).value : ZMod curveN.value) = u.value * v.value := by
  rw [value_vliModMult _ _ _ curveN_top, ZMod.natCast_mod, Nat.cast_mul]

theorem natCast_vliModAdd (u : Vli) {v : Vli} (hv : v.value < curveN.value) :
    ((vliModAdd u v curveN).value : ZMod curveN.value) = u.value + v.value := by
  rw [value_vliModAdd hv.le, ← Nat.cast_add]
  split
  · rfl
  · rename_i hle
    rw [Nat.cast_sub (not_lt.mp hle), ZMod.natCast_self, sub_zero]

theorem natCast_vliModInv {v : Vli} (hv : v.value < curveN.value) :
    ((vliModInv v curveN curveN_ne_zero).value : ZMod curveN.value) = (v.value : ZMod curveN.value)⁻¹ := by
  have hodd : curveN.value % 2 = 1 := by decide +kernel
  obtain ⟨-, hinv, hzero⟩ := vliModInv_spec hodd prime_curveN.one_lt curveN_ne_zero v
  by_cases h0 : v.value = 0
  · rw [hzero h0, h0, value_vliClear, Nat.cast_zero, inv_zero]
  · have hgcd : v.value.gcd curveN.value = 1 :=
      (prime_curveN.coprime_iff_not_dvd.mpr (Nat.not_dvd_of_pos_of_lt (Nat.pos_of_ne_zero h0) hv)).symm
    have h := hinv h0
    rw [hgcd, ← ZMod.natCast_eq_natCast_iff, Nat.cast_mul, Nat.cast_one] at h
    exact eq_inv_of_mul_eq_one_left h

/-- The `x` of a point as a number; 0 for the neutral one. -/
def xOf : curve.Point → Nat
  | .zero => 0
  | .some x _ _ => ZMod.val (n := curveP.value) x

theorem xOf_eq {p : EccPoint} {P : curve.Point} (hp : p.Reduced) (h : p.Represents P) : p.x.value = xOf P := by
  obtain ⟨x, y, hxy, rfl, hc⟩ := h
  have hx : p.x.toFp = x := by
    have := congrArg Prod.fst hc
    rwa [CoZ.applyZ, one_pow, mul_one] at this
  rw [xOf, ← hx, Vli.toFp_def]
  exact (ZMod.val_cast_of_lt (Vli.reduced_iff.mp hp.x)).symm

/-! ## Verification -/

/-- `do_verify` meets equal or opposite points on its way to the two multiples. -/
def VerifyClashes (Q : curve.Point) (e r s : Nat) : Prop :=
  let u1 := Ecdsa.quotient curveN.value e s
  let u2 := Ecdsa.quotient curveN.value r s
  Clashes basePoint Q u1 u2 (max u1.size u2.size - 1) 0

/-- The two numbers of `do_verify`. -/
theorem value_quotient (a : Vli) {s : Vli} (hs : s.value < curveN.value) :
    (vliModMult a (vliModInv s curveN curveN_ne_zero) curveN curveN_ne_zero).value =
      Ecdsa.quotient curveN.value a.value s.value := by
  refine Ecdsa.eq_quotient (vliModMult_lt _ _) ?_
  rw [natCast_vliModMult, natCast_vliModInv hs]

theorem quotient_ne_zero {r s : Nat} (hr : r ≠ 0) (hrn : r < curveN.value) (hs : s ≠ 0)
    (hsn : s < curveN.value) :
    Ecdsa.quotient curveN.value r s ≠ 0 := by
  intro h
  have hcast := Ecdsa.natCast_quotient (n := curveN.value) r s
  rw [h, Nat.cast_zero] at hcast
  exact mul_ne_zero (Ecdsa.natCast_ne_zero hr hrn) (inv_ne_zero (Ecdsa.natCast_ne_zero hs hsn)) hcast.symm

/-- What `do_verify` accepts, for the numbers that it reads. -/
theorem doVerify_eq {_public : Limbs 8 33} (hp : (eccPointDecompress _public).OnCurve)
    (hne : (eccPointDecompress _public).x.toFp ≠ curveG.x.toFp) (_hash : EccBytes) (_signature : Limbs 8 64)
    {e r s : Nat} (he : (eccBytes2native _hash).value = e)
    (hr : (eccBytes2native (slice _signature 0 32 (by omega))).value = r)
    (hs : (eccBytes2native (slice _signature 32 32 (by omega))).value = s) :
    ∃ b, doVerify _public _hash _signature = some b ∧
      (b = true ↔ Ecdsa.Valid basePoint curveN.value xOf ((eccPointDecompress _public).point hp) e r s ∧
        ¬VerifyClashes ((eccPointDecompress _public).point hp) e r s) := by
  rw [doVerify]
  generalize eccBytes2native (slice _signature 0 32 _) = l_r at hr ⊢
  generalize eccBytes2native (slice _signature 32 32 _) = l_s at hs ⊢
  generalize eccBytes2native _hash = l_e at he ⊢
  subst he hr hs
  dsimp only
  split
  · rename_i h0
    refine ⟨false, rfl, iff_of_false Bool.false_ne_true fun h => ?_⟩
    simp only [Bool.or_eq_true, vliIsZero_iff] at h0
    exact h0.elim h.1.r_ne_zero h.1.s_ne_zero
  · rename_i h0
    simp only [Bool.or_eq_true, vliIsZero_iff, not_or] at h0
    split
    · rename_i hle
      refine ⟨false, rfl, iff_of_false Bool.false_ne_true fun h => ?_⟩
      simp only [Bool.or_eq_true, decide_eq_true_eq, vliCmp_ne_one_iff] at hle
      exact hle.elim (not_le.mpr h.1.r_lt) (not_le.mpr h.1.s_lt)
    · rename_i hlt
      simp only [Bool.or_eq_true, decide_eq_true_eq, vliCmp_ne_one_iff, not_or, not_le] at hlt
      have hu1 := value_quotient l_e hlt.2
      have hu2 := value_quotient l_r hlt.2
      generalize vliModMult l_e _ curveN curveN_ne_zero = u1 at hu1 ⊢
      generalize vliModMult l_r _ curveN curveN_ne_zero = u2 at hu2 ⊢
      have hu2' : u2.value ≠ 0 := hu2 ▸ quotient_ne_zero h0.1 hlt.1 h0.2 hlt.2
      obtain ⟨p, hpoint, hclash, hclear⟩ : ∃ p, verifyPoint u1 u2 (eccPointDecompress _public) = some p ∧ _ :=
        verifyPoint_spec hp hne hu2'
      rw [hu1, hu2] at hclash hclear
      refine ⟨_, congrArg (Option.map _) hpoint, ?_⟩
      rw [decide_eq_true_eq, vliCmp_eq_zero_iff]
      by_cases hc : VerifyClashes ((eccPointDecompress _public).point hp) l_e.value l_r.value l_s.value
      · refine iff_of_false (fun heq => h0.1 ?_) fun h => h.2 hc
        rw [← heq, value_reduceN, hclash hc, value_vliClear, Nat.zero_mod]
      · obtain ⟨hreduced, hrep⟩ := hclear hc
        have hx := value_reduceN p.x
        rw [xOf_eq hreduced hrep] at hx
        rw [and_iff_left hc]
        exact ⟨fun heq => ⟨h0.1, h0.2, hlt.1, hlt.2, by rw [← hx, heq]⟩,
          fun h => Limbs.value_inj (hx.trans h.x_eq)⟩

/-! ## Signing -/

/-- A random number that makes a signature: the point of its multiple has no
`x` that is 0 modulo `curve_n`. -/
def Nonce (v : Vli) : Prop := v.value ≠ 0 ∧ vliIsZero (signPoint (reduceN v)).x = false

instance decidable_nonce (v : Vli) : Decidable (Nonce v) := inferInstanceAs (Decidable (_ ∧ _))

theorem doSign_eq {random : Nat → Option Vli} {p : EccPoint} (_private _hash : EccBytes)
    (h : random 0 = some vliClear → vliIsZero p.x = true) : doSign random p _private _hash =
      (firstOf random Nonce maxTries 0).map
        fun v => signatureOf _private _hash (reduceN v) (signPoint (reduceN v)).x := by
  have hloop := @tryLoop_eq random signPoint (fun p => vliIsZero p.x) Nonce _ (fun _ => Iff.rfl) maxTries 0 p h
  rw [doSign, hloop, Option.map_map]
  rfl

theorem x_signPoint (v : Vli) : (signPoint (reduceN v)).x.value = (keysOf v).2.x.value % curveN.value := by
  rw [signPoint, keysOf, value_reduceN]

theorem doSign_const {v : Vli} (hv : Nonce v) (p : EccPoint) (_private _hash : EccBytes) :
    doSign (fun _ => some v) p _private _hash =
      some (signatureOf _private _hash (reduceN v) (signPoint (reduceN v)).x) := by
  have h0 : v ≠ vliClear := fun h => hv.1 (h ▸ value_vliClear)
  rw [doSign_eq _ _ fun h => absurd (Option.some.inj h) h0, maxTries, firstOf, Option.bind_some, if_pos hv]
  rfl

/-- Where a signature comes from. -/
theorem exists_signatureOf {random : Nat → Option Vli} {p : EccPoint} {_private _hash : EccBytes}
    {_signature : Limbs 8 64} (h : doSign random p _private _hash = some _signature) :
    _signature = signatureOf _private _hash vliClear p.x ∨ ∃ v, (Nonce v ∧ ∃ j, random j = some v) ∧
      _signature = signatureOf _private _hash (reduceN v) (signPoint (reduceN v)).x := by
  by_cases hzero : random 0 = some vliClear ∧ vliIsZero p.x = false
  · have hloop := @tryLoop_of_first_zero random signPoint (fun p => vliIsZero p.x) 15 0 p hzero.1 hzero.2
    rw [doSign, maxTries, hloop] at h
    exact .inl (Option.some.inj h).symm
  · rw [doSign_eq _ _ fun h0 => Bool.of_not_eq_false fun h' => hzero ⟨h0, h'⟩] at h
    obtain ⟨v, hv, rfl⟩ := Option.map_eq_some_iff.mp h
    exact .inr ⟨v, exists_of_firstOf hv, rfl⟩

/-- The first part of the signature. -/
theorem value_signPoint {v : Vli} (h : Nonce v) :
    (signPoint (reduceN v)).x.value = xOf (takenScalar (reduceN v) • basePoint) % curveN.value ∧
      (signPoint (reduceN v)).x.value ≠ 0 := by
  have hne : (signPoint (reduceN v)).x.value ≠ 0 := by
    rw [ne_eq, ← vliIsZero_iff, h.2]
    exact Bool.false_ne_true
  refine ⟨?_, hne⟩
  have hfails : ¬MultFails curveG (reduceN v) none := by
    intro hf
    refine hne ?_
    rw [signPoint, eccPointMult_of_fails onCurve_curveG hf, value_reduceN, value_vliClear, Nat.zero_mod]
  obtain ⟨hreduced, hrep⟩ := eccPointMult_of_not_fails onCurve_curveG hfails
  rw [signPoint, value_reduceN, xOf_eq hreduced hrep]
  rfl

/-- From 2 on, a number is multiplied as it is. -/
theorem takenScalar_of_two_le {k : Vli} (h : 2 ≤ k.value) : takenScalar k = k.value := by
  rw [takenScalar]
  omega

theorem slice_signatureOf_left (_private _hash : EccBytes) (k x : Vli) (h : 0 + 32 ≤ 64) :
    eccBytes2native (slice (signatureOf _private _hash k x) 0 32 h) = x := by
  have hslice : slice (signatureOf _private _hash k x) 0 32 h = eccNative2bytes x := slice_join_left _ _ _
  rw [hslice, eccBytes2native_native2bytes]

/-- The second part of the signature. -/
theorem value_signatureOf (_private _hash : EccBytes) {k : Vli} (hk : k.value < curveN.value) (x : Vli)
    (h : 32 + 32 ≤ 64) : (eccBytes2native (slice (signatureOf _private _hash k x) 32 32 h)).value =
      Ecdsa.quotient curveN.value
        ((eccBytes2native _hash).value + x.value * (eccBytes2native _private).value) k.value := by
  have hslice : slice (signatureOf _private _hash k x) 32 32 h = eccNative2bytes (vliModMult
      (vliModAdd (eccBytes2native _hash) (vliModMult x (eccBytes2native _private) curveN curveN_ne_zero) curveN)
      (vliModInv k curveN curveN_ne_zero) curveN curveN_ne_zero) := slice_join_right _ _ _
  rw [hslice, eccBytes2native_native2bytes]
  refine Ecdsa.eq_quotient (vliModMult_lt _ _) ?_
  rw [natCast_vliModMult, natCast_vliModInv hk, natCast_vliModAdd _ (vliModMult_lt _ _), natCast_vliModMult,
    Nat.cast_add, Nat.cast_mul]

/-- With 0 for `k` the second part is 0. -/
theorem value_signatureOf_zero (_private _hash : EccBytes) {k : Vli} (hk : k.value = 0) (x : Vli) (h : 32 + 32 ≤ 64) :
    (eccBytes2native (slice (signatureOf _private _hash k x) 32 32 h)).value = 0 := by
  rw [value_signatureOf _ _ (by rw [hk]; exact prime_curveN.pos), hk, Ecdsa.quotient_zero]

/-- The signature of a random number that is not 1 modulo `curve_n` is valid, unless its second part is 0. -/
theorem valid_signatureOf {_private _hash : EccBytes} {w : Vli} (hw : Nonce w) (hne : w.value % curveN.value ≠ 1)
    {r s : Nat} {h : 0 + 32 ≤ 64} {h' : 32 + 32 ≤ 64}
    (hr : (eccBytes2native (slice (signatureOf _private _hash (reduceN w) (signPoint (reduceN w)).x) 0 32 h)).value = r)
    (hs : (eccBytes2native (slice (signatureOf _private _hash (reduceN w) (signPoint (reduceN w)).x) 32 32 h')).value =
      s) (hs0 : s ≠ 0) : Ecdsa.Valid basePoint curveN.value xOf ((eccBytes2native _private).value • basePoint)
      (eccBytes2native _hash).value r s := by
  have hk0 : (reduceN w).value ≠ 0 := fun h0 => hs0 (hs.symm.trans (value_signatureOf_zero _ _ h0 _ _))
  rw [← value_reduceN] at hne
  obtain ⟨hx, hr0⟩ := value_signPoint hw
  rw [takenScalar_of_two_le (by omega)] at hx
  rw [slice_signatureOf_left] at hr
  rw [value_signatureOf _ _ (reduceN_lt w), hr] at hs
  rw [hr] at hx hr0
  have hk := Ecdsa.natCast_ne_zero hk0 (reduceN_lt w)
  have hvalid := @Ecdsa.valid_signature _ _ basePoint _ xOf _ addOrderOf_basePoint (eccBytes2native _private).value
    (eccBytes2native _hash).value _ hk
  rw [Ecdsa.signature, ← hx, hs] at hvalid
  exact hvalid hr0 hs0

/-- The public key of a private one from 2 on is neither `G` nor its opposite. -/
theorem x_ne_of_two_le {d : Nat} (hd : 2 ≤ d) (hdn : d + 1 < curveN.value) {q : EccPoint}
    (hq : q.Represents (d • basePoint)) : q.x.toFp ≠ curveG.x.toFp := by
  have hG := addOrderOf_basePoint
  intro hx
  rcases (hq.x_eq_iff represents_curveG one_ne_zero).mp hx with h | h
  · have hsub : (d - 1) • basePoint = 0 := by
      rw [← add_right_cancel_iff (a := basePoint), zero_add, ← succ_nsmul, Nat.sub_add_cancel (by omega), h]
    exact nsmul_ne_zero_of_lt_addOrderOf (by omega) (by omega) hsub
  · have hadd : (d + 1) • basePoint = 0 := by rw [succ_nsmul, h, neg_add_cancel]
    exact nsmul_ne_zero_of_lt_addOrderOf (by omega) (by omega) hadd

/-! ## The signature of 0 -/

/-- The `x` of twice `curve_G` is neither 0 nor `curve_n`. -/
theorem nonce_two : Nonce (vliOf 2) := by
  obtain ⟨hreduced, hrep⟩ := represents_keysOf suitable_two
  obtain ⟨z, -, hone, htwo⟩ := rungs_baseRung
  rw [one_nsmul] at hone
  have hratio : (keysOf (vliOf 2)).2.x.toFp * baseRung.1.1 = curveG.x.toFp * baseRung.2.1 :=
    hone.ratio htwo represents_curveG hrep
  have hx := Vli.reduced_iff.mp hreduced.x
  refine ⟨suitable_two.1, ?_⟩
  rw [Bool.eq_false_iff, ne_eq, vliIsZero_iff, x_signPoint]
  generalize (keysOf (vliOf 2)).2.x = x at hratio hx
  intro hmod
  have hcases : x.value = 0 ∨ x.value = curveN.value := by
    rw [value_curveN] at hmod ⊢
    rw [value_curveP] at hx
    omega
  rw [Vli.toFp_def] at hratio
  rcases hcases with h | h <;> rw [h] at hratio <;> revert hratio <;> decide +kernel

/-- The hash 0. -/
def zeroHash : EccBytes := ⟨List.replicate 32 0, rfl⟩

theorem numeralValue_zeroHash : numeralValue (2 ^ 8) (zeroHash.digits.map BitVec.toNat) = 0 := by decide +kernel

section zeroHash

variable {Q : curve.Point} {r : Nat} (h0 : r ≠ 0) (hr : r < curveN.value)
include h0 hr

/-- Of 0 and two equal parts, the multiples are none of `curve_G` and the key as it is. -/
theorem quotient_zeroHash :
    Ecdsa.quotient curveN.value 0 r = 0 ∧ Ecdsa.quotient curveN.value r r = 1 := by
  have hone := Ecdsa.mul_quotient prime_curveN.one_lt h0 hr
  rw [one_mul] at hone
  exact ⟨Ecdsa.zero_quotient r, hone⟩

theorem not_verifyClashes_zeroHash : ¬VerifyClashes Q 0 r r := by
  rw [VerifyClashes, (quotient_zeroHash h0 hr).1, (quotient_zeroHash h0 hr).2]
  exact not_clashes_self 0

theorem valid_zeroHash (hx : xOf Q % curveN.value = r) : Ecdsa.Valid basePoint curveN.value xOf Q 0 r r := by
  refine ⟨h0, h0, hr, hr, ?_⟩
  rw [(quotient_zeroHash h0 hr).1, (quotient_zeroHash h0 hr).2, zero_nsmul, zero_add, one_nsmul, hx]

end zeroHash

/-! ## What is accepted -/

/-- `do_verify` of a key on the curve, but `G` and its opposite, accepts exactly
the valid signatures for which no addition meets equal or opposite points. The
hash and the two halves of the signature are numbers with their most significant
byte first. -/
theorem doVerify_exact {_public : Limbs 8 33} (hp : (eccPointDecompress _public).OnCurve)
    (hne : (eccPointDecompress _public).x.toFp ≠ curveG.x.toFp) (_hash : EccBytes) (_signature : Limbs 8 64) :
    let e := numeralValue (2 ^ 8) (_hash.digits.map BitVec.toNat)
    let r := numeralValue (2 ^ 8) ((_signature.digits.take 32).map BitVec.toNat)
    let s := numeralValue (2 ^ 8) ((_signature.digits.drop 32).map BitVec.toNat)
    ∃ b, doVerify _public _hash _signature = some b ∧
      (b = true ↔ Ecdsa.Valid basePoint curveN.value xOf ((eccPointDecompress _public).point hp) e r s ∧
        ¬VerifyClashes ((eccPointDecompress _public).point hp) e r s) := by
  refine doVerify_eq hp hne _hash _signature (value_eccBytes2native _hash) (value_eccBytes2native _) ?_
  have htake : (slice _signature 32 32 (by omega)).digits = _signature.digits.drop 32 :=
    List.take_of_length_le (by rw [List.length_drop, _signature.length_digits])
  rw [value_eccBytes2native, htake]

/-- The key of 2 accepts two equal parts for the hash 0: the `x` of its own point. -/
theorem doVerify_exact_sample :
    doVerify (compress (keysOf (vliOf 2)).2) zeroHash (join (eccNative2bytes (signPoint (reduceN (vliOf 2))).x)
      (eccNative2bytes (signPoint (reduceN (vliOf 2))).x)) = some true := by
  have hrep := (represents_keysOf suitable_two).2
  rw [← decompress_keysOf suitable_two] at hrep
  obtain ⟨hon, hpoint⟩ := EccPoint.represents_iff.mp hrep
  obtain ⟨hx, h0⟩ := value_signPoint nonce_two
  have hlt := hx.trans_lt (Nat.mod_lt _ prime_curveN.pos)
  have hne := x_ne_of_two_le (by decide) (by decide +kernel) hrep
  generalize (signPoint (reduceN (vliOf 2))).x = x at hx h0 hlt ⊢
  obtain ⟨b, hb, hiff⟩ := doVerify_exact hon hne zeroHash (join (eccNative2bytes x) (eccNative2bytes x))
  have hlen : (eccNative2bytes x).digits.length = 32 := (eccNative2bytes x).length_digits
  have hvalue : numeralValue (2 ^ 8) ((eccNative2bytes x).digits.map BitVec.toNat) = x.value := by
    rw [← value_eccBytes2native, eccBytes2native_native2bytes]
  rw [join, List.take_left' hlen, List.drop_left' hlen, hvalue, numeralValue_zeroHash] at hiff
  rw [← hpoint] at hiff
  rw [hb, hiff.mpr ⟨valid_zeroHash h0 hlt hx.symm, not_verifyClashes_zeroHash h0 hlt⟩]

/-- A signature that `do_sign` makes for a private key is accepted with the
public key that `create_key_pair` makes of it, unless its second part is 0 or
`do_verify` meets equal or opposite points: for private keys from 2 on, and with
no random number that is 1 modulo `curve_n`. -/
theorem doVerify_doSign {randomA randomB : Nat → Option Vli} {l_public p : EccPoint} {_public : Limbs 8 33}
    {_private : EccBytes} (_hash : EccBytes) {_signature : Limbs 8 64}
    (hkeys : createKeyPair randomA l_public = some (_public, _private))
    (hsign : doSign randomB p _private _hash = some _signature)
    (hrandom : ∀ i v, randomB i = some v → v.value % curveN.value ≠ 1) {e d r s : Nat}
    (he : (eccBytes2native _hash).value = e) (hd : (eccBytes2native _private).value = d) (hle : 2 ≤ d)
    (hr : (eccBytes2native (slice _signature 0 32 (by omega))).value = r)
    (hs : (eccBytes2native (slice _signature 32 32 (by omega))).value = s) :
    ∃ b, doVerify _public _hash _signature = some b ∧
      (b = true ↔ s ≠ 0 ∧ ¬VerifyClashes (d • basePoint) e r s) := by
  have hclear : randomA 0 = some vliClear → eccPointIsZero l_public = true := by
    intro h
    by_contra h'
    rw [createKeyPair_of_first_zero h (Bool.eq_false_iff.mpr h')] at hkeys
    obtain ⟨-, rfl⟩ := Prod.mk.inj (Option.some.inj hkeys)
    rw [eccBytes2native_native2bytes, value_vliClear] at hd
    omega
  obtain ⟨v, hv, rfl, rfl⟩ := exists_keysOf hclear hkeys
  have hkey : (keysOf v).1.value = d := by rw [← hd, eccBytes2native_native2bytes]
  have hdn : d + 1 < curveN.value :=
    lt_of_le_of_ne (hkey ▸ reduceN_lt v) (by rw [← hkey, keysOf, value_reduceN]; exact hv.2)
  have hrep := (represents_keysOf hv).2
  rw [takenScalar_of_two_le (hle.trans_eq hkey.symm), hkey, ← decompress_keysOf hv] at hrep
  obtain ⟨hon, hpoint⟩ := EccPoint.represents_iff.mp hrep
  obtain ⟨b, hb, hiff⟩ := doVerify_eq hon (x_ne_of_two_le hle hdn hrep) _hash _ he hr hs
  refine ⟨b, hb, ?_⟩
  rw [hiff, ← hpoint]
  refine and_congr_left' ⟨Ecdsa.Valid.s_ne_zero, fun hs0 => ?_⟩
  subst he hd
  rcases exists_signatureOf hsign with rfl | ⟨w, ⟨hw, i, hi⟩, rfl⟩
  · exact absurd (hs.symm.trans (value_signatureOf_zero _ _ value_vliClear _ _)) hs0
  · exact valid_signatureOf hw (hrandom i w hi) hr hs hs0

/-- The key of 2 signs the hash 0 with the random number 2, and the signature is accepted. -/
theorem doVerify_doSign_sample : ∃ _signature,
    doSign (fun _ => some (vliOf 2)) ⟨vliClear, vliClear⟩ (eccNative2bytes (keysOf (vliOf 2)).1) zeroHash =
      some _signature ∧
    doVerify (compress (keysOf (vliOf 2)).2) zeroHash _signature = some true := by
  have hkeys := createKeyPair_const suitable_two ⟨vliClear, vliClear⟩
  have hsign := doSign_const nonce_two ⟨vliClear, vliClear⟩ (eccNative2bytes (keysOf (vliOf 2)).1) zeroHash
  have hrandom : ∀ (i : Nat) v, some (vliOf 2) = some v → v.value % curveN.value ≠ 1 := by
    rintro - - ⟨⟩
    decide +kernel
  have htwo : (reduceN (vliOf 2)).value = 2 := by decide +kernel
  have hd : (eccBytes2native (eccNative2bytes (keysOf (vliOf 2)).1)).value = 2 := by
    rw [eccBytes2native_native2bytes]
    exact htwo
  have he : (eccBytes2native zeroHash).value = 0 := (value_eccBytes2native _).trans numeralValue_zeroHash
  obtain ⟨hx, h0⟩ := value_signPoint nonce_two
  have hlt := hx.trans_lt (Nat.mod_lt _ prime_curveN.pos)
  generalize (signPoint (reduceN (vliOf 2))).x = x at hsign h0 hlt
  refine ⟨_, hsign, ?_⟩
  have hs : (eccBytes2native (slice (signatureOf (eccNative2bytes (keysOf (vliOf 2)).1) zeroHash (reduceN (vliOf 2)) x)
      32 32 (by omega))).value = x.value := by
    rw [value_signatureOf _ _ (reduceN_lt _), hd, he, htwo, Nat.zero_add]
    exact Ecdsa.mul_quotient hlt two_ne_zero (by decide +kernel)
  obtain ⟨b, hb, hiff⟩ := doVerify_doSign zeroHash hkeys hsign hrandom he hd le_rfl
    (congrArg Limbs.value (slice_signatureOf_left _ _ _ x _)) hs
  rw [hb, hiff.mpr ⟨h0, not_verifyClashes_zeroHash h0 hlt⟩]

end Bryllite.Ecc
