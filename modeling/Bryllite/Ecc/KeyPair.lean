import Bryllite.Ecc.Decompress

/-!
# Keys and shared secrets (secp256r1.cpp, create_key_pair and make_shared_secret)

`create_key_pair` takes the first random number that is neither 0 nor, modulo `curve_n`, the
number before it (`createKeyPair_exact`); its comment promises a private key from 1 on, and the
number `curve_n` gives 0. The public key is the multiple of `curve_G` that `EccPoint_mult`
takes, so that two parties get one secret from their keys (`sharedSecret_agree`).
-/

namespace Bryllite.Ecc

open Bryllite.Framework

/-- `MAX_TRIES`. -/
def maxTries : Nat := 16

/-- The loop of `create_key_pair` and of `do_sign`, with `left` tries left and the
call `i` of `getRandomNumber` next, which fails where `random` has `none`. With
the number 0 `continue` goes on to the condition, which reads `p` as it is. -/
def tryLoop (random : Nat → Option Vli) (make : Vli → EccPoint) (isZero : EccPoint → Bool) :
    Nat → Nat → EccPoint → Option (Vli × EccPoint)
  | 0, _, _ => none
  | left + 1, i, p =>
    match random i with
    | none => none
    | some k =>
      let (k, p) := if vliIsZero k then (k, p) else (reduceN k, make (reduceN k))
      if isZero p then tryLoop random make isZero left (i + 1) p else some (k, p)

/-- `create_key_pair`: the public and the private key. `l_public` is what its
local variable holds before it is set. -/
def createKeyPair (random : Nat → Option Vli) (l_public : EccPoint) : Option (Limbs 8 33 × EccBytes) :=
  (tryLoop random (fun k => eccPointMult curveG k none) eccPointIsZero maxTries 0 l_public).map
    fun r => (compress r.2, eccNative2bytes r.1)

/-- `make_shared_secret`, with what `getRandomNumber` returns: the bytes of
`_secret`, if they are set, and what it returns. -/
def makeSharedSecret (_public : Limbs 8 33) (_private : EccBytes) (random : Option Vli) : Option EccBytes × Bool :=
  match random with
  | none => (none, false)
  | some l_random =>
    let l_product := eccPointMult (eccPointDecompress _public) (eccBytes2native _private) (some l_random)
    (some (eccNative2bytes l_product.x), !eccPointIsZero l_product)

theorem eccPointIsZero_iff (p : EccPoint) : eccPointIsZero p = true ↔ p.x.value = 0 ∧ p.y.value = 0 := by
  rw [eccPointIsZero, Bool.and_eq_true, vliIsZero_iff, vliIsZero_iff]

/-- A point of the curve is not taken for the neutral one. -/
theorem not_isZero_of_onCurve {p : EccPoint} (hp : p.OnCurve) : eccPointIsZero p = false := by
  rw [Bool.eq_false_iff, ne_eq, eccPointIsZero_iff]
  exact fun h => value_ne_zero_of_toFp hp.y_ne_zero h.2

/-- Of the multiples of `curve_G` by reduced numbers, the last one fails. -/
theorem multFails_curveG_iff {v : Vli} (hv : v.value < curveN.value) :
    MultFails curveG v none ↔ v.value + 1 = curveN.value := by
  have hone : ((none : Option Vli).getD (vliOf 1)).toFp ≠ 0 := by
    rw [Option.getD_none, toFp_vliOf_one]
    exact one_ne_zero
  have hx : curveG.x.toFp ≠ 0 := by decide +kernel
  have hn := value_curveN
  simp only [MultFails, hone, hx, false_or]
  omega

theorem isZero_mult_curveG {v : Vli} (hv : v.value < curveN.value) :
    eccPointIsZero (eccPointMult curveG v none) = true ↔ v.value + 1 = curveN.value := by
  rw [← multFails_curveG_iff hv]
  by_cases h : MultFails curveG v none
  · rw [eccPointMult_of_fails onCurve_curveG h]
    exact iff_of_true (by decide) h
  · have hon := (EccPoint.represents_iff.mp (eccPointMult_of_not_fails onCurve_curveG h).2).1
    rw [not_isZero_of_onCurve hon]
    exact iff_of_false Bool.false_ne_true h

/-! ## The loop -/

section tryLoop

variable {random : Nat → Option Vli} {make : Vli → EccPoint} {isZero : EccPoint → Bool}

/-- The first number with `P` among the next `left` calls, if none fails before it. -/
def firstOf (random : Nat → Option Vli) (P : Vli → Prop) [DecidablePred P] : Nat → Nat → Option Vli
  | 0, _ => none
  | left + 1, i => (random i).bind fun v => if P v then some v else firstOf random P left (i + 1)

theorem exists_of_firstOf {P : Vli → Prop} [DecidablePred P] {left i : Nat} {v : Vli}
    (h : firstOf random P left i = some v) : P v ∧ ∃ j, random j = some v := by
  induction left generalizing i with
  | zero => cases h
  | succ left ih =>
    rw [firstOf] at h
    obtain ⟨u, hu, h⟩ := Option.bind_eq_some_iff.mp h
    split at h
    · rename_i hP
      obtain rfl := Option.some.inj h
      exact ⟨hP, i, hu⟩
    · exact ih h

/-- A number 0 in the first try ends the loop if `p` is not zero. -/
theorem tryLoop_of_first_zero {left i : Nat} {p : EccPoint} (h : random i = some vliClear) (hp : isZero p = false) :
    tryLoop random make isZero (left + 1) i p = some (vliClear, p) := by
  have hclear : vliIsZero vliClear = true := (vliIsZero_iff _).mpr value_vliClear
  rw [tryLoop, h]
  simp only [hclear, if_true, hp, Bool.false_eq_true, if_false]

/-- The loop ends with the first number that is not 0 and makes no zero. -/
theorem tryLoop_eq {P : Vli → Prop} [DecidablePred P]
    (hP : ∀ v, P v ↔ v.value ≠ 0 ∧ isZero (make (reduceN v)) = false) {left i : Nat} {p : EccPoint}
    (h : random i = some vliClear → isZero p = true) :
    tryLoop random make isZero left i p = (firstOf random P left i).map fun v => (reduceN v, make (reduceN v)) := by
  induction left generalizing i p with
  | zero => rfl
  | succ left ih =>
    rw [tryLoop, firstOf]
    cases hv : random i with
    | none => rfl
    | some v =>
      by_cases h0 : v.value = 0
      · have hzero := h (by rw [hv, Limbs.value_inj (h0.trans value_vliClear.symm)])
        have hnP : ¬P v := fun hPv => ((hP v).mp hPv).1 h0
        simp only [(vliIsZero_iff v).mpr h0, if_true, hzero, Option.bind_some, if_neg hnP]
        exact ih fun _ => hzero
      · have hnz : vliIsZero v = false := Bool.eq_false_iff.mpr fun hz => h0 ((vliIsZero_iff v).mp hz)
        simp only [hnz, Bool.false_eq_true, if_false, Option.bind_some]
        by_cases hs : isZero (make (reduceN v)) = true
        · have hnP : ¬P v := fun hPv => absurd hs (Bool.eq_false_iff.mp ((hP v).mp hPv).2)
          rw [if_pos hs, if_neg hnP]
          exact ih fun _ => hs
        · rw [if_neg hs, if_pos ((hP v).mpr ⟨h0, Bool.eq_false_iff.mpr hs⟩)]
          rfl

end tryLoop

/-! ## Key pairs -/

/-- A random number that makes a key pair: neither 0 nor, modulo `curve_n`, the
number before it. -/
def Suitable (v : Vli) : Prop := v.value ≠ 0 ∧ v.value % curveN.value + 1 ≠ curveN.value

instance decidable_suitable (v : Vli) : Decidable (Suitable v) := inferInstanceAs (Decidable (_ ∧ _))

/-- The private number that comes of a random one, and its point. -/
def keysOf (v : Vli) : Vli × EccPoint := (reduceN v, eccPointMult curveG (reduceN v) none)

theorem suitable_iff (v : Vli) :
    Suitable v ↔ v.value ≠ 0 ∧ eccPointIsZero (eccPointMult curveG (reduceN v) none) = false := by
  have hmult := isZero_mult_curveG (reduceN_lt v)
  rw [value_reduceN] at hmult
  rw [Suitable, Bool.eq_false_iff, ne_eq (eccPointIsZero _), hmult]

theorem createKeyPair_eq {random : Nat → Option Vli} {l_public : EccPoint}
    (h : random 0 = some vliClear → eccPointIsZero l_public = true) : createKeyPair random l_public =
      (firstOf random Suitable maxTries 0).map fun v => (compress (keysOf v).2, eccNative2bytes (keysOf v).1) := by
  have hloop := @tryLoop_eq random (fun k => eccPointMult curveG k none) eccPointIsZero Suitable _ suitable_iff
    maxTries 0 l_public h
  rw [createKeyPair, hloop, Option.map_map]
  rfl

/-- What a suitable number makes. -/
theorem represents_keysOf {v : Vli} (h : Suitable v) :
    (keysOf v).2.Reduced ∧ (keysOf v).2.Represents (takenScalar (keysOf v).1 • basePoint) := by
  refine eccPointMult_of_not_fails onCurve_curveG ((multFails_curveG_iff (reduceN_lt v)).not.mpr ?_)
  rw [value_reduceN]
  exact h.2

theorem decompress_keysOf {v : Vli} (h : Suitable v) : eccPointDecompress (compress (keysOf v).2) = (keysOf v).2 := by
  obtain ⟨hreduced, hrep⟩ := represents_keysOf h
  exact decompress_compress (EccPoint.represents_iff.mp hrep).1 hreduced.y

theorem createKeyPair_of_first_zero {random : Nat → Option Vli} {l_public : EccPoint} (h : random 0 = some vliClear)
    (h' : eccPointIsZero l_public = false) :
    createKeyPair random l_public = some (compress l_public, eccNative2bytes vliClear) := by
  have hloop := @tryLoop_of_first_zero random (fun k => eccPointMult curveG k none) eccPointIsZero 15 0 l_public h h'
  rw [createKeyPair, maxTries, hloop]
  rfl

/-- `create_key_pair` makes the keys of the first suitable number, if there is
one among the first `MAX_TRIES` and no call fails before it. The private key is
that number modulo `curve_n`, so that it is 0 for `curve_n` itself, and the
public key that multiple of `curve_G` which `EccPoint_mult` takes. But the loop
reads its local variable before it is set if the first number is 0. -/
theorem createKeyPair_exact (random : Nat → Option Vli) (l_public : EccPoint) :
    (createKeyPair random l_public = if random 0 = some vliClear ∧ eccPointIsZero l_public = false then
      some (compress l_public, eccNative2bytes vliClear) else
      (firstOf random Suitable maxTries 0).map fun v => (compress (keysOf v).2, eccNative2bytes (keysOf v).1)) ∧
    ∀ v, Suitable v → (keysOf v).1.value = v.value % curveN.value ∧ ((keysOf v).1.value = 0 ↔ v = curveN) ∧
      (eccPointDecompress (compress (keysOf v).2)).Represents (takenScalar (keysOf v).1 • basePoint) := by
  refine ⟨?_, fun v hv => ⟨value_reduceN v, ?_, ?_⟩⟩
  · split
    · rename_i h
      exact createKeyPair_of_first_zero h.1 h.2
    · rename_i h
      exact createKeyPair_eq fun h0 => Bool.of_not_eq_false fun h' => h ⟨h0, h'⟩
  · have hlt := v.value_lt
    have hn := value_curveN
    have hne := hv.1
    rw [keysOf, value_reduceN]
    refine ⟨fun h0 => Limbs.value_inj ?_, fun h => by rw [h, Nat.mod_self]⟩
    rw [hn] at h0 ⊢
    omega
  · rw [decompress_keysOf hv]
    exact (represents_keysOf hv).2

theorem createKeyPair_const {v : Vli} (hv : Suitable v) (l_public : EccPoint) :
    createKeyPair (fun _ => some v) l_public = some (compress (keysOf v).2, eccNative2bytes (keysOf v).1) := by
  have h0 : v ≠ vliClear := fun h => hv.1 (h ▸ value_vliClear)
  rw [createKeyPair_eq fun h => absurd (Option.some.inj h) h0, maxTries, firstOf, Option.bind_some, if_pos hv]
  rfl

/-! ## Shared secrets -/

theorem EccPoint.eq_of_represents {p q : EccPoint} {P : curve.Point} (hp : p.Reduced) (hq : q.Reduced)
    (h : p.Represents P) (h' : q.Represents P) : p = q := by
  obtain ⟨hx, hy⟩ := Prod.mk.inj (h.coords_eq h')
  exact EccPoint.ext ((Vli.toFp_inj hp.x hq.x).mp hx) ((Vli.toFp_inj hp.y hq.y).mp hy)

/-- With a key that decompresses to a point of the curve, `make_shared_secret`
returns true exactly where the point has a multiple, and then the secret is the
`x` of that multiple. -/
theorem makeSharedSecret_exact {_public : Limbs 8 33} (hp : (eccPointDecompress _public).OnCurve) (_private : EccBytes)
    (l_random : Vli) :
    if MultFails (eccPointDecompress _public) (eccBytes2native _private) (some l_random) then
      makeSharedSecret _public _private (some l_random) = (some (eccNative2bytes vliClear), false)
    else ∃ q : EccPoint, q.Reduced ∧
      q.Represents (takenScalar (eccBytes2native _private) • (eccPointDecompress _public).point hp) ∧
      makeSharedSecret _public _private (some l_random) = (some (eccNative2bytes q.x), true) := by
  split
  · rename_i h
    rw [makeSharedSecret, eccPointMult_of_fails hp h]
    rfl
  · rename_i h
    obtain ⟨hreduced, hrep⟩ := eccPointMult_of_not_fails hp h
    refine ⟨_, hreduced, hrep, ?_⟩
    rw [makeSharedSecret, not_isZero_of_onCurve (EccPoint.represents_iff.mp hrep).1]
    rfl

theorem suitable_two : Suitable (vliOf 2) := by decide +kernel

theorem suitable_three : Suitable (vliOf 3) := by decide +kernel

/-- The `x` of the public keys of 2 and 3. -/
theorem x_keysOf_ne_zero : (keysOf (vliOf 2)).2.x.toFp ≠ 0 ∧ (keysOf (vliOf 3)).2.x.toFp ≠ 0 := by
  have hladder : ((CoZ.checkedLadder baseRung 2).any fun r => r.1.1 ≠ 0 ∧ r.2.1 ≠ 0) = true := by decide +kernel
  obtain ⟨r, hr, hne⟩ := (Option.any_eq_true _ _).mp hladder
  obtain ⟨hne2, hne3⟩ := of_decide_eq_true hne
  obtain ⟨z, -, h2, h3⟩ := CoZ.rungs_checkedLadder rungs_baseRung two_ne_zero hr
  rw [congrArg Prod.fst (h2.eq_applyZ (represents_keysOf suitable_two).2)] at hne2
  rw [congrArg Prod.fst (h3.eq_applyZ (represents_keysOf suitable_three).2)] at hne3
  exact ⟨left_ne_zero_of_mul hne2, left_ne_zero_of_mul hne3⟩

/-- The secret of the private key 3 with the public key of 2. -/
theorem makeSharedSecret_exact_sample : ∃ h : (eccPointDecompress (compress (keysOf (vliOf 2)).2)).OnCurve,
    ∃ q : EccPoint, q.Represents (3 • (eccPointDecompress (compress (keysOf (vliOf 2)).2)).point h) ∧
      makeSharedSecret (compress (keysOf (vliOf 2)).2) (eccNative2bytes (vliOf 3)) (some (vliOf 1)) =
        (some (eccNative2bytes q.x), true) := by
  have hdec := decompress_keysOf suitable_two
  have hon : (eccPointDecompress (compress (keysOf (vliOf 2)).2)).OnCurve := by
    rw [hdec]
    exact (EccPoint.represents_iff.mp (represents_keysOf suitable_two).2).1
  have hone : (vliOf 1).toFp ≠ 0 := by decide +kernel
  have hodd : 2 * ((vliOf 3).value / 2) + 1 ≠ curveN.value := by decide +kernel
  have hfails : ¬MultFails (eccPointDecompress (compress (keysOf (vliOf 2)).2))
      (eccBytes2native (eccNative2bytes (vliOf 3))) (some (vliOf 1)) := by
    rw [hdec, eccBytes2native_native2bytes]
    simp only [MultFails, Option.getD_some, not_or]
    exact ⟨hone, x_keysOf_ne_zero.1, hodd⟩
  have h := makeSharedSecret_exact hon (eccNative2bytes (vliOf 3)) (vliOf 1)
  rw [if_neg hfails, eccBytes2native_native2bytes] at h
  obtain ⟨q, -, hrep, hq⟩ := h
  exact ⟨hon, q, hrep, hq⟩

/-- The keys of a suitable number. -/
theorem exists_keysOf {random : Nat → Option Vli} {l_public : EccPoint} {_public : Limbs 8 33} {_private : EccBytes}
    (h0 : random 0 = some vliClear → eccPointIsZero l_public = true)
    (h : createKeyPair random l_public = some (_public, _private)) :
    ∃ v, Suitable v ∧ _public = compress (keysOf v).2 ∧ _private = eccNative2bytes (keysOf v).1 := by
  rw [createKeyPair_eq h0] at h
  obtain ⟨v, hv, heq⟩ := Option.map_eq_some_iff.mp h
  obtain ⟨hpublic, hprivate⟩ := Prod.mk.inj heq
  exact ⟨v, (exists_of_firstOf hv).1, hpublic.symm, hprivate.symm⟩

/-- The secret that the keys of `u` make with the public key of `v`. -/
theorem makeSharedSecret_keysOf {u v : Vli} (hu : Suitable u) (hv : Suitable v) (z : Vli) :
    ((makeSharedSecret (compress (keysOf v).2) (eccNative2bytes (keysOf u).1) (some z)).2 = true ↔
      z.toFp ≠ 0 ∧ (keysOf v).2.x.toFp ≠ 0) ∧
    ((makeSharedSecret (compress (keysOf v).2) (eccNative2bytes (keysOf u).1) (some z)).2 = true →
      ∃ q : EccPoint, q.Reduced ∧
        q.Represents (takenScalar (keysOf u).1 • takenScalar (keysOf v).1 • basePoint) ∧
        (makeSharedSecret (compress (keysOf v).2) (eccNative2bytes (keysOf u).1) (some z)).1 =
          some (eccNative2bytes q.x)) := by
  have hdec := decompress_keysOf hv
  obtain ⟨hon, hpoint⟩ := EccPoint.represents_iff.mp (hdec ▸ (represents_keysOf hv).2)
  have h := makeSharedSecret_exact hon (eccNative2bytes (keysOf u).1) z
  have hn := value_curveN
  have hmod := hu.2
  have hfails : ¬MultFails (eccPointDecompress (compress (keysOf v).2)) (keysOf u).1 (some z) ↔
      z.toFp ≠ 0 ∧ (keysOf v).2.x.toFp ≠ 0 := by
    have hscalar : 2 * ((keysOf u).1.value / 2) + 1 ≠ curveN.value := by
      have hlt := Nat.mod_lt u.value prime_curveN.pos
      rw [keysOf, value_reduceN]
      omega
    simp [MultFails, hdec, hscalar]
  rw [eccBytes2native_native2bytes, ← hpoint] at h
  rw [← hfails]
  split at h
  · rename_i hf
    rw [h]
    exact ⟨iff_of_false Bool.false_ne_true (not_not.mpr hf), fun h => absurd h Bool.false_ne_true⟩
  · rename_i hf
    obtain ⟨q, hreduced, hrep, h⟩ := h
    rw [h]
    exact ⟨iff_of_true rfl hf, fun _ => ⟨q, hreduced, hrep, rfl⟩⟩

/-- Of two key pairs that `create_key_pair` makes, each public key makes a
secret with the private key of the other one, from random numbers but 0 and
where the `x` of the public key is not 0; and the two secrets are equal. -/
theorem sharedSecret_agree {randomA randomB : Nat → Option Vli} {localA localB : EccPoint}
    {publicA publicB : Limbs 8 33} {privateA privateB : EccBytes}
    (hA : randomA 0 = some vliClear → eccPointIsZero localA = true)
    (hB : randomB 0 = some vliClear → eccPointIsZero localB = true)
    (ha : createKeyPair randomA localA = some (publicA, privateA))
    (hb : createKeyPair randomB localB = some (publicB, privateB)) (zA zB : Vli) :
    ((makeSharedSecret publicB privateA (some zA)).2 = true ↔
      zA.toFp ≠ 0 ∧ (eccPointDecompress publicB).x.toFp ≠ 0) ∧
    ((makeSharedSecret publicB privateA (some zA)).2 = true →
      (makeSharedSecret publicA privateB (some zB)).2 = true →
      (makeSharedSecret publicB privateA (some zA)).1 = (makeSharedSecret publicA privateB (some zB)).1) := by
  obtain ⟨u, hu, rfl, rfl⟩ := exists_keysOf hA ha
  obtain ⟨v, hv, rfl, rfl⟩ := exists_keysOf hB hb
  rw [decompress_keysOf hv]
  obtain ⟨hiff, hA⟩ := makeSharedSecret_keysOf hu hv zA
  refine ⟨hiff, fun htrueA htrueB => ?_⟩
  obtain ⟨q, hq, hqP, hsecretA⟩ := hA htrueA
  obtain ⟨q', hq', hqP', hsecretB⟩ := (makeSharedSecret_keysOf hv hu zB).2 htrueB
  rw [hsecretA, hsecretB, EccPoint.eq_of_represents hq hq' hqP (by rwa [smul_comm])]

theorem sharedSecret_agree_sample :
    let a := makeSharedSecret (compress (keysOf (vliOf 3)).2) (eccNative2bytes (keysOf (vliOf 2)).1) (some (vliOf 1))
    let b := makeSharedSecret (compress (keysOf (vliOf 2)).2) (eccNative2bytes (keysOf (vliOf 3)).1) (some (vliOf 1))
    a.2 = true ∧ b.2 = true ∧ a.1 = b.1 := by
  have htwo := createKeyPair_const suitable_two ⟨vliClear, vliClear⟩
  have hthree := createKeyPair_const suitable_three ⟨vliClear, vliClear⟩
  have hzero : eccPointIsZero ⟨vliClear, vliClear⟩ = true := by decide
  have hone : (vliOf 1).toFp ≠ 0 := by decide +kernel
  obtain ⟨hiffA, hagree⟩ :=
    sharedSecret_agree (fun _ => hzero) (fun _ => hzero) htwo hthree (vliOf 1) (vliOf 1)
  obtain ⟨hiffB, -⟩ := sharedSecret_agree (fun _ => hzero) (fun _ => hzero) hthree htwo (vliOf 1) (vliOf 1)
  rw [decompress_keysOf suitable_three] at hiffA
  rw [decompress_keysOf suitable_two] at hiffB
  have hA := hiffA.mpr ⟨hone, x_keysOf_ne_zero.2⟩
  have hB := hiffB.mpr ⟨hone, x_keysOf_ne_zero.1⟩
  exact ⟨hA, hB, hagree hA hB⟩

end Bryllite.Ecc
