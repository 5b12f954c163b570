import Bryllite.Framework.ForDown
import Mathlib.NumberTheory.LucasPrimality

/-!
# Certificates of primes

A number is prime if the powers of some `a` tell so for the prime factors of the number
before it (`prime_of_factors`). A list of such numbers, each with its `a` and the factors,
which come later in the list, is checked by computation (`prime_of_certified`). The powers
are made by squaring along the bits of the exponent (`powMod_eq`).
-/

namespace Bryllite.Framework

section PowMod

variable (p a : Nat)

/-- One more bit of the exponent. -/
def powModStep (n i r : Nat) : Nat := if n.testBit i then a * (r * r) % p else r * r % p

def powMod (n : Nat) : Nat := forDown (powModStep p a n) 0 (n.log2 + 1) (1 % p)

variable {p a}

theorem powModStep_eq {n i m r : Nat} (h : r = a ^ m % p) :
    powModStep p a n i r = a ^ (2 * m + (n.testBit i).toNat) % p := by
  have hsq : r * r ≡ a ^ (2 * m) [MOD p] := by
    rw [two_mul, pow_add, h]
    exact Nat.ModEq.mul (Nat.mod_modEq _ _) (Nat.mod_modEq _ _)
  unfold powModStep
  split
  · rename_i hbit
    rw [hbit, Bool.toNat_true, pow_succ, mul_comm (a ^ _)]
    exact Nat.ModEq.mul_left a hsq
  · rename_i hbit
    rw [Bool.eq_false_iff.mpr hbit, Bool.toNat_false, add_zero]
    exact hsq

theorem powMod_eq (n : Nat) : powMod p a n = a ^ n % p := by
  have hstart : 1 % p = a ^ (n / 2 ^ (n.log2 + 1)) % p := by
    rw [Nat.div_eq_of_lt Nat.lt_log2_self, pow_zero]
  have h : powMod p a n = a ^ (n / 2 ^ 0) % p :=
    forDown_bits (fun m r => r = a ^ m % p) n (fun i r _ _ hr => powModStep_eq hr) (Nat.zero_le _) hstart
  rwa [pow_zero, Nat.div_one] at h

end PowMod

section Lucas

variable {p a : Nat} {fs : List (Nat × Nat)}

theorem natCast_pow_eq_one_iff (hp : 1 < p) (n : Nat) : (a : ZMod p) ^ n = 1 ↔ powMod p a n = 1 := by
  have h := ZMod.natCast_eq_natCast_iff' (a ^ n) 1 p
  rwa [Nat.cast_pow, Nat.cast_one, Nat.mod_eq_of_lt hp, ← powMod_eq] at h

/-- A prime factor of a product of powers is one of the bases, where these are prime. -/
theorem mem_of_dvd_prod {q : Nat} (hq : q.Prime) (hfs : ∀ f ∈ fs, f.1.Prime)
    (hdvd : q ∣ (fs.map fun f => f.1 ^ f.2).prod) : ∃ f ∈ fs, f.1 = q := by
  obtain ⟨_, hmem, hpow⟩ := (Prime.dvd_prod_iff hq.prime).mp hdvd
  obtain ⟨⟨b, e⟩, hb, rfl⟩ := List.mem_map.mp hmem
  have hbase : q ∣ b := hq.dvd_of_dvd_pow hpow
  exact ⟨(b, e), hb, ((Nat.prime_dvd_prime_iff_eq hq (hfs _ hb)).mp hbase).symm⟩

/-- Lucas's test, with the factors of `p - 1` and their exponents. -/
theorem prime_of_factors (hfs : ∀ f ∈ fs, f.1.Prime) (hprod : (fs.map fun f => f.1 ^ f.2).prod + 1 = p) (hp : 1 < p)
    (hone : powMod p a (p - 1) = 1) (hne : ∀ f ∈ fs, powMod p a ((p - 1) / f.1) ≠ 1) : p.Prime := by
  refine lucas_primality p a ((natCast_pow_eq_one_iff hp _).mpr hone) fun q hq hdvd hpow => ?_
  rw [← hprod, Nat.add_sub_cancel] at hdvd
  obtain ⟨f, hf, rfl⟩ := mem_of_dvd_prod hq hfs hdvd
  exact hne f hf ((natCast_pow_eq_one_iff hp _).mp hpow)

end Lucas

/-- A prime with a primitive root and the factors of its predecessor. -/
structure Certificate where
  prime : Nat
  root : Nat
  factors : List (Nat × Nat)

namespace Certificate

/-- The test of Lucas, with factors that are `2` or in a list. -/
def check (c : Certificate) (known : List Nat) : Bool :=
  c.factors.all (fun f => f.1 == 2 || known.contains f.1) && (c.factors.map fun f => f.1 ^ f.2).prod + 1 == c.prime &&
    decide (1 < c.prime) && powMod c.prime c.root (c.prime - 1) == 1 &&
    c.factors.all fun f => powMod c.prime c.root ((c.prime - 1) / f.1) != 1

theorem check_prime {c : Certificate} {known : List Nat} (hknown : ∀ q ∈ known, q.Prime) (h : c.check known = true) :
    c.prime.Prime := by
  simp only [check, Bool.and_eq_true, List.all_eq_true, Bool.or_eq_true, beq_iff_eq, List.contains_iff_mem,
    decide_eq_true_eq, bne_iff_ne] at h
  obtain ⟨⟨⟨⟨hfactors, hprod⟩, hlt⟩, hone⟩, hne⟩ := h
  refine prime_of_factors (fun f hf => ?_) hprod hlt hone hne
  obtain htwo | hmem := hfactors f hf
  · exact htwo ▸ Nat.prime_two
  · exact hknown _ hmem

end Certificate

/-- Each certificate rests on the ones after it. -/
def certified : List Certificate → Bool
  | [] => true
  | c :: cs => c.check (cs.map Certificate.prime) && certified cs

theorem prime_of_certified {cs : List Certificate} (h : certified cs = true) {q : Nat}
    (hq : q ∈ cs.map Certificate.prime) : q.Prime := by
  induction cs generalizing q with
  | nil => cases hq
  | cons c cs ih =>
    rw [certified, Bool.and_eq_true] at h
    rw [List.map_cons, List.mem_cons] at hq
    obtain rfl | hmem := hq
    · exact Certificate.check_prime (fun q hmem => ih h.2 hmem) h.1
    · exact ih h.2 hmem

end Bryllite.Framework
