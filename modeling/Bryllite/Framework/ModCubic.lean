import Bryllite.Framework.ForDown
import Mathlib.Data.Nat.Size
import Mathlib.Tactic.LinearCombination
import Mathlib.Tactic.Ring

/-!
# Cubics without a root

Residues modulo `X ^ 3 + a X + b`. At a root of the cubic they have values, which products
and powers keep (`eval_mul`, `eval_powX`). In a finite field a root is its own `q`-th power,
so that there is none where `X ^ q - X` has an inverse (`no_root_of_inverse`).
-/

namespace Bryllite.Framework

/-- `c0 + c1 X + c2 X ^ 2`. -/
structure ModCubic (F : Type) where
  c0 : F
  c1 : F
  c2 : F
deriving DecidableEq

namespace ModCubic

variable {F : Type} [CommRing F]

/-- The product, with `X ^ 3` as `-(a X + b)`. -/
def mul (a b : F) (s t : ModCubic F) : ModCubic F :=
  let e3 := s.c1 * t.c2 + s.c2 * t.c1
  let e4 := s.c2 * t.c2
  ⟨s.c0 * t.c0 - b * e3, s.c0 * t.c1 + s.c1 * t.c0 - a * e3 - b * e4,
    s.c0 * t.c2 + s.c1 * t.c1 + s.c2 * t.c0 - a * e4⟩

def one : ModCubic F := ⟨1, 0, 0⟩

def X : ModCubic F := ⟨0, 1, 0⟩

def sub (s t : ModCubic F) : ModCubic F := ⟨s.c0 - t.c0, s.c1 - t.c1, s.c2 - t.c2⟩

def powXStep (a b : F) (n i : Nat) (s : ModCubic F) : ModCubic F :=
  if n.testBit i then mul a b (mul a b s s) X else mul a b s s

/-- `X ^ n`, by squaring along the bits of `n`. -/
def powX (a b : F) (n : Nat) : ModCubic F := forDown (powXStep a b n) 0 n.size one

def eval (r : F) (s : ModCubic F) : F := s.c0 + s.c1 * r + s.c2 * r ^ 2

variable {a b r : F} (hr : r ^ 3 + a * r + b = 0)
include hr

theorem eval_mul (s t : ModCubic F) : (mul a b s t).eval r = s.eval r * t.eval r := by
  simp only [eval, mul]
  linear_combination -(s.c1 * t.c2 + s.c2 * t.c1 + s.c2 * t.c2 * r) * hr

theorem eval_powX (n : Nat) : (powX a b n).eval r = r ^ n := by
  have hstep : ∀ i (s : ModCubic F), 0 ≤ i → i < n.size → s.eval r = r ^ (n / 2 ^ (i + 1)) →
      (powXStep a b n i s).eval r = r ^ (2 * (n / 2 ^ (i + 1)) + (n.testBit i).toNat) := by
    intro i s _ _ hs
    have hsq : (mul a b s s).eval r = r ^ (2 * (n / 2 ^ (i + 1))) := by
      rw [eval_mul hr, hs, ← sq, ← pow_mul, mul_comm]
    unfold powXStep
    cases n.testBit i
    · exact hsq
    · rw [if_pos rfl, eval_mul hr, hsq, Bool.toNat_true, pow_succ r]
      simp only [eval, X, zero_add, one_mul, zero_mul, add_zero]
  have hinit : (one : ModCubic F).eval r = r ^ (n / 2 ^ n.size) := by
    rw [Nat.div_eq_of_lt n.lt_size_self]
    simp [eval, one]
  have h := forDown_bits (fun m (s : ModCubic F) => s.eval r = r ^ m) n hstep (Nat.zero_le _) hinit
  rwa [pow_zero, Nat.div_one] at h

omit hr in
/-- The inverse `u` has no value at a root. -/
theorem no_root_of_inverse [Nontrivial F] {q : Nat} (hq : ∀ r : F, r ^ q = r) (u : ModCubic F)
    (hu : mul a b u (sub (powX a b q) X) = one) (r : F) : r ^ 3 + a * r + b ≠ 0 := by
  intro hr
  have hzero : (sub (powX a b q) X).eval r = 0 := by
    have hpow := eval_powX hr q
    rw [hq, eval] at hpow
    simp only [eval, sub, X]
    linear_combination hpow
  have hone := eval_mul hr u (sub (powX a b q) X)
  rw [hu, hzero, mul_zero] at hone
  simp [eval, one] at hone

end ModCubic

end Bryllite.Framework
