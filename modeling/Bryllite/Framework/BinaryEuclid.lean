import Mathlib.Data.Int.GCD
import Mathlib.Data.Nat.ModEq
import Mathlib.Tactic.Ring

/-!
# Euclid's algorithm in binary

Two numbers are halved where they are even and subtracted where both are odd, and beside
each is a factor that makes it of `x`, modulo `m`. A step keeps that and the greatest
common divisor (`EuclidInv.step`), so the last number is the greatest common divisor and
its factor the inverse of `x` up to it (`EuclidInv.mul_modEq`).
-/

namespace Bryllite.Framework

/-- The two numbers, and the factors of `x` that make them. -/
structure Euclid where
  a : Nat
  b : Nat
  u : Nat
  v : Nat

/-- Half of a number, modulo `m`. -/
def halveMod (m u : Nat) : Nat := if u % 2 = 0 then u / 2 else (u + m) / 2

/-- A difference modulo `m`. -/
def subMod (m u v : Nat) : Nat := if u < v then u + m - v else u - v

/-- A step of the algorithm. -/
def Euclid.step (m : Nat) (s : Euclid) : Euclid :=
  if s.a % 2 = 0 then { s with a := s.a / 2, u := halveMod m s.u }
  else if s.b % 2 = 0 then { s with b := s.b / 2, v := halveMod m s.v }
  else if s.b < s.a then { s with a := (s.a - s.b) / 2, u := halveMod m (subMod m s.u s.v) }
  else { s with b := (s.b - s.a) / 2, v := halveMod m (subMod m s.v s.u) }

/-- What each step keeps. -/
structure EuclidInv (m x : Nat) (s : Euclid) : Prop where
  a_pos : 0 < s.a
  b_pos : 0 < s.b
  u_lt : s.u < m
  v_lt : s.v < m
  odd : s.a % 2 = 1 ∨ s.b % 2 = 1
  gcd_eq : s.a.gcd s.b = x.gcd m
  u_eq : s.u * x ≡ s.a [MOD m]
  v_eq : s.v * x ≡ s.b [MOD m]

variable {m x : Nat} {s : Euclid}

/-- What the numbers add up to gets smaller, whatever the factors are. -/
theorem Euclid.step_lt (ha : 0 < s.a) (hb : 0 < s.b) (hne : s.a ≠ s.b) :
    0 < (s.step m).a ∧ 0 < (s.step m).b ∧ (s.step m).a + (s.step m).b < s.a + s.b := by
  rw [Euclid.step]
  split
  · simp only
    omega
  · split
    · simp only
      omega
    · split <;> simp only <;> omega

theorem halveMod_lt {u : Nat} (hu : u < m) : halveMod m u < m := by
  rw [halveMod]
  split <;> omega

theorem subMod_lt {u v : Nat} (hu : u < m) (hv : v < m) : subMod m u v < m := by
  rw [subMod]
  split <;> omega

theorem two_mul_halveMod (hm : m % 2 = 1) (u : Nat) : 2 * halveMod m u ≡ u [MOD m] := by
  rw [halveMod]
  split
  · rw [show 2 * (u / 2) = u by omega]
  · rw [show 2 * ((u + m) / 2) = u + m by omega]
    exact Nat.add_modEq_right

/-- Half of the factor makes half of the number. -/
theorem halveMod_modEq {u n : Nat} (hm : m % 2 = 1) (h : u * x ≡ n [MOD m]) (hn : n % 2 = 0) :
    halveMod m u * x ≡ n / 2 [MOD m] := by
  have hcop : m.gcd 2 = 1 := by rw [Nat.gcd_comm, Nat.gcd_rec, hm, Nat.gcd_one_left]
  refine Nat.ModEq.cancel_left_of_coprime hcop ?_
  rw [← Nat.mul_assoc, show 2 * (n / 2) = n by omega]
  exact ((two_mul_halveMod hm u).mul_right x).trans h

theorem subMod_modEq {u v n k : Nat} (hu : u * x ≡ n [MOD m]) (hv : v * x ≡ k [MOD m]) (hvm : v < m) (hkn : k ≤ n) :
    subMod m u v * x ≡ n - k [MOD m] := by
  have hadd : subMod m u v + v ≡ u [MOD m] := by
    rw [subMod]
    split
    · rw [show u + m - v + v = u + m by omega]
      exact Nat.add_modEq_right
    · rw [show u - v + v = u by omega]
  refine Nat.ModEq.add_right_cancel hv ?_
  rw [← Nat.add_mul, Nat.sub_add_cancel hkn]
  exact (hadd.mul_right x).trans hu

theorem gcd_half {a b : Nat} (ha : a % 2 = 0) (hb : b % 2 = 1) : (a / 2).gcd b = a.gcd b := by
  have hcop : Nat.Coprime 2 b := by rw [Nat.Coprime, Nat.gcd_rec, hb, Nat.gcd_one_left]
  conv_rhs => rw [show a = 2 * (a / 2) by omega, hcop.gcd_mul_left_cancel]

/-- The step lemma. -/
theorem EuclidInv.step (hm : m % 2 = 1) (h : EuclidInv m x s) (hne : s.a ≠ s.b) : EuclidInv m x (s.step m) := by
  have hapos := h.a_pos
  have hbpos := h.b_pos
  have hodd := h.odd
  rw [Euclid.step]
  split
  · rename_i ha
    have hb : s.b % 2 = 1 := by omega
    exact ⟨show 0 < s.a / 2 by omega, hbpos, halveMod_lt h.u_lt, h.v_lt, Or.inr hb,
      (gcd_half ha hb).trans h.gcd_eq, halveMod_modEq hm h.u_eq ha, h.v_eq⟩
  · rename_i ha
    have ha : s.a % 2 = 1 := by omega
    split
    · rename_i hb
      refine ⟨hapos, show 0 < s.b / 2 by omega, h.u_lt, halveMod_lt h.v_lt, Or.inl ha, ?_, h.u_eq,
        halveMod_modEq hm h.v_eq hb⟩
      exact ((Nat.gcd_comm _ _).trans (gcd_half hb ha)).trans ((Nat.gcd_comm _ _).trans h.gcd_eq)
    · rename_i hb
      have hb : s.b % 2 = 1 := by omega
      -- Both are odd: the difference is even, and the greatest common divisor stays.
      split
      · rename_i hlt
        have heven : (s.a - s.b) % 2 = 0 := by omega
        refine ⟨show 0 < (s.a - s.b) / 2 by omega, hbpos, halveMod_lt (subMod_lt h.u_lt h.v_lt), h.v_lt,
          Or.inr hb, ?_, halveMod_modEq hm (subMod_modEq h.u_eq h.v_eq h.v_lt (Nat.le_of_lt hlt)) heven, h.v_eq⟩
        exact (gcd_half heven hb).trans ((Nat.gcd_sub_self_left (Nat.le_of_lt hlt)).trans h.gcd_eq)
      · rename_i hnlt
        have hle : s.a ≤ s.b := Nat.not_lt.mp hnlt
        have heven : (s.b - s.a) % 2 = 0 := by omega
        refine ⟨hapos, show 0 < (s.b - s.a) / 2 by omega, h.u_lt, halveMod_lt (subMod_lt h.v_lt h.u_lt),
          Or.inl ha, ?_, h.u_eq, halveMod_modEq hm (subMod_modEq h.v_eq h.u_eq h.u_lt hle) heven⟩
        refine (Nat.gcd_comm _ _).trans ((gcd_half heven ha).trans ?_)
        exact (Nat.gcd_sub_self_left hle).trans ((Nat.gcd_comm _ _).trans h.gcd_eq)

/-- It starts with `x`, made of itself once, and an odd modulus, made of it not at all. -/
theorem EuclidInv.init (hm : m % 2 = 1) (hm1 : 1 < m) (hx : 0 < x) : EuclidInv m x ⟨x, m, 1, 0⟩ where
  a_pos := hx
  b_pos := show 0 < m by omega
  u_lt := hm1
  v_lt := show 0 < m by omega
  odd := Or.inr hm
  gcd_eq := rfl
  u_eq := by rw [Nat.one_mul]
  v_eq := by
    rw [Nat.zero_mul]
    exact (Nat.modEq_zero_iff_dvd.mpr dvd_rfl).symm

/-- Where the numbers meet the factor is an inverse, up to the greatest common divisor. -/
theorem EuclidInv.mul_modEq (h : EuclidInv m x s) (heq : s.a = s.b) : s.u * x ≡ x.gcd m [MOD m] := by
  have hgcd := h.gcd_eq
  rw [← heq, Nat.gcd_self] at hgcd
  rw [← hgcd]
  exact h.u_eq

end Bryllite.Framework
