import Bryllite.Framework.CoZ
import Bryllite.Framework.ForDown

/-!
# Ladders of points that share a denominator

A rung holds two neighbours among the multiples of a point. One bit takes a rung to that
of the double, or the one after it (`Rungs.step`), where none of three multiples is the
neutral point. The last one gives the denominator back from the coordinates of the point
itself (`Rungs.finish`). A ladder that compares the coordinates it divides by proves what
it computes (`rungs_checked`), and with that the order of a point (`smul_eq_zero_of_checked`).
-/

namespace Bryllite.Framework.CoZ

open WeierstrassCurve WeierstrassCurve.Affine

section Steps

variable {F : Type}

/-- The difference of the two points, and the sum. -/
def conjStep [CommRing F] (bit : Bool) (r : (F × F) × (F × F)) : (F × F) × (F × F) :=
  if bit then addConj r.2 r.1 else addConj r.1 r.2

/-- The double is the sum with the difference. -/
def nextRung [CommRing F] (bit : Bool) (s : (F × F) × (F × F)) : (F × F) × (F × F) :=
  if bit then add s.2 s.1 else (add s.2 s.1).swap

def ladderStep [CommRing F] (bit : Bool) (r : (F × F) × (F × F)) : (F × F) × (F × F) :=
  nextRung bit (conjStep bit r)

/-- What undoes the denominator of the next rung, from the point `p` of the ladder. -/
def ladderInv [Field F] (bit : Bool) (p : F × F) (s : (F × F) × (F × F)) : F :=
  ((if bit then s.1.1 - s.2.1 else s.2.1 - s.1.1) * s.1.2 * p.1)⁻¹ * p.2 * s.1.1

/-- A step that ends where it would divide by zero. -/
def checkedStep [CommRing F] [DecidableEq F] (bit : Bool) (r : (F × F) × (F × F)) : Option ((F × F) × (F × F)) :=
  if r.1.1 = r.2.1 ∨ (conjStep bit r).1.1 = (conjStep bit r).2.1 then none else some (ladderStep bit r)

end Steps

variable {F : Type} [Field F] [DecidableEq F] {W : Affine F} {z : F} {P : W.Point} {m : Nat}
  {r s : (F × F) × (F × F)}

/-- The multiples `m` and `m + 1` of a point. -/
def Rungs (W : Affine F) (P : W.Point) (m : Nat) (r : (F × F) × (F × F)) : Prop :=
  ∃ z, z ≠ 0 ∧ Scaled W z r.1 (m • P) ∧ Scaled W z r.2 ((m + 1) • P)

/-- What a bit leaves between its two additions. -/
def Between (W : Affine F) (P : W.Point) (m : Nat) (bit : Bool) (z : F) (s : (F × F) × (F × F)) : Prop :=
  z ≠ 0 ∧ Scaled W z s.1 (if bit then P else -P) ∧ Scaled W z s.2 ((2 * m + 1) • P)

/-- None of the points that a bit after `m` adds is the neutral one. -/
structure Clear (P : W.Point) (m : Nat) : Prop where
  even : (2 * m) • P ≠ 0
  odd : (2 * m + 1) • P ≠ 0
  next : (2 * m + 2) • P ≠ 0

theorem Clear.ne_zero (h : Clear P m) : P ≠ 0 := right_ne_zero_of_smul h.even

/-- For a point of odd order, below twice the order. -/
theorem clear_of_addOrderOf {n : Nat} (hP : addOrderOf P = n) (hodd : n % 2 = 1) (hm : m ≠ 0) (hlt : 2 * m + 2 < 2 * n)
    (hne : 2 * m + 1 ≠ n) : Clear P m := by
  have hsmul : ∀ a, a ≠ 0 → a < 2 * n → a ≠ n → a • P ≠ 0 := by
    intro a ha halt han hzero
    obtain ⟨q, rfl⟩ := hP ▸ addOrderOf_dvd_of_nsmul_eq_zero hzero
    obtain rfl | rfl | hq : q = 0 ∨ q = 1 ∨ 2 ≤ q := by omega
    · exact ha (Nat.mul_zero n)
    · exact han (Nat.mul_one n)
    · exact absurd halt (not_lt.mpr (by rw [Nat.mul_comm]; exact Nat.mul_le_mul_left n hq))
  exact ⟨hsmul _ (by omega) (by omega) (by omega), hsmul _ (by omega) (by omega) hne,
    hsmul _ (by omega) (by omega) (by omega)⟩

theorem Rungs.ne (h : Rungs W P m r) (hP : P ≠ 0) (hodd : (2 * m + 1) • P ≠ 0) : r.1.1 ≠ r.2.1 := by
  obtain ⟨z, hz, h0, h1⟩ := h
  rw [ne_eq, h0.x_eq_iff h1 hz, succ_nsmul, left_eq_add, eq_neg_iff_add_eq_zero, ← add_assoc, ← add_nsmul, ← two_mul,
    ← succ_nsmul]
  exact not_or.mpr ⟨hP, hodd⟩

theorem Between.ne {bit : Bool} (h : Between W P m bit z s) (hclear : Clear P m) : s.1.1 ≠ s.2.1 := by
  obtain ⟨hz, h0, h1⟩ := h
  have hsucc : (2 * m + 2) • P = (2 * m + 1) • P + P := succ_nsmul P _
  have hself : (2 * m + 1) • P ≠ P := fun h => hclear.even (by rwa [succ_nsmul, add_eq_right] at h)
  have hneg : (2 * m + 1) • P ≠ -P := fun h => hclear.next (by rw [hsucc, h, neg_add_cancel])
  rw [ne_comm, ne_eq, h1.x_eq_iff h0 hz]
  cases bit
  · rw [if_neg Bool.false_ne_true, neg_neg]
    exact not_or.mpr ⟨hneg, hself⟩
  · rw [if_pos rfl]
    exact not_or.mpr ⟨hself, hneg⟩

variable [W.IsShortNF]

theorem Rungs.conjStep (h : Rungs W P m r) (bit : Bool) (hne : r.1.1 ≠ r.2.1) :
    ∃ z, Between W P m bit z (conjStep bit r) := by
  obtain ⟨z, hz, h0, h1⟩ := h
  have hsum : m • P + (m + 1) • P = (2 * m + 1) • P := by
    rw [← add_nsmul]
    congr 1
    omega
  cases bit
  · obtain ⟨hdiff, hadd⟩ := h0.addConj h1 hne
    rw [succ_nsmul, sub_add_cancel_left] at hdiff
    rw [hsum] at hadd
    exact ⟨_, mul_ne_zero hz (sub_ne_zero.mpr hne.symm), hdiff, hadd⟩
  · obtain ⟨hdiff, hadd⟩ := h1.addConj h0 hne.symm
    rw [succ_nsmul, add_sub_cancel_left] at hdiff
    rw [add_comm, hsum] at hadd
    exact ⟨_, mul_ne_zero hz (sub_ne_zero.mpr hne), hdiff, hadd⟩

/-- The two points of the next rung, and their denominator. -/
theorem Between.nextRung {bit : Bool} (h : Between W P m bit z s) (hne : s.1.1 ≠ s.2.1) :
    z * (s.1.1 - s.2.1) ≠ 0 ∧ Scaled W (z * (s.1.1 - s.2.1)) (nextRung bit s).1 ((2 * m + bit.toNat) • P) ∧
      Scaled W (z * (s.1.1 - s.2.1)) (nextRung bit s).2 ((2 * m + bit.toNat + 1) • P) := by
  obtain ⟨hz, h0, h1⟩ := h
  obtain ⟨hsame, hadd⟩ := h1.add h0 hne.symm
  refine ⟨mul_ne_zero hz (sub_ne_zero.mpr hne), ?_⟩
  cases bit
  · rw [if_neg Bool.false_ne_true, succ_nsmul, add_neg_cancel_right] at hadd
    exact ⟨hadd, hsame⟩
  · rw [if_pos rfl, ← succ_nsmul] at hadd
    exact ⟨hsame, hadd⟩

theorem Rungs.step (h : Rungs W P m r) (bit : Bool) (hclear : Clear P m) :
    Rungs W P (2 * m + bit.toNat) (ladderStep bit r) := by
  obtain ⟨z, hbetween⟩ := h.conjStep bit (h.ne hclear.ne_zero hclear.odd)
  exact ⟨_, hbetween.nextRung (hbetween.ne hclear)⟩

/-- The point that the ladder climbs, or its opposite, is among what it adds last. -/
theorem Between.ladderInv {bit : Bool} (h : Between W P m bit z s) (hne : s.1.1 ≠ s.2.1) {p : F × F}
    (hp : Scaled W 1 p P) (hx : p.1 ≠ 0) (hy : p.2 ≠ 0) : z * (s.1.1 - s.2.1) * ladderInv bit p s = 1 := by
  obtain ⟨hz, h0, -⟩ := h
  have hsub : s.1.1 - s.2.1 ≠ 0 := sub_ne_zero.mpr hne
  cases bit
  · have hneg := h0.neg
    rw [if_neg Bool.false_ne_true, neg_neg] at hneg
    obtain ⟨hfst, hsnd⟩ := Prod.mk.inj (hneg.eq_applyZ hp)
    rw [CoZ.ladderInv, if_neg Bool.false_ne_true, ← neg_sub s.1.1, neg_eq_iff_eq_neg.mp hsnd]
    generalize s.1.1 - s.2.1 = d at hsub ⊢
    rw [hfst]
    field_simp
  · obtain ⟨hfst, hsnd⟩ := Prod.mk.inj ((Prod.mk.eta).symm.trans (h0.eq_applyZ hp))
    rw [CoZ.ladderInv, if_pos rfl, hsnd]
    generalize s.1.1 - s.2.1 = d at hsub ⊢
    rw [hfst]
    field_simp

/-- The last rung, without its denominator. -/
theorem Rungs.finish (h : Rungs W P m r) (bit : Bool) (hclear : Clear P m) {p : F × F} (hp : Scaled W 1 p P)
    (hx : p.1 ≠ 0) :
    Scaled W 1 (applyZ (ladderInv bit p (CoZ.conjStep bit r)) (ladderStep bit r).1) ((2 * m + bit.toNat) • P) := by
  obtain ⟨z, hbetween⟩ := h.conjStep bit (h.ne hclear.ne_zero hclear.odd)
  have hne := hbetween.ne hclear
  have hy : p.2 ≠ 0 := by
    intro hy
    exact hclear.even (by rw [mul_nsmul, two_nsmul, hp.add_self_of_y_eq_zero one_ne_zero hy, nsmul_zero])
  have hfst := (hbetween.nextRung hne).2.1.applyZ (ladderInv bit p (CoZ.conjStep bit r))
  rwa [hbetween.ladderInv hne hp hx hy] at hfst

/-- Where the rung holds two opposites there is no denominator to give back. -/
theorem Rungs.ladderInv_eq_zero (h : Rungs W P m r) (bit : Bool) (hodd : (2 * m + 1) • P = 0) (p : F × F) :
    ladderInv bit p (CoZ.conjStep bit r) = 0 := by
  obtain ⟨z, -, h0, h1⟩ := h
  have hopposite : (m + 1) • P = -(m • P) := by
    rw [eq_neg_iff_add_eq_zero, ← add_nsmul, ← hodd]
    congr 1
    omega
  have hr := h1.coords_eq (hopposite ▸ h0.neg)
  have hy : (CoZ.conjStep bit r).1.2 = 0 := by
    cases bit <;> simp [CoZ.conjStep, CoZ.addConj, hr]
  rw [ladderInv, hy, mul_zero, zero_mul, inv_zero, zero_mul, zero_mul]

/-- What the comparisons of the coordinates say. -/
theorem Rungs.checkedStep {r' : (F × F) × (F × F)} (h : Rungs W P m r) (bit : Bool)
    (hr : checkedStep bit r = some r') : Rungs W P (2 * m + bit.toNat) r' := by
  unfold CoZ.checkedStep at hr
  split at hr
  · cases hr
  · rename_i hne
    obtain ⟨hne, hne'⟩ := not_or.mp hne
    cases hr
    obtain ⟨z, hbetween⟩ := h.conjStep bit hne
    exact ⟨_, hbetween.nextRung hne'⟩

/-- A ladder of checked steps from the top bit of `m`. -/
def checkedLadder (r : (F × F) × (F × F)) (m : Nat) : Option ((F × F) × (F × F)) :=
  forDown (fun i o => o.bind (checkedStep (m.testBit i))) 0 m.log2 (some r)

theorem rungs_checkedLadder {r' : (F × F) × (F × F)} (h : Rungs W P 1 r) (hm : m ≠ 0)
    (hr : checkedLadder r m = some r') : Rungs W P m r' := by
  have htop : m / 2 ^ m.log2 = 1 := div_two_pow_eq_one (Nat.log2_self_le hm) Nat.lt_log2_self
  have hstep : ∀ i (o : Option ((F × F) × (F × F))), 0 ≤ i → i < m.log2 →
      (∀ r', o = some r' → Rungs W P (m / 2 ^ (i + 1)) r') → ∀ r', o.bind (CoZ.checkedStep (m.testBit i)) = some r' →
        Rungs W P (2 * (m / 2 ^ (i + 1)) + (m.testBit i).toNat) r' := by
    intro i o _ _ ho r' hr'
    obtain ⟨r, rfl, hstep⟩ := Option.bind_eq_some_iff.mp hr'
    exact (ho r rfl).checkedStep _ hstep
  have hloop := forDown_bits (fun k o => ∀ r', o = some r' → Rungs W P k r') m hstep (Nat.zero_le _)
    (s := some r) (by rintro r' ⟨⟩; rwa [htop])
  rw [pow_zero, Nat.div_one] at hloop
  exact hloop r' hr

/-- Neighbours with one `x` are opposites. -/
theorem smul_eq_zero_of_checked {r' : (F × F) × (F × F)} (h : Rungs W P 1 r) (hm : m ≠ 0)
    (hr : checkedLadder r m = some r') (heq : r'.1.1 = r'.2.1) (hP : P ≠ 0) : (2 * m + 1) • P = 0 := by
  by_contra hodd
  exact (rungs_checkedLadder h hm hr).ne hP hodd heq

end Bryllite.Framework.CoZ
