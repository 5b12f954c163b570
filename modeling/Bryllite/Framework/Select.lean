import Bryllite.Framework.Count
import Mathlib.Order.Defs.Unbundled

/-!
# Values selected from a list

Values of a list are compared by an equivalence `==`, and by a strict weak order `lt` whose
incomparable values are those that are `==` (`Compares`).

More than half of a list are equal to one value at most (`beq_of_lt_count`). The running
least value of a list is below no other of it (`least_le`), and two values that are below no
value of the same list are equal (`Compares.beq_of_least`), so both do not depend on the
order of the list.
-/

namespace Bryllite.Framework

variable {α : Type}

/-! ## Values that many are equal to -/

section Count

variable [BEq α] {a b : α} {c : Nat}

/-- What occurs is there, up to `==`. -/
theorem exists_mem_of_lt_count {l : List α} (h : c < l.count a) : ∃ x ∈ l, x == a :=
  List.countP_pos_iff.mp (Nat.zero_lt_of_lt h)

/-- A value that is not in the beginning of a list is first behind it. -/
theorem idxOf_append_right {pre : List α} (h : ∀ x ∈ pre, ¬x == a) (l : List α) :
    (pre ++ l).idxOf a = pre.length + l.idxOf a := by
  have hpre : pre.findIdx (· == a) = pre.length := List.findIdx_eq_length_of_false fun x hx => by simpa using h x hx
  show (pre ++ l).findIdx (· == a) = _
  rw [List.findIdx_append, hpre, if_neg (Nat.lt_irrefl _), Nat.add_comm]
  rfl

variable [EquivBEq α]

/-- Equal values occur as often. -/
theorem count_congr (h : a == b) (l : List α) : l.count a = l.count b := by
  refine List.countP_congr fun x _ => ?_
  exact ⟨fun hx => BEq.trans hx h, fun hx => BEq.trans hx (BEq.symm h)⟩

/-- Two values that occur more often than in half of the list are equal. -/
theorem beq_of_lt_count {l : List α} (hl : l.length ≤ 2 * c + 1) (ha : c < l.count a) (hb : c < l.count b) : a == b := by
  by_contra hne
  have hex : ∀ x, (x == a) = true → (x == b) = false := fun x hx => by
    apply Bool.eq_false_iff.mpr
    exact fun hxb => hne (BEq.trans (BEq.symm hx) hxb)
  have hle := countP_add_le hex l
  simp only [List.count] at ha hb
  omega

end Count

/-! ## The running least -/

/-- The first of the lowest of `low` and the values that follow it. -/
def least (lt : α → α → Bool) (low : α) (l : List α) : α := l.foldl (fun low v => if lt v low then v else low) low

variable {lt : α → α → Bool} {low a b : α}

theorem least_cons (v : α) (l : List α) : least lt low (v :: l) = least lt (if lt v low then v else low) l := rfl

theorem least_mem (lt : α → α → Bool) (low : α) (l : List α) : least lt low l ∈ low :: l := by
  induction l generalizing low with
  | nil => exact List.mem_singleton_self low
  | cons v l ih =>
    rw [least_cons]
    by_cases hv : lt v low
    · rw [if_pos hv]
      exact List.mem_cons_of_mem _ (ih v)
    · rw [if_neg hv]
      have hm := ih low
      simp only [List.mem_cons] at hm ⊢
      exact hm.imp_right .inr

/-- `==` and `lt` go together: `lt` is a strict weak order, and incomparable is `==`. -/
structure Compares [BEq α] (lt : α → α → Bool) : Prop where
  order : IsStrictWeakOrder α fun a b => lt a b = true
  incomparable (a b : α) : (¬lt a b ∧ ¬lt b a) ↔ a == b

namespace Compares

variable [BEq α] {c : α}

theorem irrefl (h : Compares lt) (a : α) : ¬lt a a := h.order.irrefl a

theorem trans (h : Compares lt) (hab : lt a b) (hbc : lt b c) : lt a c := h.order.trans a b c hab hbc

/-- What is not below is not below either. -/
theorem not_lt_trans (h : Compares lt) (hab : ¬lt a b) (hbc : ¬lt b c) : ¬lt a c := by
  intro hac
  have hba : ¬lt b a := fun hba => hbc (h.trans hba hac)
  have hcb : ¬lt c b := fun hcb => hab (h.trans hac hcb)
  exact (h.order.incomp_trans a b c ⟨hab, hba⟩ ⟨hbc, hcb⟩).1 hac

/-- No value is below the running least. -/
theorem least_le (h : Compares lt) (low : α) (l : List α) : ∀ u ∈ low :: l, ¬lt u (least lt low l) := by
  induction l generalizing low with
  | nil =>
    intro u hu
    rw [List.mem_singleton.mp hu]
    exact h.irrefl low
  | cons v l ih =>
    rw [least_cons]
    by_cases hv : lt v low
    · rw [if_pos hv]
      intro u hu
      rcases List.mem_cons.mp hu with rfl | hu
      · exact h.not_lt_trans (fun huv => h.irrefl u (h.trans huv hv)) (ih v v List.mem_cons_self)
      · exact ih v u hu
    · rw [if_neg hv]
      intro u hu
      rcases List.mem_cons.mp hu with rfl | hu
      · exact ih u u List.mem_cons_self
      rcases List.mem_cons.mp hu with rfl | hu
      · exact h.not_lt_trans hv (ih low low List.mem_cons_self)
      · exact ih low u (List.mem_cons_of_mem _ hu)

/-- Two lowest values of a list are equal. -/
theorem beq_of_least (h : Compares lt) {l : List α} (ha : a ∈ l) (hb : b ∈ l) (hla : ∀ u ∈ l, ¬lt u a)
    (hlb : ∀ u ∈ l, ¬lt u b) : a == b :=
  (h.incomparable a b).mp ⟨hlb a ha, hla b hb⟩

end Compares

end Bryllite.Framework
