import Mathlib.Data.Fintype.Card
import Mathlib.Data.List.Nodup

/-!
# Who sent what

A log has messages with their senders. A receiver that keeps the messages
alone counts a message as often as it was sent; that is the number of its
senders exactly if none of them sent it twice (`count_eq_card_iff`).
-/

namespace Bryllite.Framework

variable {ι M : Type*} [DecidableEq ι] [DecidableEq M]

/-- Those that sent `m`. -/
def senders (log : List (ι × M)) (m : M) : Finset ι :=
  ((log.filter fun e => e.2 = m).map Prod.fst).toFinset

variable {log log' : List (ι × M)} {m : M} {i : ι}

@[simp] theorem mem_senders : i ∈ senders log m ↔ (i, m) ∈ log := by
  simp [senders]

theorem senders_append_of_ne {es : List (ι × M)} (h : ∀ e ∈ es, e.2 ≠ m) :
    senders (log ++ es) m = senders log m := by
  ext i
  simp only [mem_senders, List.mem_append, or_iff_left_iff_imp]
  exact fun hi => absurd rfl (h _ hi)

theorem senders_mono (h : log ⊆ log') : senders log m ⊆ senders log' m := fun _ hi =>
  mem_senders.mpr (h (mem_senders.mp hi))

/-- No one sent `m` twice. -/
def Once (log : List (ι × M)) (m : M) : Prop := ∀ i, log.count (i, m) ≤ 1

theorem Once.sublist (h : Once log m) (hs : log'.Sublist log) : Once log' m := fun i =>
  (hs.count_le _).trans (h i)

/-- A message from one who has not sent it. -/
theorem Once.append (h : Once log m) {e : ι × M} (he : e.2 = m → e ∉ log) : Once (log ++ [e]) m := by
  intro i
  rw [List.count_append, List.count_singleton]
  by_cases hi : e = (i, m)
  · subst hi
    rw [List.count_eq_zero.mpr (he rfl), if_pos (beq_self_eq_true _)]
  · rw [if_neg (by simpa using hi)]
    exact h i

theorem Once.appendOther (h : Once log m) {es : List (ι × M)} (he : ∀ e ∈ es, e.2 ≠ m) :
    Once (log ++ es) m := fun i => by
  rw [List.count_append, List.count_eq_zero.mpr fun hi => he _ hi rfl]
  exact h i

theorem count_filter_fst (log : List (ι × M)) (m : M) (i : ι) :
    ((log.filter fun e => e.2 = m).map Prod.fst).count i = log.count (i, m) := by
  rw [List.count, List.countP_map, List.countP_filter]
  refine List.countP_congr fun e _ => ?_
  simp only [Function.comp_apply, Bool.and_eq_true, beq_iff_eq, decide_eq_true_eq]
  exact Prod.mk_inj.symm

omit [DecidableEq ι] in
theorem length_filter_snd (log : List (ι × M)) (m : M) :
    ((log.filter fun e => e.2 = m).map Prod.fst).length = (log.map Prod.snd).count m := by
  rw [List.length_map, ← List.countP_eq_length_filter, List.count, List.countP_map]
  exact List.countP_congr fun e _ => by simp

theorem count_eq_card_iff : (log.map Prod.snd).count m = (senders log m).card ↔ Once log m := by
  have h : (senders log m).card = (log.map Prod.snd).count m ↔
      ((log.filter fun e => e.2 = m).map Prod.fst).Nodup := by
    rw [← length_filter_snd]
    exact Multiset.toFinset_card_eq_card_iff_nodup (m := ((log.filter fun e => e.2 = m).map Prod.fst : Multiset ι))
  rw [eq_comm, h, List.nodup_iff_count_le_one]
  simp only [count_filter_fst, Once]

omit [DecidableEq ι] in
/-- What a receiver that keeps of the messages of one kind what they carry (`get`) counts. -/
theorem count_filterMap_get {α : Type*} [DecidableEq α] {get : M → Option α} {make : α → M}
    (h : ∀ m a, get m = some a ↔ m = make a) (log : List (ι × M)) (a : α) :
    (log.filterMap fun e => get e.2).count a = (log.map Prod.snd).count (make a) := by
  rw [List.count_filterMap, List.count, List.countP_map]
  refine List.countP_congr fun e _ => ?_
  simp only [Function.comp_apply, beq_iff_eq, h]

/-- Two majorities cannot be apart. -/
theorem card_add_card_le [Fintype ι] {s t : Finset ι} (h : Disjoint s t) : s.card + t.card ≤ Fintype.card ι := by
  rw [← Finset.card_union_of_disjoint h]
  exact Finset.card_le_univ _

end Bryllite.Framework
