import Bryllite.Framework.Select
import Mathlib.Data.List.Count

/-!
# Lists of what was received (bcp_mono)

`_vector.cpp`: values in the order they were added. A value counts as often as
it was added, whoever sent it. What is selected from a list is, up to `==`, the same
for every order of it, if it is the lowest value, or one that more than half are
(`vector_select`).
-/

namespace Bryllite.BcpMono

open Bryllite.Framework

variable {α : Type}

/-- `low_value`: the first of the lowest values; `none` if there is none. -/
def lowValue (lt : α → α → Bool) : List α → Option α
  | [] => none
  | v :: data => some (data.foldl (fun low v => if lt v low then v else low) v)

theorem lowValue_mem {lt : α → α → Bool} {data : List α} {v : α} (h : lowValue lt data = some v) : v ∈ data := by
  cases data with
  | nil => cases h
  | cons a data => exact Option.some.inj h ▸ least_mem lt a data

/-- `get_value_if_count_exceeds`: the first value that was added more than `cnt` times. -/
def getValueIfCountExceeds [BEq α] (data : List α) (cnt : Nat) : Option α :=
  data.find? fun v => cnt < data.count v

theorem getValueIfCountExceeds_count [BEq α] {data : List α} {cnt : Nat} {v : α}
    (h : getValueIfCountExceeds data cnt = some v) : v ∈ data ∧ cnt < data.count v := by
  refine ⟨List.mem_of_find?_eq_some h, ?_⟩
  simpa using List.find?_some h

theorem getValueIfCountExceeds_eq_some_iff [BEq α] {data : List α} {cnt : Nat} {v : α} :
    getValueIfCountExceeds data cnt = some v ↔ cnt < data.count v ∧
      ∃ pre post, data = pre ++ v :: post ∧ ∀ u ∈ pre, ¬cnt < data.count u := by
  unfold getValueIfCountExceeds
  simp [List.find?_eq_some_iff_append]

section Equiv

variable [BEq α] [EquivBEq α] {data data' : List α} {cnt : Nat} {v : α}

theorem getValueIfCountExceeds_eq_none_iff :
    getValueIfCountExceeds data cnt = none ↔ ∀ u, ¬cnt < data.count u := by
  rw [getValueIfCountExceeds, List.find?_eq_none]
  simp only [decide_eq_true_eq]
  refine ⟨fun h u hu => ?_, fun h u _ => h u⟩
  obtain ⟨x, hx, hxu⟩ := exists_mem_of_lt_count hu
  exact h x hx (count_congr hxu data ▸ hu)

/-- The value that is returned comes first of those that exceed. -/
theorem getValueIfCountExceeds_first (h : getValueIfCountExceeds data cnt = some v) :
    data[data.idxOf v]? = some v ∧ ∀ u, cnt < data.count u → data.idxOf v ≤ data.idxOf u := by
  obtain ⟨hv, pre, post, hdata, hpre⟩ := getValueIfCountExceeds_eq_some_iff.mp h
  -- Nothing before it is equal to a value that exceeds.
  have hne : ∀ u, cnt < data.count u → ∀ x ∈ pre, ¬x == u := fun u hu x hx he =>
    hpre x hx (count_congr he data ▸ hu)
  have hidx : ∀ u, cnt < data.count u → data.idxOf u = pre.length + (v :: post).idxOf u := fun u hu => by
    rw [hdata]
    exact idxOf_append_right (hne u hu) _
  have hself : data.idxOf v = pre.length := by
    rw [hidx v hv, List.idxOf_cons_self, Nat.add_zero]
  refine ⟨?_, fun u hu => ?_⟩
  · rw [hself, hdata, List.getElem?_append_right (Nat.le_refl _)]
    simp
  · rw [hself, hidx u hu]
    exact Nat.le_add_right _ _

/-- Only one value exceeds half of the list. -/
theorem getValueIfCountExceeds_unique (hl : data.length ≤ 2 * cnt + 1)
    (h : getValueIfCountExceeds data cnt = some v) {u : α} (hu : cnt < data.count u) : u == v :=
  beq_of_lt_count hl hu (getValueIfCountExceeds_count h).2

theorem getValueIfCountExceeds_perm (hl : data.length ≤ 2 * cnt + 1) (hp : data'.Perm data) :
    Option.Rel (· == ·) (getValueIfCountExceeds data' cnt) (getValueIfCountExceeds data cnt) := by
  cases hv : getValueIfCountExceeds data cnt with
  | none =>
    have hnone := getValueIfCountExceeds_eq_none_iff.mp hv
    rw [getValueIfCountExceeds_eq_none_iff.mpr fun u => hp.count_eq u ▸ hnone u]
    exact .none
  | some v =>
    cases hv' : getValueIfCountExceeds data' cnt with
    | none =>
      have hcount := (getValueIfCountExceeds_count hv).2
      rw [← hp.count_eq] at hcount
      exact absurd hcount (getValueIfCountExceeds_eq_none_iff.mp hv' v)
    | some v' =>
      have hcount := (getValueIfCountExceeds_count hv').2
      rw [hp.count_eq] at hcount
      exact .some (getValueIfCountExceeds_unique hl hv hcount)

end Equiv

section Low

variable {lt : α → α → Bool} {data data' : List α} {v : α}

theorem lowValue_eq_none_iff : lowValue lt data = none ↔ data = [] := by
  cases data <;> simp [lowValue]

/-- Nothing is below the value that is returned. -/
theorem lowValue_le [BEq α] (hlt : Compares lt) (h : lowValue lt data = some v) : ∀ u ∈ data, ¬lt u v := by
  cases data with
  | nil => cases h
  | cons a data => exact Option.some.inj h ▸ hlt.least_le a data

theorem lowValue_perm [BEq α] (hlt : Compares lt) (hp : data'.Perm data) :
    Option.Rel (· == ·) (lowValue lt data') (lowValue lt data) := by
  cases hv : lowValue lt data with
  | none =>
    rw [lowValue_eq_none_iff] at hv
    rw [hv] at hp
    rw [hp.eq_nil]
    exact .none
  | some v =>
    cases hv' : lowValue lt data' with
    | none =>
      rw [lowValue_eq_none_iff] at hv'
      rw [hv'] at hp
      rw [lowValue_eq_none_iff.mpr hp.nil_eq.symm] at hv
      cases hv
    | some v' =>
      apply Option.Rel.some
      apply hlt.beq_of_least (hp.subset (lowValue_mem hv')) (lowValue_mem hv)
      · exact fun u hu => lowValue_le hlt hv' u (hp.symm.subset hu)
      · exact lowValue_le hlt hv

end Low

/-- What `get_value_if_count_exceeds` and `low_value` return. -/
theorem vector_select [BEq α] [EquivBEq α] {lt : α → α → Bool} (hlt : Compares lt) (data : List α) (cnt : Nat) :
    ((getValueIfCountExceeds data cnt).isSome ↔ ∃ v, cnt < data.count v) ∧
      (∀ v, getValueIfCountExceeds data cnt = some v → cnt < data.count v ∧ data[data.idxOf v]? = some v ∧
        ∀ u, cnt < data.count u → data.idxOf v ≤ data.idxOf u) ∧
      (data.length ≤ 2 * cnt + 1 →
        (∀ v, getValueIfCountExceeds data cnt = some v → ∀ u, cnt < data.count u → u == v) ∧
          ∀ data', data'.Perm data →
            Option.Rel (· == ·) (getValueIfCountExceeds data' cnt) (getValueIfCountExceeds data cnt) ∧
              ((∀ a b : α, a == b → a = b) → getValueIfCountExceeds data' cnt = getValueIfCountExceeds data cnt)) ∧
      (lowValue lt data = none ↔ data = []) ∧
      (∀ v, lowValue lt data = some v → v ∈ data ∧ ∀ u ∈ data, ¬lt u v) ∧
      ∀ data', data'.Perm data → Option.Rel (· == ·) (lowValue lt data') (lowValue lt data) := by
  refine ⟨?_, fun v hv => ⟨(getValueIfCountExceeds_count hv).2, getValueIfCountExceeds_first hv⟩,
    fun hl => ⟨fun v hv u hu => getValueIfCountExceeds_unique hl hv hu, fun data' hp => ?_⟩, lowValue_eq_none_iff,
    fun v hv => ⟨lowValue_mem hv, lowValue_le hlt hv⟩, fun data' hp => lowValue_perm hlt hp⟩
  · rw [← not_iff_not, Bool.not_eq_true, Option.isSome_eq_false_iff, Option.isNone_iff_eq_none,
      getValueIfCountExceeds_eq_none_iff, not_exists]
  · have hrel := getValueIfCountExceeds_perm hl hp
    refine ⟨hrel, fun heq => ?_⟩
    generalize getValueIfCountExceeds data' cnt = found', getValueIfCountExceeds data cnt = found at hrel ⊢
    cases hrel with
    | some h => rw [heq _ _ h]
    | none => rfl

/-- Two of three values are 3, and the lowest is 1, as in another order. -/
theorem vector_select_sample :
    Option.Rel (· == ·) (getValueIfCountExceeds [1, 3, 3] 1) (some 3) ∧
      Option.Rel (· == ·) (lowValue (fun a b => a < b) [1, 3, 3]) (some 1) := by
  have hlt : Compares fun a b : Nat => decide (a < b) :=
    { order :=
        { irrefl := by simp
          trans := by simp; omega
          incomp_trans := by simp; omega }
      incomparable := by simp; omega }
  have hperm : [1, 3, 3].Perm [3, 1, 3] := by decide
  obtain ⟨-, -, hmost, -, -, hlow⟩ := vector_select hlt [3, 1, 3] 1
  exact ⟨((hmost (by decide)).2 _ hperm).1, hlow _ hperm⟩

end Bryllite.BcpMono
