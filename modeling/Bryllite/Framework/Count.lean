import Mathlib.Data.Set.Card
import Mathlib.Order.Defs.LinearOrder
import Std.Data.TreeMap

/-!
# Counting the keys of a map by their value, and adding up its values

`valueCount m p` is the number of keys whose value satisfies `p`
(`valueCount_eq_ncard`). It grows by one when a new key is inserted with such
a value (`valueCount_insert`), and the keys that satisfy two exclusive
predicates are together no more than the map's size (`valueCount_add_le`).

A map that counts the values of another (`Counts`) does so after a new key is
counted too (`Counts.insert`).

`valueSum m f` is the sum of `f v` over the entries; `valueSum_insert` is what
an insertion, of a new key or over an old one, does to it.
-/

namespace Bryllite.Framework

open Std (TreeMap DTreeMap LawfulEqCmp)

variable {κ β : Type} [LinearOrder κ]

/-- The number of keys of `m` whose value satisfies `p`. -/
def valueCount (m : TreeMap κ β) (p : β → Bool) : Nat := m.toList.countP fun e => p e.2

variable {m : TreeMap κ β} {p q : β → Bool}

theorem eq_empty_of_isEmpty {m : TreeMap κ β} (h : m.isEmpty) : m = ∅ := by
  obtain ⟨⟨t, wf⟩⟩ := m
  cases t with
  | leaf => rfl
  | inner => simp [TreeMap.isEmpty, DTreeMap.isEmpty, DTreeMap.Internal.Impl.isEmpty] at h

theorem insert_ne_empty (m : TreeMap κ β) (k : κ) (v : β) : m.insert k v ≠ ∅ := by
  intro h
  have := congrArg TreeMap.isEmpty h
  simp at this

theorem getElem?_empty_ne {k : κ} {v : β} : (∅ : TreeMap κ β)[k]? ≠ some v := by
  simp

theorem mem_toList {e : κ × β} : e ∈ m.toList ↔ m[e.1]? = some e.2 :=
  TreeMap.mem_toList_iff_getElem?_eq_some

theorem getElem?_insert_of_mem {k a : κ} {v : β} :
    (m.insert k v)[a]? = if k = a then some v else m[a]? := by
  rw [TreeMap.getElem?_insert]
  simp only [LawfulEqCmp.compare_eq_iff_eq]

/-- What holds of a new value and of all values there were holds of all values. -/
theorem forall_insert {P : β → Prop} {k : κ} {v : β} (hv : P v) (h : ∀ (a : κ) b, m[a]? = some b → P b)
    (a : κ) (b : β) (hb : (m.insert k v)[a]? = some b) : P b := by
  rw [getElem?_insert_of_mem] at hb
  split at hb
  · cases hb; exact hv
  · exact h a b hb

@[simp] theorem valueCount_empty : valueCount (∅ : TreeMap κ β) p = 0 := rfl

/-- Inserting a new key. -/
theorem valueCount_insert {k : κ} (v : β) (hk : m[k]? = none) :
    valueCount (m.insert k v) p = valueCount m p + if p v then 1 else 0 := by
  classical
  have hl : m.toList.filter (fun e => decide ¬(k == e.1) = true) = m.toList := by
    refine List.filter_eq_self.mpr fun e he => ?_
    have := mem_toList.mp he
    simp only [beq_iff_eq, decide_eq_true_eq]
    rintro rfl
    rw [hk] at this; cases this
  unfold valueCount
  rw [(TreeMap.toList_insert_perm (t := m) (k := k) (v := v)).countP_eq, hl, List.countP_cons]

theorem valueCount_le : valueCount m p ≤ m.size := by
  rw [← TreeMap.length_toList]; exact List.countP_le_length

theorem countP_add_le {α : Type} {f g : α → Bool} (h : ∀ a, f a = true → g a = false) (l : List α) :
    l.countP f + l.countP g ≤ l.length := by
  induction l with
  | nil => simp
  | cons a l ih =>
    simp only [List.countP_cons, List.length_cons]
    by_cases hf : f a
    · rw [if_pos hf, if_neg (by simp [h a hf])]
      omega
    · rw [if_neg hf]
      split <;> omega

/-- Two exclusive predicates count different keys. -/
theorem valueCount_add_le (h : ∀ v, p v = true → q v = false) :
    valueCount m p + valueCount m q ≤ m.size := by
  rw [← TreeMap.length_toList]
  exact countP_add_le (fun e : κ × β => h e.2) _

/-- If as many keys as there are have a value in `p`, every key has. -/
theorem all_of_valueCount (h : m.size ≤ valueCount m p) {k : κ} {v : β} (hk : m[k]? = some v) :
    p v = true := by
  rw [← TreeMap.length_toList] at h
  have := List.countP_eq_length.mp (Nat.le_antisymm List.countP_le_length h)
  exact this (k, v) (mem_toList.mpr hk)

theorem nodup_keys (m : TreeMap κ β) : (m.toList.map Prod.fst).Nodup := by
  refine List.pairwise_map.mpr (TreeMap.distinct_keys_toList.imp fun h e => h ?_)
  rw [e]; exact Std.ReflCmp.compare_self

theorem valueCount_eq_ncard (m : TreeMap κ β) (p : β → Bool) :
    valueCount m p = {k : κ | ∃ v, m[k]? = some v ∧ p v = true}.ncard := by
  classical
  have hs : {k : κ | ∃ v, m[k]? = some v ∧ p v = true} =
      (((m.toList.filter fun e => p e.2).map Prod.fst).toFinset : Set κ) := by
    ext k
    simp only [Set.mem_ofPred_eq, List.coe_toFinset, List.mem_map, List.mem_filter, Prod.exists,
      exists_and_right, exists_eq_right, mem_toList]
  rw [hs, Set.ncard_coe_finset, List.toFinset_card_of_nodup, List.length_map, valueCount,
    List.countP_eq_length_filter]
  exact (nodup_keys m).sublist (List.filter_sublist.map _)

/-- A map whose keys all lie in a finite set is no larger than it. -/
theorem size_le_card {S : Finset κ} (h : ∀ (k : κ) (v : β), m[k]? = some v → k ∈ S) : m.size ≤ S.card := by
  classical
  rw [← TreeMap.length_toList, ← List.length_map (Prod.fst : κ × β → κ),
    ← List.toFinset_card_of_nodup (nodup_keys m)]
  refine Finset.card_le_card fun k hk => ?_
  obtain ⟨e, he, rfl⟩ := List.mem_map.mp (List.mem_toFinset.mp hk)
  exact h e.1 e.2 (mem_toList.mp he)

/-- If a map whose keys lie in `S` has as many keys as `S`, every element of `S` is one. -/
theorem mem_of_card_le_size {S : Finset κ} (h : ∀ (k : κ) (v : β), m[k]? = some v → k ∈ S)
    (hS : S.card ≤ m.size) {k : κ} (hk : k ∈ S) : ∃ v, m[k]? = some v := by
  classical
  have hsub : (m.toList.map Prod.fst).toFinset ⊆ S := fun k hk => by
    obtain ⟨e, he, rfl⟩ := List.mem_map.mp (List.mem_toFinset.mp hk)
    exact h e.1 e.2 (mem_toList.mp he)
  have hc : S.card ≤ (m.toList.map Prod.fst).toFinset.card := by
    rw [List.toFinset_card_of_nodup (nodup_keys m), List.length_map, TreeMap.length_toList]
    exact hS
  rw [← Finset.eq_of_subset_of_card_le hsub hc] at hk
  obtain ⟨e, he, rfl⟩ := List.mem_map.mp (List.mem_toFinset.mp hk)
  exact ⟨e.2, mem_toList.mp he⟩

/-- A map whose keys are the elements of `S` is as large as it. -/
theorem size_eq_card {S : Finset κ} (h : ∀ k, (∃ v, m[k]? = some v) ↔ k ∈ S) : m.size = S.card := by
  classical
  refine Nat.le_antisymm (size_le_card fun k v hk => (h k).mp ⟨v, hk⟩) ?_
  have hsub : S ⊆ (m.toList.map Prod.fst).toFinset := fun k hk => by
    obtain ⟨v, hv⟩ := (h k).mpr hk
    exact List.mem_toFinset.mpr (List.mem_map.mpr ⟨(k, v), mem_toList.mpr hv, rfl⟩)
  rw [← TreeMap.length_toList, ← List.length_map (Prod.fst : κ × β → κ),
    ← List.toFinset_card_of_nodup (nodup_keys m)]
  exact Finset.card_le_card hsub

/-! ## Counters -/

/-- `c` counts the keys of `m` by what `f` makes of their value. -/
def Counts {ι : Type} [LinearOrder ι] (c : TreeMap ι Nat) (m : TreeMap κ β) (f : β → ι) : Prop :=
  ∀ i, c.getD i 0 = valueCount m fun v => f v = i

theorem Counts.empty {ι : Type} [LinearOrder ι] (f : β → ι) :
    Counts (∅ : TreeMap ι Nat) (∅ : TreeMap κ β) f := fun i => by
  rw [valueCount_empty, TreeMap.getD_emptyc]

/-- A counter is created at one, or raised by one. -/
theorem getD_count {ι : Type} [LinearOrder ι] (c : TreeMap ι Nat) (i a : ι) :
    (if c.contains i then c.insert i (c.getD i 0 + 1) else c.insert i 1).getD a 0 =
      c.getD a 0 + if i = a then 1 else 0 := by
  have h : (if c.contains i then c.insert i (c.getD i 0 + 1) else c.insert i 1) =
      c.insert i (c.getD i 0 + 1) := by
    split
    · rfl
    · rename_i hc
      rw [TreeMap.getD_eq_fallback (by simpa using hc)]
  rw [h, TreeMap.getD_insert]
  simp only [LawfulEqCmp.compare_eq_iff_eq]
  by_cases he : i = a
  · subst he; simp
  · simp [he]

/-- Counting a new key. -/
theorem Counts.insert {ι : Type} [LinearOrder ι] {c : TreeMap ι Nat} {f : β → ι} (hc : Counts c m f)
    {k : κ} (hk : m[k]? = none) (v : β) :
    Counts (if c.contains (f v) then c.insert (f v) (c.getD (f v) 0 + 1) else c.insert (f v) 1)
      (m.insert k v) f := fun i => by
  rw [getD_count, hc i, valueCount_insert v hk]
  simp only [decide_eq_true_eq]

/-! ## Sums of values -/

/-- The sum of `f v` over the entries of `m`. -/
def valueSum (m : TreeMap κ β) (f : β → Nat) : Nat := (m.toList.map fun e => f e.2).sum

variable {f : β → Nat}

theorem sum_filter_ne {l : List (κ × β)} (hl : (l.map Prod.fst).Nodup) (k : κ) :
    (l.map fun e => f e.2).sum =
      ((l.filter fun e => decide ¬(k == e.1) = true).map fun e => f e.2).sum +
        ((l.find? fun e => k == e.1).map fun e => f e.2).getD 0 := by
  induction l with
  | nil => rfl
  | cons e l ih =>
    obtain ⟨hn, hl⟩ := List.nodup_cons.mp hl
    by_cases he : k = e.1
    · -- The entry of `k` is here, so the rest has none.
      have hf : l.filter (fun e => decide ¬(k == e.1) = true) = l := by
        refine List.filter_eq_self.mpr fun e' he' => ?_
        simp only [beq_iff_eq, decide_eq_true_eq]
        rintro rfl
        exact hn (he ▸ List.mem_map_of_mem he')
      rw [List.filter_cons_of_neg (by simp [he]), hf, List.find?_cons_of_pos (by simp [he]),
        List.map_cons, List.sum_cons, Nat.add_comm]
      rfl
    · simp [he, ih hl, Nat.add_assoc]

/-- Inserting `v` at `k` adds `f v` and takes away what `k` held. -/
theorem valueSum_insert (m : TreeMap κ β) (k : κ) (v : β) :
    valueSum (m.insert k v) f + (m[k]?.map f).getD 0 = valueSum m f + f v := by
  classical
  have hp := ((TreeMap.toList_insert_perm (t := m) (k := k) (v := v)).map fun e => f e.2).sum_eq
  have hs := sum_filter_ne (f := f) (nodup_keys m) k
  have hfind : (m.toList.find? fun e => k == e.1).map (fun e => f e.2) = m[k]?.map f := by
    cases hk : m[k]? with
    | none =>
      have : m.toList.find? (fun e => k == e.1) = none := by
        refine List.find?_eq_none.mpr fun e he => ?_
        simp only [beq_iff_eq]
        rintro rfl
        rw [mem_toList.mp he] at hk; cases hk
      rw [this]; rfl
    | some w =>
      cases hf : m.toList.find? (fun e => k == e.1) with
      | none => exact absurd (beq_self_eq_true k) (List.find?_eq_none.mp hf (k, w) (mem_toList.mpr hk))
      | some e =>
        obtain rfl : k = e.1 := by simpa using List.find?_some hf
        have := mem_toList.mp (List.mem_of_find?_eq_some hf)
        rw [hk] at this; cases this; rfl
  simp only [List.map_cons, List.sum_cons] at hp
  rw [hfind] at hs
  unfold valueSum
  omega

end Bryllite.Framework
