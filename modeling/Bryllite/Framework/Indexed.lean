import Bryllite.Framework.Count

/-!
# Maps that hold a list

A map from the indices `1, …, size` is the list of its values (`entries`), and
to insert the next index is to append to the list. Where each value is related
to the next one (`Linked`), only to insert a value at the next index that is
related to the last keeps it so (`linked_insert_iff`).
-/

namespace Bryllite.Framework

open Std (TreeMap)

variable {β : Type} {m : TreeMap Nat β} {d v : β} {i : Nat}

/-- The keys are `1, …, size`. -/
def Contiguous (m : TreeMap Nat β) : Prop := ∀ i, m[i]?.isSome ↔ 1 ≤ i ∧ i ≤ m.size

/-- The values at the keys `1, …, size`, `d` where there is none. -/
def entries (d : β) (m : TreeMap Nat β) : List β := (List.range m.size).map fun r => m[r + 1]?.getD d

@[simp] theorem length_entries (d : β) (m : TreeMap Nat β) : (entries d m).length = m.size := by
  simp [entries]

theorem Contiguous.empty : Contiguous (∅ : TreeMap Nat β) := by
  intro i
  show (none : Option β).isSome = true ↔ 1 ≤ i ∧ i ≤ 0
  simp only [Option.isSome_none, Bool.false_eq_true, false_iff]
  omega

/-- The index after the last is free. -/
theorem Contiguous.next (hm : Contiguous m) : m[m.size + 1]? = none := by
  rw [← Option.not_isSome_iff_eq_none, hm]
  omega

theorem Contiguous.getElem?_entries (hm : Contiguous m) (h : m[i]? = some v) :
    1 ≤ i ∧ (entries d m)[i - 1]? = some v := by
  obtain ⟨h1, h2⟩ := (hm i).mp (by rw [h]; rfl)
  refine ⟨h1, ?_⟩
  have hi : i - 1 + 1 = i := by omega
  rw [entries, List.getElem?_map, List.getElem?_range (by omega), Option.map_some, hi, h]
  rfl

theorem Contiguous.insert (hm : Contiguous m) (v : β) :
    Contiguous (m.insert (m.size + 1) v) ∧ entries d (m.insert (m.size + 1) v) = entries d m ++ [v] := by
  have hsize : (m.insert (m.size + 1) v).size = m.size + 1 := by
    rw [TreeMap.size_insert, if_neg]
    rw [TreeMap.contains_eq_isSome_getElem?, hm.next]
    exact Bool.false_ne_true
  constructor
  · intro i
    rw [getElem?_insert_of_mem, hsize]
    split
    · simp only [Option.isSome_some, true_iff]
      omega
    · rw [hm i]
      omega
  · rw [entries, hsize, List.range_succ, List.map_append, List.map_singleton, getElem?_insert_of_mem,
      if_pos rfl]
    congr 1
    refine List.map_congr_left fun r hr => ?_
    have := List.mem_range.mp hr
    rw [getElem?_insert_of_mem, if_neg (by omega)]

/-! ## Linked values -/

/-- The keys are `1, …, size`, and each value is related to the next one. -/
structure Linked (R : β → β → Prop) (m : TreeMap Nat β) : Prop where
  contiguous : Contiguous m
  link (i : Nat) (u v : β) : m[i]? = some u → m[i + 1]? = some v → R u v

variable {R : β → β → Prop}

theorem Linked.empty : Linked R (∅ : TreeMap Nat β) where
  contiguous := .empty
  link _ _ _ h := by cases h

/-- To insert a value at a free key keeps a linked map so exactly if the key is
the next one, and the value is related to the last. -/
theorem linked_insert_iff (hm : Linked R m) (hi : m[i]? = none) :
    Linked R (m.insert i v) ↔ i = m.size + 1 ∧ ∀ u, m[m.size]? = some u → R u v := by
  have hsize : (m.insert i v).size = m.size + 1 := by
    rw [TreeMap.size_insert, if_neg]
    rw [TreeMap.contains_eq_isSome_getElem?, hi]
    exact Bool.false_ne_true
  constructor
  · intro h
    have h1 : 1 ≤ i ∧ i ≤ m.size + 1 := by
      rw [← hsize, ← h.contiguous, getElem?_insert_of_mem, if_pos rfl]
      rfl
    have h2 : ¬(1 ≤ i ∧ i ≤ m.size) := fun h2 => by
      rw [← hm.contiguous, hi] at h2
      cases h2
    have hi' : i = m.size + 1 := by omega
    refine ⟨hi', fun u hu => ?_⟩
    refine h.link m.size u v ?_ ?_
    · rw [getElem?_insert_of_mem, if_neg (by omega), hu]
    · rw [getElem?_insert_of_mem, if_pos hi']
  · rintro ⟨rfl, hv⟩
    refine ⟨(hm.contiguous.insert (d := v) v).1, fun k u v' hu hv' => ?_⟩
    rw [getElem?_insert_of_mem] at hu hv'
    have hk : m.size + 1 ≠ k := fun hk => by
      -- The value after the inserted one would be beyond the new size.
      have := ((hm.contiguous.insert (d := v) v).1 (k + 1)).mp (by
        rw [getElem?_insert_of_mem, hv']
        rfl)
      omega
    rw [if_neg hk] at hu
    split at hv'
    · obtain rfl := Option.some.inj hv'
      refine hv u ?_
      rwa [show m.size = k by omega]
    · exact hm.link k u v' hu hv'

end Bryllite.Framework
