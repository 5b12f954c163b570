import Bryllite.Framework.Count

/-!
# The first value of each key

`firstValue l k` is the value of the first entry of `l` with key `k`. A map that
takes a value for a key only while it has none gets by each entry the first
values of one entry more (`Firsts.take`), so what it holds in the end does not
depend on the order in which the keys came, nor on what came after the first
value of a key (`toList_eq`).
-/

namespace Bryllite.Framework

open Std (TreeMap)

variable {κ β : Type} [LinearOrder κ]

/-- The value of the first entry with key `k`. -/
def firstValue (l : List (κ × β)) (k : κ) : Option β := (l.find? fun e => e.1 = k).map Prod.snd

variable {l l' : List (κ × β)} {m m' : TreeMap κ β} {k : κ}

theorem firstValue_append (l l' : List (κ × β)) (k : κ) :
    firstValue (l ++ l') k = (firstValue l k).or (firstValue l' k) := by
  unfold firstValue
  rw [List.find?_append]
  cases l.find? fun e => decide (e.1 = k) <;> rfl

theorem firstValue_cons (k : κ) (v : β) (l : List (κ × β)) (a : κ) :
    firstValue ((k, v) :: l) a = if k = a then some v else firstValue l a := by
  unfold firstValue
  by_cases h : k = a
  · rw [List.find?_cons_of_pos (by simpa using h), if_pos h]
    rfl
  · rw [List.find?_cons_of_neg (by simpa using h), if_neg h]

theorem firstValue_singleton (k : κ) (v : β) (a : κ) : firstValue [(k, v)] a = if k = a then some v else none :=
  firstValue_cons k v [] a

theorem mem_of_firstValue {v : β} (h : firstValue l k = some v) : (k, v) ∈ l := by
  obtain ⟨e, he, rfl⟩ := Option.map_eq_some_iff.mp h
  have hk : e.1 = k := by simpa using List.find?_some he
  exact hk ▸ List.mem_of_find?_eq_some he

/-- The map after an entry, if there is one: a key that has a value keeps it. -/
def takeFirst (m : TreeMap κ β) : Option (κ × β) → TreeMap κ β
  | none => m
  | some e => if m.contains e.1 then m else m.insert e.1 e.2

/-- The map holds the first values of the entries. -/
def Firsts (m : TreeMap κ β) (l : List (κ × β)) : Prop := ∀ k, m[k]? = firstValue l k

theorem Firsts.empty : Firsts (∅ : TreeMap κ β) [] := fun _ => TreeMap.getElem?_emptyc

theorem Firsts.take (h : Firsts m l) (o : Option (κ × β)) : Firsts (takeFirst m o) (l ++ o.toList) := by
  cases o with
  | none => rwa [Option.toList_none, List.append_nil]
  | some e =>
    intro a
    have hc : m.contains e.1 = (m[e.1]?).isSome := TreeMap.contains_eq_isSome_getElem?
    rw [firstValue_append, Option.toList_some, firstValue_singleton, ← h a]
    unfold takeFirst
    dsimp only
    split
    · rename_i hk
      obtain ⟨w, hw⟩ := Option.isSome_iff_exists.mp (hc ▸ hk)
      by_cases ha : e.1 = a
      · rw [← ha, hw]
        rfl
      · rw [if_neg ha, Option.or_none]
    · rename_i hk
      rw [hc] at hk
      rw [getElem?_insert_of_mem]
      split
      · rename_i ha
        rw [← ha, Option.not_isSome_iff_eq_none.mp hk]
        rfl
      · rw [Option.or_none]

/-- Maps that hold the same values for all keys have the same entries, in the same order. -/
theorem toList_eq_of_getElem? (h : ∀ k : κ, m[k]? = m'[k]?) : m.toList = m'.toList :=
  (TreeMap.Equiv.of_forall_constGet?_eq h).toList_eq

/-- A map of first values is that of all entries with these first values. -/
theorem Firsts.toList_eq (h : Firsts m l) (h' : Firsts m' l') (hl : ∀ k, firstValue l k = firstValue l' k) :
    m.toList = m'.toList :=
  toList_eq_of_getElem? fun k => by rw [h k, h' k, hl k]

theorem Firsts.toList_eq_nil (h : Firsts m l) : m.toList = [] ↔ l = [] := by
  constructor
  · intro hm
    cases l with
    | nil => rfl
    | cons e l =>
      -- The first entry is the first with its key.
      have he : m[e.1]? = some e.2 := by
        rw [h, firstValue, List.find?_cons_of_pos (by simp)]
        rfl
      have := Framework.mem_toList.mpr he
      rw [hm] at this
      cases this
  · rintro rfl
    refine List.eq_nil_iff_forall_not_mem.mpr fun e he => ?_
    have := Framework.mem_toList.mp he
    rw [h] at this
    cases this

theorem Firsts.mem_toList {e : κ × β} (h : Firsts m l) : e ∈ m.toList ↔ firstValue l e.1 = some e.2 := by
  rw [Framework.mem_toList, h]

end Bryllite.Framework
