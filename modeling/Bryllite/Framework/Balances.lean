import Bryllite.Framework.Count
import Mathlib.Algebra.BigOperators.Group.Finset.Basic
import Mathlib.Data.Int.ModEq

/-!
# Balances in unsigned 64-bit integers

A map from accounts to unsigned 64-bit integers, where an account without an entry
has 0 (`balance`). A credit and a debit change one balance; a credit that fits and a
debit that is covered change the sum of all balances by their value, and modulo `2⁶⁴`
every credit does.
-/

namespace Bryllite.Framework

open Std (TreeMap)

variable {κ : Type} [LinearOrder κ]

/-- The balance of `k`, 0 without an entry. -/
def balance (m : TreeMap κ UInt64) (k : κ) : UInt64 := m.getD k 0

/-- The sum of all balances. -/
def sumBalances (m : TreeMap κ UInt64) : Nat := valueSum m UInt64.toNat

/-- The balance of `k` grows by `v`. -/
def credit (m : TreeMap κ UInt64) (k : κ) (v : UInt64) : TreeMap κ UInt64 := m.insert k (balance m k + v)

/-- The balance of `k` shrinks by `v`. -/
def debit (m : TreeMap κ UInt64) (k : κ) (v : UInt64) : TreeMap κ UInt64 := m.insert k (balance m k - v)

variable {m m' : TreeMap κ UInt64} {k : κ} {v : UInt64}

theorem balance_eq (m : TreeMap κ UInt64) (k : κ) : balance m k = (m[k]?).getD 0 :=
  TreeMap.getD_eq_getD_getElem?

theorem balance_insert (m : TreeMap κ UInt64) (k a : κ) (v : UInt64) :
    balance (m.insert k v) a = if k = a then v else balance m a := by
  simp only [balance_eq, getElem?_insert_of_mem]
  split <;> rfl

/-- A credit that looks whether there is an entry. -/
theorem credit_match (m : TreeMap κ UInt64) (k : κ) (v : UInt64) :
    (match m[k]? with | some x => m.insert k (x + v) | none => m.insert k v) = credit m k v := by
  rw [credit, balance_eq]
  cases m[k]? with
  | none => simp
  | some x => rfl

theorem balance_credit (m : TreeMap κ UInt64) (k a : κ) (v : UInt64) :
    balance (credit m k v) a = balance m a + if k = a then v else 0 := by
  rw [credit, balance_insert]
  by_cases h : k = a
  · rw [if_pos h, if_pos h, h]
  · rw [if_neg h, if_neg h, UInt64.add_zero]

theorem balance_debit (m : TreeMap κ UInt64) (k a : κ) (v : UInt64) :
    balance (debit m k v) a = balance m a - if k = a then v else 0 := by
  rw [debit, balance_insert]
  by_cases h : k = a
  · rw [if_pos h, if_pos h, h]
  · rw [if_neg h, if_neg h, UInt64.sub_zero]

/-! ## The sum -/

theorem sumBalances_insert (m : TreeMap κ UInt64) (k : κ) (v : UInt64) :
    sumBalances (m.insert k v) + (balance m k).toNat = sumBalances m + v.toNat := by
  have h := valueSum_insert (f := UInt64.toNat) m k v
  have he : (m[k]?.map UInt64.toNat).getD 0 = (balance m k).toNat := by
    rw [balance_eq]
    cases m[k]? <;> rfl
  rwa [he] at h

theorem balance_le_sum (m : TreeMap κ UInt64) (k : κ) : (balance m k).toNat ≤ sumBalances m := by
  have h := sumBalances_insert m k 0
  rw [UInt64.toNat_zero] at h
  omega

/-- A credit without wrap-around. -/
theorem sumBalances_credit (h : (balance m k).toNat + v.toNat < 2 ^ 64) :
    sumBalances (credit m k v) = sumBalances m + v.toNat := by
  have hi := sumBalances_insert m k (balance m k + v)
  rw [UInt64.toNat_add, Nat.mod_eq_of_lt h] at hi
  unfold credit
  omega

/-- A debit that is covered. -/
theorem sumBalances_debit (h : v ≤ balance m k) : sumBalances (debit m k v) + v.toNat = sumBalances m := by
  have hi := sumBalances_insert m k (balance m k - v)
  have hle := UInt64.le_iff_toNat_le.mp h
  rw [UInt64.toNat_sub_of_le _ _ h] at hi
  unfold debit
  omega

/-- Any credit, modulo `2⁶⁴`. -/
theorem sumBalances_credit_mod (m : TreeMap κ UInt64) (k : κ) (v : UInt64) :
    sumBalances (credit m k v) ≡ sumBalances m + v.toNat [MOD 2 ^ 64] := by
  have hi := sumBalances_insert m k (balance m k + v)
  have hm : (balance m k + v).toNat ≡ (balance m k).toNat + v.toNat [MOD 2 ^ 64] := by
    rw [UInt64.toNat_add]
    exact Nat.mod_modEq _ _
  refine Nat.ModEq.add_right_cancel' (balance m k).toNat ?_
  rw [show sumBalances (credit m k v) + (balance m k).toNat = _ from hi, Nat.add_assoc, Nat.add_comm v.toNat]
  exact Nat.ModEq.add_left _ hm

/-- The sum over any accounts among which are all that have an entry. -/
theorem sumBalances_eq_sum {S : Finset κ} (hS : ∀ (k : κ) v, m[k]? = some v → k ∈ S) :
    sumBalances m = ∑ k ∈ S, (balance m k).toNat := by
  classical
  have hkeys : sumBalances m = ∑ k ∈ (m.toList.map Prod.fst).toFinset, (balance m k).toNat := by
    rw [List.sum_toFinset _ (nodup_keys m), List.map_map]
    refine congrArg List.sum (List.map_congr_left fun e he => ?_)
    show e.2.toNat = (balance m e.1).toNat
    rw [balance_eq, mem_toList.mp he, Option.getD_some]
  rw [hkeys]
  refine Finset.sum_subset (fun k hk => ?_) fun k _ hk => ?_
  · obtain ⟨e, he, rfl⟩ := List.mem_map.mp (List.mem_toFinset.mp hk)
    exact hS e.1 e.2 (mem_toList.mp he)
  · -- An account without an entry has 0.
    cases hv : m[k]? with
    | none =>
      rw [balance_eq, hv]
      rfl
    | some v => exact absurd (List.mem_toFinset.mpr (List.mem_map_of_mem (mem_toList (e := (k, v)).mpr hv))) hk

/-- Maps with the same balances have the same sum. -/
theorem sumBalances_congr (h : ∀ k, balance m k = balance m' k) : sumBalances m = sumBalances m' := by
  classical
  let S : Finset κ := (m.toList.map Prod.fst ++ m'.toList.map Prod.fst).toFinset
  have hS : ∀ (k : κ) v, m[k]? = some v → k ∈ S := fun k v hv =>
    List.mem_toFinset.mpr (List.mem_append_left _ (List.mem_map_of_mem (mem_toList (e := (k, v)).mpr hv)))
  have hS' : ∀ (k : κ) v, m'[k]? = some v → k ∈ S := fun k v hv =>
    List.mem_toFinset.mpr (List.mem_append_right _ (List.mem_map_of_mem (mem_toList (e := (k, v)).mpr hv)))
  rw [sumBalances_eq_sum hS, sumBalances_eq_sum hS']
  exact Finset.sum_congr rfl fun k _ => by rw [h k]

end Bryllite.Framework
