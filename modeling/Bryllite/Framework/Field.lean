import Bryllite.Framework.Patch
import Mathlib.Data.List.TakeWhile

/-!
# Terminated strings in fields

A string that ends at the first `z` is kept in a field of `n` cells: as much of it as
fits, filled up with `z` (`field`). It is read up to the next `z`, wherever that is
(`upTo`), so what is behind the field matters exactly for a string that leaves no cell
for the terminator (`upTo_field_iff`, `upTo_field_within_iff`).
-/

namespace Bryllite.Framework

variable {α : Type*} {z : α} {s mem : List α} {n : Nat}

/-- As much of `s` as fits into `n` cells, and `z` in the others. -/
def field (z : α) (n : Nat) (s : List α) : List α := s.take n ++ List.replicate (n - s.length) z

theorem length_field (z : α) (n : Nat) (s : List α) : (field z n s).length = n := by
  rw [field, List.length_append, List.length_take, List.length_replicate]
  omega

/-- A string that leaves a cell for the terminator. -/
theorem field_of_lt (h : s.length < n) : ∃ rest, field z n s = s ++ z :: rest := by
  obtain ⟨k, hk⟩ : ∃ k, n - s.length = k + 1 := ⟨n - s.length - 1, by omega⟩
  exact ⟨List.replicate k z, by rw [field, List.take_of_length_le (Nat.le_of_lt h), hk, List.replicate_succ]⟩

/-- A string that leaves none. -/
theorem field_of_le (h : n ≤ s.length) : field z n s = s.take n := by
  rw [field, Nat.sub_eq_zero_of_le h, List.replicate_zero, List.append_nil]

variable [DecidableEq α]

/-- What is read, with its terminator, begins the memory. -/
theorem upTo_eq_some_iff : upTo z mem = some s ↔ z ∉ s ∧ s ++ [z] <+: mem := by
  constructor
  · intro h
    rw [upTo] at h
    split at h
    · rename_i hz
      obtain rfl := Option.some.inj h
      refine ⟨fun hm => by simpa using List.mem_takeWhile_imp hm, ?_⟩
      have hsplit := List.takeWhile_append_dropWhile (p := fun x => decide (x ≠ z)) (l := mem)
      -- The first cell that is not read is the terminator.
      cases hd : mem.dropWhile (fun x => decide (x ≠ z)) with
      | nil =>
        rw [List.dropWhile_eq_nil_iff] at hd
        exact absurd (of_decide_eq_true (hd z hz)) (not_not_intro rfl)
      | cons y rest =>
        have hy := List.head_dropWhile_not (fun x => decide (x ≠ z)) (l := mem) (by rw [hd]; exact List.cons_ne_nil _ _)
        simp only [hd, List.head_cons, decide_eq_false_iff_not, not_not] at hy
        refine ⟨rest, ?_⟩
        rw [hd, hy] at hsplit
        rw [List.append_assoc]
        exact hsplit
    · cases h
  · rintro ⟨hz, rest, rfl⟩
    rw [List.append_assoc]
    exact upTo_terminated hz rest

/-- A string is read back if it leaves a cell for the terminator, or if the rest of it,
with a terminator, happens to follow the field. -/
theorem upTo_field_iff (hs : z ∉ s) (behind : List α) :
    upTo z (field z n s ++ behind) = some s ↔ s.length < n ∨ s.drop n ++ [z] <+: behind := by
  rcases Nat.lt_or_ge s.length n with h | h
  · obtain ⟨rest, hf⟩ := field_of_lt (z := z) h
    rw [hf, List.append_assoc]
    exact iff_of_true (upTo_terminated hs _) (.inl h)
  · rw [upTo_eq_some_iff, field_of_le h, and_iff_right hs, or_iff_right (Nat.not_lt.mpr h)]
    nth_rewrite 1 [← List.take_append_drop n s]
    rw [List.append_assoc, List.prefix_append_right_inj]

/-- A string is read within its field exactly if it leaves a cell for the terminator. -/
theorem upTo_field_within_iff (hs : z ∉ s) (behind : List α) :
    (∃ r, upTo z (field z n s ++ behind) = some r ∧ r.length < n) ↔ s.length < n := by
  constructor
  · rintro ⟨r, hr, hlt⟩
    by_contra hge
    -- The terminator would be in the field.
    obtain ⟨-, hp⟩ := upTo_eq_some_iff.mp hr
    rw [field_of_le (Nat.not_lt.mp hge)] at hp
    have hlen : (s.take n).length = n := List.length_take_of_le (Nat.not_lt.mp hge)
    have htake := List.prefix_of_prefix_length_le hp (List.prefix_append (s.take n) behind)
      (by rw [List.length_append, List.length_singleton, hlen]; exact hlt)
    exact hs (List.mem_of_mem_take (htake.subset (by simp)))
  · intro h
    exact ⟨s, (upTo_field_iff hs behind).mpr (.inl h), h⟩

end Bryllite.Framework
