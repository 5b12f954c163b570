import Bryllite.Framework.Patch
import Mathlib.Data.Nat.ModEq

/-!
# A ring of slots

Every write copies its data to the next of `m` slots and is outstanding until
it completes; writes complete in the order in which they were made. Nothing
keeps a slot from being reused, so a write keeps the data of the others intact
exactly if it agrees with every outstanding one that was made a multiple of `m`
writes before (`intact_push_iff`), and with fewer than `m` outstanding it always
does (`agrees_of_length_lt`).
-/

namespace Bryllite.Framework

variable {α : Type*} {m : Nat}

/-- The slots, the writes that are outstanding with their slot and data, and the
slot of the next write. -/
@[ext]
structure SlotRing (α : Type*) where
  slots : Nat → List α
  outstanding : List (Nat × List α)
  next : Nat

namespace SlotRing

/-- A write. -/
def push (m : Nat) (bs : List α) (r : SlotRing α) : SlotRing α where
  slots := Function.update r.slots r.next (patch (r.slots r.next) 0 bs)
  outstanding := r.outstanding ++ [(r.next, bs)]
  next := (r.next + 1) % m

/-- The first of the outstanding writes completes. -/
def complete (r : SlotRing α) : SlotRing α := { r with outstanding := r.outstanding.tail }

/-- Every outstanding write has its data in its slot. -/
def Intact (r : SlotRing α) : Prop := ∀ u ∈ r.outstanding, (r.slots u.1).take u.2.length = u.2

/-- The data agrees with the outstanding writes that were made a multiple of
`m` writes before. -/
def Agrees (m : Nat) (bs : List α) (r : SlotRing α) : Prop :=
  ∀ j u, r.outstanding[j]? = some u → m ∣ r.outstanding.length - j → Agree u.2 bs

/-- The slots are used in turn. -/
structure Inv (m : Nat) (r : SlotRing α) : Prop where
  next_lt : r.next < m
  slot_lt (u : Nat × List α) : u ∈ r.outstanding → u.1 < m
  turn (j : Nat) (u : Nat × List α) : r.outstanding[j]? = some u →
    (u.1 + (r.outstanding.length - j)) % m = r.next

variable {r : SlotRing α} {bs : List α}

theorem Inv.push (h : r.Inv m) (bs : List α) : (r.push m bs).Inv m where
  next_lt := Nat.mod_lt _ (Nat.zero_lt_of_lt h.next_lt)
  slot_lt u hu := by
    rcases List.mem_append.mp hu with hu | hu
    · exact h.slot_lt u hu
    · rw [List.mem_singleton.mp hu]
      exact h.next_lt
  turn j u hu := by
    show (u.1 + ((r.outstanding ++ [(r.next, bs)]).length - j)) % m = (r.next + 1) % m
    change (r.outstanding ++ [(r.next, bs)])[j]? = some u at hu
    rw [List.length_append, List.length_singleton]
    by_cases hj : j < r.outstanding.length
    · rw [List.getElem?_append_left hj] at hu
      rw [← h.turn j u hu, Nat.mod_add_mod]
      congr 1
      omega
    · rw [List.getElem?_append_right (Nat.le_of_not_lt hj), List.getElem?_singleton] at hu
      split at hu
      · obtain rfl := Option.some.inj hu
        congr 2
        omega
      · cases hu

theorem Inv.complete (h : r.Inv m) : r.complete.Inv m where
  next_lt := h.next_lt
  slot_lt u hu := h.slot_lt u (List.mem_of_mem_tail hu)
  turn j u hu := by
    change r.outstanding.tail[j]? = some u at hu
    rw [List.getElem?_tail] at hu
    show (u.1 + (r.outstanding.tail.length - j)) % m = r.next
    rw [← h.turn (j + 1) u hu, List.length_tail]
    congr 2
    omega

theorem Intact.complete (h : r.Intact) : r.complete.Intact := fun u hu => h u (List.mem_of_mem_tail hu)

/-- The slot of an outstanding write is the next one exactly if a multiple of
`m` writes were made since. -/
theorem Inv.slot_eq_iff (h : r.Inv m) {j : Nat} {u : Nat × List α} (hu : r.outstanding[j]? = some u) :
    u.1 = r.next ↔ m ∣ r.outstanding.length - j := by
  have hlt := h.slot_lt u (List.mem_of_getElem? hu)
  have ht := h.turn j u hu
  constructor
  · intro he
    rw [he] at ht hlt
    have hmod : r.next + (r.outstanding.length - j) ≡ r.next + 0 [MOD m] := by
      rw [Nat.ModEq, ht, Nat.add_zero, Nat.mod_eq_of_lt hlt]
    exact (Nat.modEq_zero_iff_dvd).mp (Nat.ModEq.add_left_cancel' _ hmod)
  · rintro ⟨k, hk⟩
    rw [hk, Nat.add_mul_mod_self_left, Nat.mod_eq_of_lt hlt] at ht
    exact ht

/-- A write leaves all data intact exactly if it agrees with what it may reuse. -/
theorem intact_push_iff (hi : r.Inv m) (h : r.Intact) : (r.push m bs).Intact ↔ r.Agrees m bs := by
  have hslot : ∀ u, (r.push m bs).slots u =
      if u = r.next then patch (r.slots r.next) 0 bs else r.slots u := fun u => Function.update_apply ..
  constructor
  · intro h' j u hu hd
    have hm := List.mem_of_getElem? hu
    have he := (hi.slot_eq_iff hu).mpr hd
    have := h' u (List.mem_append_left _ hm)
    rw [hslot, if_pos he, take_patch_iff] at this
    · exact this
    · rw [← he]
      exact h u hm
  · intro ha u hu
    rw [hslot]
    rcases List.mem_append.mp hu with hu | hu
    · split
      · rename_i he
        obtain ⟨j, hj⟩ := List.getElem?_of_mem hu
        rw [take_patch_iff]
        · exact ha j u hj ((hi.slot_eq_iff hj).mp he)
        · rw [← he]
          exact h u hu
      · exact h u hu
    · rw [List.mem_singleton.mp hu, if_pos rfl, patch_zero, List.take_left]

/-- With fewer writes outstanding than there are slots, no slot is reused. -/
theorem agrees_of_length_lt (h : r.outstanding.length < m) : r.Agrees m bs := by
  intro j u hu hd
  have hj := (List.getElem?_eq_some_iff.mp hu).1
  have := Nat.le_of_dvd (by omega) hd
  omega

end SlotRing

end Bryllite.Framework
