import Mathlib.Data.List.Basic

/-!
# Lists as memory

A block of memory is the list of its cells. `slice` is what is read at an
offset, and `patch` the memory after a write there. A write in bounds keeps the
length (`length_patch`) and the cells before it, and what is written is behind
these (`take_patch`). `load` and `store` are the same, and nothing where they
are out of bounds.
-/

namespace Bryllite.Framework

variable {α : Type*}

/-- The `len` cells at `off`. -/
def slice (mem : List α) (off len : Nat) : List α := (mem.drop off).take len

/-- The memory after the cells `bs` are written at `off`. -/
def patch (mem : List α) (off : Nat) (bs : List α) : List α :=
  mem.take off ++ bs ++ mem.drop (off + bs.length)

variable {mem bs : List α} {off len : Nat}

@[simp] theorem slice_zero (mem : List α) (len : Nat) : slice mem 0 len = mem.take len := rfl

theorem length_slice (h : off + len ≤ mem.length) : (slice mem off len).length = len := by
  rw [slice, List.length_take, List.length_drop]
  omega

/-- What is read within the beginning of the memory. -/
theorem slice_take {n : Nat} (h : off + len ≤ n) : slice (mem.take n) off len = slice mem off len := by
  rw [slice, slice, List.drop_take, List.take_take, Nat.min_eq_left (by omega)]

/-- What is read within a beginning that two memories share. -/
theorem slice_congr {mem' : List α} {n : Nat} (h : mem.take n = mem'.take n) (hn : off + len ≤ n) :
    slice mem off len = slice mem' off len := by
  rw [← slice_take hn, h, slice_take hn]

theorem getElem?_slice {i : Nat} (h : i < len) : (slice mem off len)[i]? = mem[off + i]? := by
  rw [slice, List.getElem?_take_of_lt h, List.getElem?_drop]

theorem length_patch (h : off + bs.length ≤ mem.length) : (patch mem off bs).length = mem.length := by
  rw [patch, List.length_append, List.length_append, List.length_take, List.length_drop]
  omega

theorem patch_zero (mem bs : List α) : patch mem 0 bs = bs ++ mem.drop bs.length := by
  rw [patch, List.take_zero, List.nil_append, Nat.zero_add]

/-- A write behind another. -/
theorem patch_patch (mem as bs : List α) : patch (patch mem 0 as) as.length bs = patch mem 0 (as ++ bs) := by
  have htake : (patch mem 0 as).take as.length = as := by rw [patch_zero, List.take_left]
  have hdrop : (patch mem 0 as).drop (as.length + bs.length) = mem.drop (as ++ bs).length := by
    rw [patch_zero, List.drop_append, List.drop_eq_nil_of_le (Nat.le_add_right _ _), List.nil_append, List.drop_drop,
      List.length_append]
    congr 1
    omega
  rw [patch, htake, hdrop, patch_zero]

/-- A write in two parts. -/
theorem patch_take_drop {k : Nat} (hk : k ≤ bs.length) :
    patch (patch mem 0 (bs.take k)) k (bs.drop k) = patch mem 0 bs := by
  have h := patch_patch mem (bs.take k) (bs.drop k)
  rwa [List.length_take_of_le hk, List.take_append_drop] at h

/-- The first part is there. -/
theorem take_patch_take {k : Nat} (hk : k ≤ bs.length) : (patch mem 0 (bs.take k)).take k = bs.take k := by
  rw [patch_zero, List.take_append_of_le_length (Nat.le_of_eq (List.length_take_of_le hk).symm), List.take_take,
    Nat.min_self]

/-- The cells before the write, and those written. -/
theorem take_patch (h : off ≤ mem.length) :
    (patch mem off bs).take (off + bs.length) = mem.take off ++ bs := by
  have hlen : (mem.take off ++ bs).length = off + bs.length := by
    rw [List.length_append, List.length_take_of_le h]
  rw [patch, List.take_left' hlen]

/-- The cells before the write are as they were. -/
theorem take_patch_left (h : off ≤ mem.length) : (patch mem off bs).take off = mem.take off := by
  rw [patch, List.append_assoc, List.take_left' (List.length_take_of_le h)]

/-- A write at the end of what is read. -/
theorem slice_patch_append {a : Nat} (ha : a ≤ off) (h : off ≤ mem.length) :
    slice (patch mem off bs) a (off - a + bs.length) = slice mem a (off - a) ++ bs := by
  have htake : ∀ (m : List α) (n : Nat), slice m a (n - a) = (m.take n).drop a := fun m n => List.drop_take.symm
  rw [← Nat.sub_add_comm ha, htake, htake, take_patch h,
    List.drop_append_of_le_length (by rw [List.length_take_of_le h]; exact ha)]

theorem take_slice (k : Nat) : (slice mem off len).take k = slice mem off (min k len) := by
  rw [slice, slice, List.take_take]

theorem drop_slice (k : Nat) : (slice mem off len).drop k = slice mem (off + k) (len - k) := by
  rw [slice, slice, List.drop_take, List.drop_drop]

/-- The `len` cells at `off`, if these are cells of the memory. -/
def load (mem : List α) (off len : Nat) : Option (List α) :=
  if off + len ≤ mem.length then some (slice mem off len) else none

/-- The memory after the cells `bs` are written at `off`, if these are cells of it. -/
def store (mem : List α) (off : Nat) (bs : List α) : Option (List α) :=
  if off + bs.length ≤ mem.length then some (patch mem off bs) else none

theorem load_of_le (h : off + len ≤ mem.length) : load mem off len = some (slice mem off len) := if_pos h

theorem store_of_le (h : off + bs.length ≤ mem.length) : store mem off bs = some (patch mem off bs) := if_pos h

/-- One of the lists is a beginning of the other. -/
def Agree (as bs : List α) : Prop := bs.take as.length = as.take bs.length

instance [DecidableEq α] (as bs : List α) : Decidable (Agree as bs) := inferInstanceAs (Decidable (_ = _))

/-- A beginning of the memory survives a write over it exactly if it agrees
with what is written. -/
theorem take_patch_iff {as : List α} (ha : mem.take as.length = as) :
    (patch mem 0 bs).take as.length = as ↔ Agree as bs := by
  rw [patch_zero, List.take_append, Agree]
  rcases Nat.le_total as.length bs.length with h | h
  · rw [Nat.sub_eq_zero_of_le h, List.take_zero, List.append_nil, List.take_of_length_le h]
  · -- The memory after the write is still that of `as`.
    have hrest : (mem.drop bs.length).take (as.length - bs.length) = as.drop bs.length := by
      rw [← List.drop_take, ha]
    rw [List.take_of_length_le h, hrest]
    constructor
    · intro he
      have := congrArg (List.take bs.length) he
      rwa [List.take_left] at this
    · intro he
      have hsplit := List.take_append_drop bs.length as
      rwa [← he] at hsplit

/-! ## Memory up to a terminator -/

section UpTo

variable [DecidableEq α] {z y : α} {as : List α}

/-- The cells before the first `z`, if there is one. -/
def upTo (z : α) (mem : List α) : Option (List α) := if z ∈ mem then some (mem.takeWhile (· ≠ z)) else none

/-- A terminator hides what is behind it. -/
theorem upTo_append (h : z ∈ as) (bs : List α) : upTo z (as ++ bs) = upTo z as := by
  rw [upTo, upTo, if_pos (List.mem_append_left bs h), if_pos h]
  congr 1
  induction as with
  | nil => cases h
  | cons a as ih =>
    rw [List.cons_append, List.takeWhile_cons, List.takeWhile_cons]
    split
    · rename_i ha
      rw [ih ((List.mem_cons.mp h).resolve_left fun he => by simp [he] at ha)]
    · rfl

theorem upTo_terminated (h : z ∉ as) (bs : List α) : upTo z (as ++ z :: bs) = some as := by
  have hall : ∀ a ∈ as, decide (a ≠ z) = true := fun a ha => decide_eq_true fun he => h (he ▸ ha)
  rw [upTo, if_pos (List.mem_append_right _ List.mem_cons_self), List.takeWhile_append_of_pos hall,
    List.takeWhile_cons_of_neg (by simp), List.append_nil]

/-- Without a terminator one cell more is read. -/
theorem upTo_ne (h : z ∉ as) (hy : y ≠ z) (bs : List α) : upTo z (as ++ y :: bs) ≠ some as := by
  have hall : ∀ a ∈ as, decide (a ≠ z) = true := fun a ha => decide_eq_true fun he => h (he ▸ ha)
  intro he
  rw [upTo] at he
  split at he
  · have hlen := congrArg List.length (Option.some.inj he)
    rw [List.takeWhile_append_of_pos hall, List.takeWhile_cons_of_pos (by simpa using hy), List.length_append,
      List.length_cons] at hlen
    omega
  · cases he

end UpTo

end Bryllite.Framework
