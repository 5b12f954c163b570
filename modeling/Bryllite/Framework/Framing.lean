import Mathlib.Data.List.Basic

/-!
# Frames in a stream

A frame begins with a header of a fixed length, and its header says how long it
is. No frame is a proper beginning of another (`IsFrame.eq_of_prefix`), so a
stream begins with one longest sequence of frames (`Longest.eq`): the one whose
rest does not begin with a frame (`longest_of_stuck`).
-/

namespace Bryllite.Framework

variable {α : Type*}

/-- How frames are marked: the length of a header, and the length of the frame
that a header announces, if it is that of a frame. -/
structure Framing (α : Type*) where
  headerLen : Nat
  size : List α → Option Nat
  headerLen_pos : 0 < headerLen
  headerLen_le (header : List α) (n : Nat) : size header = some n → headerLen ≤ n

namespace Framing

variable {F : Framing α} {s t m m' : List α} {ms ms' : List (List α)}

/-- The header of `m` announces its length. -/
def IsFrame (F : Framing α) (m : List α) : Prop := F.size (m.take F.headerLen) = some m.length

instance (F : Framing α) (m : List α) : Decidable (F.IsFrame m) := inferInstanceAs (Decidable (_ = _))

/-- The frames `ms` are at the beginning of the stream, one after the other. -/
structure Begins (F : Framing α) (s : List α) (ms : List (List α)) : Prop where
  isFrame (m : List α) : m ∈ ms → F.IsFrame m
  isPrefix : ms.flatten <+: s

/-- The frames `ms` are at the beginning of the stream, and no more than these. -/
structure Longest (F : Framing α) (s : List α) (ms : List (List α)) : Prop extends F.Begins s ms where
  longest (ms' : List (List α)) : F.Begins s ms' → ms' <+: ms

/-- The stream does not begin with a frame. -/
def Stuck (F : Framing α) (s : List α) : Prop := ∀ m, F.IsFrame m → ¬ m <+: s

theorem IsFrame.headerLen_le (h : F.IsFrame m) : F.headerLen ≤ m.length := F.headerLen_le _ _ h

/-- The header of a frame is the header of the stream it begins. -/
theorem IsFrame.size_of_prefix (h : F.IsFrame m) (hp : m <+: s) :
    F.size (s.take F.headerLen) = some m.length := by
  obtain ⟨t, rfl⟩ := hp
  rw [List.take_append_of_le_length h.headerLen_le]
  exact h

/-- A stream begins with one frame at most. -/
theorem IsFrame.eq_of_prefix (h : F.IsFrame m) (h' : F.IsFrame m') (hp : m <+: s) (hp' : m' <+: s) :
    m = m' := by
  have hlen : m.length = m'.length := by
    apply Option.some.inj
    rw [← h.size_of_prefix hp, ← h'.size_of_prefix hp']
  exact (List.prefix_of_prefix_length_le hp hp' (Nat.le_of_eq hlen)).eq_of_length hlen

/-! ## Streams that do not begin with a frame -/

/-- The header has not arrived. -/
theorem stuck_of_length_lt (h : s.length < F.headerLen) : F.Stuck s := fun _ hm hp =>
  absurd (Nat.le_trans hm.headerLen_le hp.length_le) (Nat.not_le.mpr h)

/-- The header is that of no frame. -/
theorem stuck_of_size_none (h : F.size (s.take F.headerLen) = none) : F.Stuck s := by
  intro m hm hp
  rw [hm.size_of_prefix hp] at h
  cases h

/-- The rest of the frame has not arrived. -/
theorem stuck_of_lt_size {n : Nat} (h : F.size (s.take F.headerLen) = some n) (hn : s.length < n) :
    F.Stuck s := by
  intro m hm hp
  rw [hm.size_of_prefix hp] at h
  obtain rfl := Option.some.inj h
  exact absurd hp.length_le (Nat.not_le.mpr hn)

/-! ## The longest sequence -/

/-- Frames are the longest sequence at the beginning of a stream when its rest
does not begin with another one. -/
theorem longest_of_stuck (hf : ∀ m ∈ ms, F.IsFrame m) (h : F.Stuck t) : F.Longest (ms.flatten ++ t) ms where
  isFrame := hf
  isPrefix := List.prefix_append _ _
  longest ms' hb := by
    induction ms generalizing ms' with
    | nil =>
      rcases ms' with _ | ⟨m', ms'⟩
      · exact List.nil_prefix
      · -- The first frame of `ms'` would begin the rest.
        refine absurd ?_ (h m' (hb.isFrame m' List.mem_cons_self))
        exact (List.prefix_append m' ms'.flatten).trans hb.isPrefix
    | cons m ms ih =>
      rcases ms' with _ | ⟨m', ms'⟩
      · exact List.nil_prefix
      · have hp := hb.isPrefix
        rw [List.flatten_cons, List.flatten_cons, List.append_assoc] at hp
        -- The first frames are the same, and the others follow them.
        obtain rfl : m' = m := by
          apply IsFrame.eq_of_prefix (hb.isFrame m' List.mem_cons_self) (hf m List.mem_cons_self)
          · exact (List.prefix_append _ _).trans hp
          · exact List.prefix_append _ _
        rw [List.prefix_append_right_inj] at hp
        rw [List.cons_prefix_cons]
        refine ⟨rfl, ih (fun m hm => hf m (List.mem_cons_of_mem _ hm)) ms' ?_⟩
        exact ⟨fun m hm => hb.isFrame m (List.mem_cons_of_mem _ hm), hp⟩

/-- Frames after each other are the sequence they are. -/
theorem longest_flatten (hf : ∀ m ∈ ms, F.IsFrame m) : F.Longest ms.flatten ms := by
  have h := longest_of_stuck hf (stuck_of_length_lt (F := F) (s := []) F.headerLen_pos)
  rwa [List.append_nil] at h

theorem Longest.eq (h : F.Longest s ms) (h' : F.Longest s ms') : ms = ms' := by
  have hp := h'.longest ms h.toBegins
  exact hp.eq_of_length_le (h.longest ms' h'.toBegins).length_le

/-- A beginning of frames is one of the longest sequence. -/
theorem Begins.snoc (h : F.Begins s ms) (hm : F.IsFrame m) (hp : ms.flatten ++ m <+: s) : F.Begins s (ms ++ [m]) where
  isFrame m' hm' := by
    rcases List.mem_append.mp hm' with hm' | hm'
    · exact h.isFrame m' hm'
    · rw [List.mem_singleton.mp hm']
      exact hm
  isPrefix := by rwa [List.flatten_append, List.flatten_singleton]

theorem Begins.append (h : F.Begins s ms) (t : List α) : F.Begins (s ++ t) ms where
  isFrame := h.isFrame
  isPrefix := h.isPrefix.trans (List.prefix_append _ _)

end Framing

end Bryllite.Framework
