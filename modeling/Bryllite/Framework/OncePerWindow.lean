import Bryllite.Framework.Run
import Mathlib.Data.List.Induction
import Mathlib.Order.Lattice

/-!
# Once in every window

A machine acts on calls, each in a window of time and early or late in it. It keeps
the last window it entered and whether it has acted in it (`Windowed`), enters a window
only if this is later than the one it keeps, and then acts on an early call. With
calls in order it acts on the first early call of every window, and on nothing else
(`ActsOn`), once it has entered a window; how it starts decides whether it does so
before (`actsOn_iff`).
-/

namespace Bryllite.Framework

variable {ω : Type*} [LinearOrder ω]

/-- The last window entered, and whether the machine has acted in it. -/
structure Windowed (ω : Type*) where
  window : ω
  done : Bool

namespace Windowed

/-- The machine after it enters window `r`, if that is later than its own. -/
def enter (s : Windowed ω) (r : ω) : Windowed ω := if s.window < r then ⟨r, false⟩ else s

/-- A call in window `e.1`, early if `e.2`: the machine acts, -/
def acts (s : Windowed ω) (e : ω × Bool) : Bool := !(s.enter e.1).done && e.2

/-- and has then acted. -/
def call (s : Windowed ω) (e : ω × Bool) : Windowed ω :=
  { s.enter e.1 with done := (s.enter e.1).done || e.2 }

end Windowed

/-- The call is the first early one of its window after the calls `past`. -/
def FirstEarly (past : List (ω × Bool)) (e : ω × Bool) : Prop :=
  e.2 = true ∧ ∀ e' ∈ past, e'.1 = e.1 → e'.2 = false

instance (past : List (ω × Bool)) (e : ω × Bool) : Decidable (FirstEarly past e) :=
  inferInstanceAs (Decidable (_ ∧ ∀ e' ∈ past, _ → _))

/-- The machine that starts in `s₀` acts on the first early call of every window, and
on no other call. -/
def ActsOn (s₀ : Windowed ω) (es : List (ω × Bool)) : Prop :=
  ∀ pre e post, es = pre ++ e :: post → ((run Windowed.call s₀ pre).acts e = true ↔ FirstEarly pre e)

theorem actsOn_nil (s₀ : Windowed ω) : ActsOn s₀ [] := fun pre e post h => by simp at h

theorem actsOn_append_singleton (s₀ : Windowed ω) (es : List (ω × Bool)) (e : ω × Bool) :
    ActsOn s₀ (es ++ [e]) ↔ ActsOn s₀ es ∧ ((run Windowed.call s₀ es).acts e = true ↔ FirstEarly es e) := by
  constructor
  · intro h
    exact ⟨fun pre e' post hs => h pre e' (post ++ [e]) (by rw [hs, List.append_assoc, List.cons_append]),
      h es e [] rfl⟩
  · rintro ⟨h, he⟩ pre e' post hs
    rcases List.eq_nil_or_concat post with rfl | ⟨post, a, rfl⟩
    · obtain ⟨hpre, he'⟩ := List.append_inj' hs rfl
      rw [← hpre, ← List.singleton_inj.mp he']
      exact he
    · rw [List.concat_eq_append, ← List.cons_append, ← List.append_assoc] at hs
      exact h pre e' post (List.append_inj_left' hs rfl)

/-- What the machine has become after the calls `past`, which were in order. -/
structure Windowed.After (s₀ : Windowed ω) (past : List (ω × Bool)) (s : Windowed ω) : Prop where
  le : s₀.window ≤ s.window
  past_le (e : ω × Bool) : e ∈ past → e.1 ≤ s.window
  entered : s.window = s₀.window ∨ ∃ e ∈ past, e.1 = s.window
  done : s.done = true ↔
    s.window = s₀.window ∧ s₀.done = true ∨ ∃ e ∈ past, e.2 = true ∧ (e.1 = s.window ∨ s.window = s₀.window)

namespace Windowed.After

variable {s₀ s : Windowed ω} {past : List (ω × Bool)} {e : ω × Bool}

theorem init (s₀ : Windowed ω) : After s₀ [] s₀ := by
  refine ⟨le_refl _, fun e he => absurd he List.not_mem_nil, .inl rfl, ?_⟩
  simp

/-- A call in its order. -/
theorem call (h : After s₀ past s) (he : ∀ e' ∈ past, e'.1 ≤ e.1) : After s₀ (past ++ [e]) (s.call e) := by
  obtain ⟨hle, hpast, hent, hdone⟩ := h
  unfold Windowed.call enter
  by_cases hlt : s.window < e.1
  · rw [if_pos hlt]
    have hne : e.1 ≠ s₀.window := (lt_of_le_of_lt hle hlt).ne'
    refine ⟨le_of_lt (lt_of_le_of_lt hle hlt), fun e' he' => ?_, .inr ⟨e, by simp, rfl⟩, ?_⟩
    · rcases List.mem_append.mp he' with he' | he'
      · exact he e' he'
      · rw [List.mem_singleton.mp he']
    · have hno : ∀ e' ∈ past, e'.1 ≠ e.1 := fun e' he' => (lt_of_le_of_lt (hpast e' he') hlt).ne
      simp only [Bool.false_or, hne, false_and, false_or, or_false, List.mem_append, List.mem_singleton]
      constructor
      · exact fun h => ⟨e, .inr rfl, h, rfl⟩
      · rintro ⟨e', he' | rfl, h, hw⟩
        · exact absurd hw (hno e' he')
        · exact h
  · rw [if_neg hlt]
    have hge : e.1 ≤ s.window := le_of_not_gt hlt
    refine ⟨hle, fun e' he' => ?_, ?_, ?_⟩
    · rcases List.mem_append.mp he' with he' | he'
      · exact hpast e' he'
      · rw [List.mem_singleton.mp he']
        exact hge
    · exact hent.imp id fun h => h.imp fun e' he' => ⟨List.mem_append_left _ he'.1, he'.2⟩
    · -- Past the first window, the call is in the window it finds.
      have hw : e.1 = s.window ∨ s.window = s₀.window := by
        rcases hent with hs | ⟨e', he', hs⟩
        · exact .inr hs
        · exact .inl (le_antisymm hge (hs ▸ he e' he'))
      simp only [Bool.or_eq_true, hdone, List.mem_append, List.mem_singleton]
      constructor
      · rintro ((h | ⟨e', he', h, hw'⟩) | h)
        · exact .inl h
        · exact .inr ⟨e', .inl he', h, hw'⟩
        · exact .inr ⟨e, .inr rfl, h, hw⟩
      · rintro (h | ⟨e', he' | rfl, h, hw'⟩)
        · exact .inl (.inl h)
        · exact .inl (.inr ⟨e', he', h, hw'⟩)
        · exact .inr h

/-- The machine acts on the call as it should, unless it is an early call in a window
no later than the first, and the machine started as having acted or has acted in an
earlier one. -/
theorem acts_iff (h : After s₀ past s) (he : ∀ e' ∈ past, e'.1 ≤ e.1) :
    (s.acts e = true ↔ FirstEarly past e) ↔
      ¬(e.1 ≤ s₀.window ∧ FirstEarly past e ∧ (s₀.done = true ∨ ∃ e' ∈ past, e'.2 = true)) := by
  obtain ⟨hle, hpast, hent, hdone⟩ := h
  unfold acts enter
  by_cases hlt : s.window < e.1
  · have hno : ¬e.1 ≤ s₀.window := not_le_of_gt (lt_of_le_of_lt hle hlt)
    have hfirst : FirstEarly past e ↔ e.2 = true :=
      and_iff_left fun e' he' hw => absurd hw (lt_of_le_of_lt (hpast e' he') hlt).ne
    simp [if_pos hlt, hno, hfirst]
  · rw [if_neg hlt]
    have hge : e.1 ≤ s.window := le_of_not_gt hlt
    by_cases hs : s.window = s₀.window
    · -- In the first window, what was before counts whatever its window.
      have hd : s.done = true ↔ s₀.done = true ∨ ∃ e' ∈ past, e'.2 = true := by
        rw [hdone]
        simp [hs]
      have hle₀ : e.1 ≤ s₀.window := hs ▸ hge
      have hfirst : ¬(s₀.done = true ∨ ∃ e' ∈ past, e'.2 = true) → e.2 = true → FirstEarly past e := fun hn h2 =>
        ⟨h2, fun e' he' _ => Bool.eq_false_iff.mpr fun h => hn (.inr ⟨e', he', h⟩)⟩
      rw [Bool.and_eq_true, Bool.not_eq_true', ← Bool.not_eq_true, hd]
      refine ⟨fun h hF => (h.mpr hF.2.1).1 hF.2.2, fun h => ⟨fun ha => hfirst ha.1 ha.2, fun hf => ?_⟩⟩
      exact ⟨fun hD => h ⟨hle₀, hf, hD⟩, hf.1⟩
    · have hw : e.1 = s.window := by
        obtain ⟨e', he', hs'⟩ := hent.resolve_left hs
        exact le_antisymm hge (hs' ▸ he e' he')
      have hno : ¬e.1 ≤ s₀.window := fun h => hs (le_antisymm (hw ▸ h) hle)
      have hd : s.done = false ↔ ∀ e' ∈ past, e'.1 = e.1 → e'.2 = false := by
        rw [← Bool.not_eq_true, hdone]
        constructor
        · intro h e' he' hwe
          exact Bool.eq_false_iff.mpr fun h2 => h (.inr ⟨e', he', h2, .inl (hwe.trans hw)⟩)
        · rintro h (⟨h0, -⟩ | ⟨e', he', h2, hwe⟩)
          · exact hs h0
          · have := h e' he' ((hwe.resolve_right hs).trans hw.symm)
            exact absurd h2 (by simp [this])
      refine iff_of_true ?_ fun h => hno h.1
      rw [Bool.and_eq_true, Bool.not_eq_true', hd, and_comm, FirstEarly]

end Windowed.After

/-- The window of an early call has a first early call. -/
theorem exists_firstEarly {es : List (ω × Bool)} {e : ω × Bool} (he : e ∈ es) (h : e.2 = true) :
    ∃ pre e₀ post, es = pre ++ e₀ :: post ∧ e₀.1 = e.1 ∧ FirstEarly pre e₀ := by
  obtain ⟨e₀, h₀⟩ := Option.isSome_iff_exists.mp
    (List.find?_isSome (p := fun e' => e'.2 && e'.1 = e.1).mpr ⟨e, he, by simp [h]⟩)
  obtain ⟨hp, pre, post, hsplit, hpre⟩ := List.find?_eq_some_iff_append.mp h₀
  simp only [Bool.and_eq_true, decide_eq_true_eq] at hp
  refine ⟨pre, e₀, post, hsplit, hp.2, hp.1, fun e' he' hw => ?_⟩
  have := hpre e' he'
  simpa [hw, hp.2] using this

/-- With calls in order, the machine acts as it should exactly if the early calls in
windows no later than its first are all in one window, and there are none if it starts
as having acted. -/
theorem actsOn_iff {s₀ : Windowed ω} {es : List (ω × Bool)} (hes : es.Pairwise fun e e' => e.1 ≤ e'.1) :
    ActsOn s₀ es ↔ ∀ e ∈ es, e.2 = true → e.1 ≤ s₀.window →
      s₀.done = false ∧ ∀ e' ∈ es, e'.2 = true → e'.1 ≤ s₀.window → e'.1 = e.1 := by
  have hpast : ∀ {pre e post}, es = pre ++ e :: post → ∀ e' ∈ pre, e'.1 ≤ e.1 := fun h e' he' =>
    (List.pairwise_append.mp (h ▸ hes)).2.2 e' he' _ List.mem_cons_self
  have hafter : ∀ pre post, es = pre ++ post → Windowed.After s₀ pre (run Windowed.call s₀ pre) := by
    intro pre
    induction pre using List.reverseRecOn with
    | nil => exact fun _ _ => .init s₀
    | append_singleton pre e ih =>
      intro post h
      rw [List.append_assoc] at h
      rw [run_append]
      exact (ih _ h).call (hpast h)
  have hacts : ActsOn s₀ es ↔ ∀ pre e post, es = pre ++ e :: post →
      ¬(e.1 ≤ s₀.window ∧ FirstEarly pre e ∧ (s₀.done = true ∨ ∃ e' ∈ pre, e'.2 = true)) :=
    forall₃_congr fun pre e post => forall_congr' fun h => (hafter pre _ h).acts_iff (hpast h)
  rw [hacts]
  constructor
  · intro h e he h2 hle
    refine ⟨?_, fun e' he' h2' hle' => ?_⟩
    · obtain ⟨pre, e₀, post, hsplit, hw, hfirst⟩ := exists_firstEarly he h2
      exact Bool.eq_false_iff.mpr fun hd => h pre e₀ post hsplit ⟨hw ▸ hle, hfirst, .inl hd⟩
    · -- The first early call of the later of two windows would come after one of the earlier.
      have key : ∀ f ∈ es, ∀ g ∈ es, f.2 = true → g.2 = true → f.1 ≤ s₀.window → ¬g.1 < f.1 := by
        intro f hf g hg hf2 hg2 hfle hlt
        obtain ⟨pre, e₀, post, hsplit, hw, hfirst⟩ := exists_firstEarly hf hf2
        refine h pre e₀ post hsplit ⟨hw ▸ hfle, hfirst, .inr ⟨g, ?_, hg2⟩⟩
        rw [hsplit] at hg
        rcases List.mem_append.mp hg with hg | hg
        · exact hg
        · have hle₀ : e₀.1 ≤ g.1 := by
            rcases List.mem_cons.mp hg with rfl | hg
            · exact le_refl _
            · exact (List.pairwise_cons.mp (List.pairwise_append.mp (hsplit ▸ hes)).2.1).1 g hg
          exact absurd hlt (not_lt_of_ge (hw ▸ hle₀))
      exact le_antisymm (le_of_not_gt (key e' he' e he h2' h2 hle')) (le_of_not_gt (key e he e' he' h2 h2' hle))
  · intro h pre e post hsplit hF
    obtain ⟨hle, hfirst, hd⟩ := hF
    obtain ⟨hdone, hall⟩ := h e (by rw [hsplit]; simp) hfirst.1 hle
    rcases hd with hd | ⟨e', he', h2⟩
    · exact absurd hd (by simp [hdone])
    · have hw := hall e' (by rw [hsplit]; simp [he']) h2 ((hpast hsplit e' he').trans hle)
      exact absurd h2 (by simp [hfirst.2 e' he' hw])

end Bryllite.Framework
