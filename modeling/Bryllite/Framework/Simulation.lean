import Mathlib.Data.List.Basic

/-!
# Simulation of a system that never fails

`step` may fail, and `spec` does not. If from related states every event is
answered by `step` as by `spec`, and leads to related states, then `step` does
not fail in any run, and gives the same answers (`Simulates.answers`).
-/

namespace Bryllite.Framework

variable {σ τ ε ω : Type*}

/-- The answers to the events, in order, and the state after them, unless a step fails. -/
def answers (step : σ → ε → Option (ω × σ)) : σ → List ε → Option (List ω × σ)
  | s, [] => some ([], s)
  | s, e :: es => do
    let (o, s) ← step s e
    let (os, s) ← answers step s es
    some (o :: os, s)

/-- The same for steps that do not fail. -/
def specAnswers (spec : τ → ε → ω × τ) : τ → List ε → List ω × τ
  | t, [] => ([], t)
  | t, e :: es =>
    let (o, t) := spec t e
    let (os, t) := specAnswers spec t es
    (o :: os, t)

/-- Every step from related states succeeds, with the answer of `spec`. -/
def Simulates (R : σ → τ → Prop) (step : σ → ε → Option (ω × σ)) (spec : τ → ε → ω × τ) : Prop :=
  ∀ s t e, R s t → ∃ s', step s e = some ((spec t e).1, s') ∧ R s' (spec t e).2

theorem Simulates.answers {R : σ → τ → Prop} {step : σ → ε → Option (ω × σ)} {spec : τ → ε → ω × τ}
    (h : Simulates R step spec) {s : σ} {t : τ} (hst : R s t) (es : List ε) :
    ∃ s', answers step s es = some ((specAnswers spec t es).1, s') ∧ R s' (specAnswers spec t es).2 := by
  induction es generalizing s t with
  | nil => exact ⟨s, rfl, hst⟩
  | cons e es ih =>
    obtain ⟨s₁, hstep, hs₁⟩ := h s t e hst
    obtain ⟨s₂, hrun, hs₂⟩ := ih hs₁
    refine ⟨s₂, ?_, hs₂⟩
    unfold Framework.answers
    rw [hstep]
    show (Framework.answers step s₁ es).bind _ = _
    rw [hrun]
    rfl

end Bryllite.Framework
