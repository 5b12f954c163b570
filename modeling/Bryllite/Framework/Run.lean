import Mathlib.Data.List.Basic

/-!
# Runs of a step function

A system is given by what one event does to a state, `step : σ → ε → σ`. A
run is a list of events (`run`). `Along step P s es` says that `P` holds of
every event of a run and the state the event meets; `along_iff` unfolds it to
the prefixes of the run. `run_inv` is the induction rule: an invariant that
every event satisfying `P` keeps holds after every run along which `P` does
(`run_rel` is the same for two runs of the same events),
`run_of_not_along` is for a run in which an event does not, `along_of_inv` gives what
holds of every event, and `along_iff_of_inv` exchanges conditions that are the same where
the invariant holds.
-/

namespace Bryllite.Framework

variable {σ ε : Type*}

/-- The state after the events `es`, in order. -/
def run (step : σ → ε → σ) (s : σ) (es : List ε) : σ := es.foldl step s

/-- `P` holds of every event of `es` and the state it meets. -/
def Along (step : σ → ε → σ) (P : σ → ε → Prop) : σ → List ε → Prop
  | _, [] => True
  | s, e :: es => P s e ∧ Along step P (step s e) es

variable {step : σ → ε → σ} {P Q : σ → ε → Prop} {s : σ} {es : List ε}

instance decidableAlong [∀ s e, Decidable (P s e)] : ∀ s es, Decidable (Along step P s es)
  | _, [] => inferInstanceAs (Decidable True)
  | s, e :: es => @instDecidableAnd _ _ (inferInstanceAs (Decidable (P s e))) (decidableAlong (step s e) es)

@[simp] theorem run_nil : run step s [] = s := rfl

@[simp] theorem run_cons (e : ε) : run step s (e :: es) = run step (step s e) es := rfl

theorem run_append (es' : List ε) : run step s (es ++ es') = run step (run step s es) es' := List.foldl_append

@[simp] theorem along_nil : Along step P s [] := trivial

@[simp] theorem along_cons (e : ε) :
    Along step P s (e :: es) ↔ P s e ∧ Along step P (step s e) es := Iff.rfl

theorem along_append (es' : List ε) :
    Along step P s (es ++ es') ↔ Along step P s es ∧ Along step P (run step s es) es' := by
  induction es generalizing s with
  | nil => simp
  | cons e es ih => simp only [List.cons_append, along_cons, run_cons, ih, and_assoc]

/-- `Along`, event by event: the event `e` meets the state its prefix leads to. -/
theorem along_iff :
    Along step P s es ↔ ∀ pre e post, es = pre ++ e :: post → P (run step s pre) e := by
  constructor
  · rintro h pre e post rfl
    exact ((along_append _).mp h).2.1
  · intro h
    induction es generalizing s with
    | nil => trivial
    | cons e es ih =>
      refine ⟨h [] e es rfl, ih fun pre e' post he => ?_⟩
      simpa only [run_cons] using h (e :: pre) e' post (by rw [he, List.cons_append])

theorem Along.imp (h : Along step P s es) (hPQ : ∀ s e, P s e → Q s e) : Along step Q s es :=
  along_iff.mpr fun pre e post he => hPQ _ _ (along_iff.mp h pre e post he)

theorem Along.and (h : Along step P s es) (h' : Along step Q s es) :
    Along step (fun s e => P s e ∧ Q s e) s es :=
  along_iff.mpr fun pre e post he => ⟨along_iff.mp h pre e post he, along_iff.mp h' pre e post he⟩

/-- A run whose events all satisfy `P` keeps every invariant that such events keep. -/
theorem run_inv {I : σ → Prop} (hstep : ∀ s e, I s → P s e → I (step s e)) (hs : I s)
    (h : Along step P s es) : I (run step s es) := by
  induction es generalizing s with
  | nil => exact hs
  | cons e es ih => exact ih (hstep s e hs h.1) h.2

/-- The rules without a condition on the events. -/
theorem along_true : Along step (fun _ _ => True) s es := by
  induction es generalizing s with
  | nil => trivial
  | cons e es ih => exact ⟨trivial, ih⟩

theorem run_inv_of_all {I : σ → Prop} (hstep : ∀ s e, I s → I (step s e)) (hs : I s) :
    I (run step s es) :=
  run_inv (P := fun _ _ => True) (fun s e hi _ => hstep s e hi) hs along_true

/-- A run of which not all events satisfy `P` comes to `J` with the first that does not,
and stays there. -/
theorem run_of_not_along {I J : σ → Prop} (hI : ∀ s e, I s → P s e → I (step s e))
    (hIJ : ∀ s e, I s → ¬P s e → J (step s e)) (hJ : ∀ s e, J s → J (step s e)) (hs : I s)
    (h : ¬Along step P s es) : J (run step s es) := by
  induction es generalizing s with
  | nil => exact absurd trivial h
  | cons e es ih =>
    by_cases he : P s e
    · exact ih (hI s e hs he) fun hes => h ⟨he, hes⟩
    · rw [run_cons]
      exact run_inv_of_all hJ (hIJ s e hs he)

/-- Two runs of the same events stay related, if the events that satisfy `P` in the
first run keep related states related. -/
theorem run_rel {σ' : Type*} {R : σ → σ' → Prop} {step' : σ' → ε → σ'} {s' : σ'}
    (hstep : ∀ s s' e, R s s' → P s e → R (step s e) (step' s' e)) (hs : R s s') (h : Along step P s es) :
    R (run step s es) (run step' s' es) := by
  induction es generalizing s s' with
  | nil => exact hs
  | cons e es ih => exact ih (hstep s s' e hs h.1) h.2

/-- What an invariant gives of each event holds along the run. -/
theorem along_of_inv {I : σ → Prop} (hstep : ∀ s e, I s → P s e → I (step s e))
    (hQ : ∀ s e, I s → P s e → Q s e) (hs : I s) (h : Along step P s es) : Along step Q s es := by
  induction es generalizing s with
  | nil => trivial
  | cons e es ih => exact ⟨hQ s e hs h.1, ih (hstep s e hs h.1) h.2⟩

/-- Two conditions that are the same where the invariant holds are the same along the run. -/
theorem along_iff_of_inv {I : σ → Prop} (hPQ : ∀ s e, I s → (P s e ↔ Q s e))
    (hstep : ∀ s e, I s → Q s e → I (step s e)) (hs : I s) : Along step P s es ↔ Along step Q s es := by
  induction es generalizing s with
  | nil => exact Iff.rfl
  | cons e es ih =>
    rw [along_cons, along_cons, hPQ s e hs]
    exact and_congr_right fun he => ih (hstep s e hs he)

/-- A condition that looks at the events alone. -/
theorem along_of_forall {P : ε → Prop} (h : ∀ e ∈ es, P e) : Along step (fun _ e => P e) s es :=
  along_iff.mpr fun pre e post he => h e (by rw [he]; simp)

end Bryllite.Framework
