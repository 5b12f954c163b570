import Bryllite.NodeServerMono.Calls
import Mathlib.Data.List.Chain

/-!
# A round and its block time

A round starts at a poll with some time context, its window; the server keeps
no note of it. `Windowed` is a server with this note beside it. A later poll
of the round is `InWindow` if it takes the round on in its window only, and
abandons it once the window is over. The code does so exactly when no poll
after the window finds the round where the clock does not tell: in the proof
of participation and the propose step, in the vote step up to 15 seconds, in
the commit step from 5 seconds on (`window_iff`). Polls at most four seconds
apart never do (`inWindow_of_gaps`).
-/

namespace Bryllite.NodeServerMono

open Bryllite.Framework

variable {L : Core} {n : Nat}

/-- The time of a poll. -/
def Event.time : Event L → Option Nat
  | .call _ => none
  | .poll t _ => some t

/-- The clock readings of the polls of a run. -/
def readings (es : List (Event L)) : List Nat := es.filterMap Event.time

/-- A server, and the time context in which the current round started. -/
structure Windowed (L : Core) where
  recorded : Recorded L := .init
  window : Option Nat := none

namespace Windowed

/-- The window after the action of a poll at `t`. -/
def nextWindow (t : Nat) (window : Option Nat) : Action L → Option Nat
  | .newRoundStart _ => some (timeContext t)
  | .newBlockCommit _ | .consensusFail => none
  | _ => window

def step (n : Nat) (s : Windowed L) (e : Event L) : Windowed L where
  recorded := s.recorded.step n e
  window := match e with
    | .call _ => s.window
    | .poll t _ => nextWindow t s.window (poll n t s.recorded.server)

end Windowed

/-- The actions that take a round on: sending the proposal, sending the vote,
starting the commit, appending the block. -/
def Action.Proceeds : Action L → Prop
  | .proposeStart | .voteStart | .commitStart _ | .newBlockCommit _ => True
  | _ => False

/-- In a round, a poll takes the round on only in the window it started in,
and a poll after the window abandons it. -/
def InWindow (n : Nat) (s : Windowed L) : Event L → Prop
  | .call _ => True
  | .poll t _ => ∀ c ∈ s.window,
    ((poll n t s.recorded.server).Proceeds → timeContext t = c) ∧
      (c < timeContext t → poll n t s.recorded.server = .consensusFail)

/-- A poll after the window finds the round late in the vote step or, early in
a block time, in the commit step. -/
def Timely (s : Windowed L) : Event L → Prop
  | .call _ => True
  | .poll t _ => ∀ c ∈ s.window, c < timeContext t →
    s.recorded.server.currentStep = .vote ∧ bcpTimeoutVote < timeline t ∨
      s.recorded.server.currentStep = .commit ∧ timeline t < bcpTimeoutProofOfParticipation

instance (s : Windowed L) : DecidablePred (Timely s)
  | .call _ => inferInstanceAs (Decidable True)
  | .poll _ _ => inferInstanceAs (Decidable (∀ c ∈ s.window, _ → (_ ∨ _)))

theorem timeContext_mono {t t' : Nat} (h : t ≤ t') : timeContext t ≤ timeContext t' := Nat.div_le_div_right h

/-- A poll no earlier than the round's start is in its window exactly if it is timely. -/
theorem inWindow_iff {s : Windowed L} {t : Nat} {cs : List (Call L)}
    (h : ∀ c ∈ s.window, c ≤ timeContext t) :
    InWindow n s (.poll t cs) ↔ Timely s (.poll t cs) := by
  constructor
  · intro hw c hc hlt
    exact poll_consensusFail.mp ((hw c hc).2 hlt)
  · intro ht c hc
    have hf : c < timeContext t → poll n t s.recorded.server = .consensusFail :=
      fun hlt => poll_consensusFail.mpr (ht c hc hlt)
    refine ⟨fun hp => ?_, hf⟩
    by_contra hne
    have hlt : c < timeContext t := by
      have := h c hc
      omega
    rw [hf hlt] at hp
    exact hp

/-- The window of a later poll's server is no later than the poll. -/
theorem window_le {s : Windowed L} {t t' : Nat} {cs : List (Call L)} (htt : t ≤ t')
    (h : ∀ c ∈ s.window, c ≤ timeContext t') :
    ∀ c ∈ (s.step n (.poll t cs)).window, c ≤ timeContext t' := by
  intro c
  show c ∈ Windowed.nextWindow t s.window (poll n t s.recorded.server) → _
  unfold Windowed.nextWindow
  split
  · rintro ⟨⟩
    exact timeContext_mono htt
  · exact fun h => nomatch h
  · exact fun h => nomatch h
  · exact h c

theorem window_iff_of {es : List (Event L)} {s : Windowed L} (hes : (readings es).Pairwise (· ≤ ·))
    (h : ∀ c ∈ s.window, ∀ t ∈ readings es, c ≤ timeContext t) :
    Along (Windowed.step n) (InWindow n) s es ↔ Along (Windowed.step n) Timely s es := by
  induction es generalizing s with
  | nil => simp
  | cons e es ih =>
    cases e with
    | call c => exact and_congr Iff.rfl (ih hes h)
    | poll t cs =>
      have hes : (t :: readings es).Pairwise (· ≤ ·) := hes
      refine and_congr (inWindow_iff fun c hc => h c hc t List.mem_cons_self) (ih hes.of_cons ?_)
      intro c hc t' ht'
      exact window_le (List.rel_of_pairwise_cons hes ht')
        (fun c hc => h c hc t' (List.mem_cons_of_mem _ ht')) c hc

/-- With any calls and any polls at non-decreasing clock readings, every round
stays in its window if and only if no poll after the window finds the round
where the clock does not tell. -/
theorem window_iff {es : List (Event L)} (h : (readings es).Pairwise (· ≤ ·)) :
    Along (Windowed.step n) (InWindow n) {} es ↔ Along (Windowed.step n) Timely {} es :=
  window_iff_of h fun _ h => nomatch h

/-- A round of a single node, from the announcement to the block. -/
theorem window_iff_sample :
    let v : Core.sample.Header := (⟨1, 0, 7⟩ : SampleHeader)
    let es : List (Event Core.sample) := [.poll 20 [.newRound 0 1], .poll 20 [], .poll 26 [.propose 0 v],
      .poll 31 [.vote 0 v], .poll 31 [.commit 0 ⟨v, []⟩], .poll 32 [.clear]]
    Along (Windowed.step 1) (InWindow 1) {} es ∧
      (run (Windowed.step 1) {} (es.take 5)).window = some 1 ∧
      (run (Windowed.step 1) {} es).window = none := by
  intro v es
  exact ⟨(window_iff (by decide)).mpr (by decide), by decide, by decide⟩

/-- A round started at 20 is taken on at 46, in the next block time. -/
theorem window_late_propose :
    let es : List (Event Core.sample) := [.poll 20 [.newRound 0 1], .poll 20 [], .poll 46 []]
    (readings es).Pairwise (· ≤ ·) ∧ ¬Along (Windowed.step 1) (InWindow 1) {} es := by
  intro es
  refine ⟨by decide, fun h => ?_⟩
  have hp := (h.2.2.1 1 rfl).1 (show (Action.proposeStart : Action Core.sample).Proceeds from trivial)
  exact absurd hp (by decide)

/-! ## Polls close together -/

/-- After a poll at `u`, a round is in its window and within the time of its step. -/
def Held (s : Windowed L) (u : Nat) : Prop := ∀ c ∈ s.window, timeContext u = c ∧
  match s.recorded.server.currentStep with
  | .null | .waiting => False
  | .proofOfParticipation => timeline u ≤ bcpTimeoutProofOfParticipation
  | .propose => timeline u ≤ bcpTimeoutPropose
  | .vote => timeline u ≤ bcpTimeoutVote
  | .commit => True

section Held

variable {s : Windowed L} {u t : Nat}

theorem Held.timely (hs : Held s u) (ht : t ≤ u + 4) (cs : List (Call L)) : Timely s (.poll t cs) := by
  intro c hc hlt
  obtain ⟨hu, hst⟩ := hs c hc
  have hctx : timeContext u = u / 20 := rfl
  have hctx' : timeContext t = t / 20 := rfl
  have hline : timeline u = u % 20 := rfl
  have hline' : timeline t = t % 20 := rfl
  have h5 : bcpTimeoutProofOfParticipation = 5 := rfl
  have h10 : bcpTimeoutPropose = 10 := rfl
  have h15 : bcpTimeoutVote = 15 := rfl
  cases hstep : s.recorded.server.currentStep <;> simp only [hstep] at hst
  case commit => exact .inr ⟨rfl, by omega⟩
  -- In the other steps there is no time left for the poll to be after the window.
  all_goals omega

/-- A poll at most four seconds later keeps the round in its window. -/
theorem Held.poll (hs : Held s u) (hut : u ≤ t) (ht : t ≤ u + 4) (cs : List (Call L)) :
    Held (s.step n (.poll t cs)) t := by
  have htc : ∀ c ∈ s.window, NodeServerMono.poll n t s.recorded.server ≠ .consensusFail →
      timeContext t = c := by
    intro c hc hne
    have hle : c ≤ timeContext t := (hs c hc).1 ▸ timeContext_mono hut
    by_contra h
    exact hne (poll_consensusFail.mpr (hs.timely ht cs c hc (by omega)))
  intro c hc
  replace hc : c ∈ Windowed.nextWindow t s.window (NodeServerMono.poll n t s.recorded.server) := hc
  rw [show (s.step n (.poll t cs)).recorded.server.currentStep =
    (NodeServerMono.poll n t s.recorded.server).nextStep s.recorded.server.currentStep from
    s.recorded.step_currentStep t cs]
  cases hp : NodeServerMono.poll n t s.recorded.server with
  | idle =>
    rw [hp] at hc
    have h := hs c hc
    have hi := poll_idle hp
    refine ⟨htc c hc (by simp [hp]), ?_⟩
    simp only [Action.nextStep]
    cases hstep : s.recorded.server.currentStep <;> simp only [hstep] at h hi ⊢
    all_goals first | exact h.2 | exact hi
  | newRoundReady =>
    rw [hp] at hc
    have h := hs c hc
    rw [(poll_newRoundReady hp).1] at h
    exact h.2.elim
  | newRoundStart r =>
    rw [hp] at hc
    cases hc
    have := (poll_newRoundStart hp).2.1
    exact ⟨rfl, Nat.le_of_lt this⟩
  | proposeStart =>
    rw [hp] at hc
    have h := hs c hc
    have hu : timeline u ≤ bcpTimeoutProofOfParticipation := by
      have := h.2; rw [(poll_proposeStart hp).1] at this; exact this
    have hc' := htc c hc (by simp [hp])
    refine ⟨hc', ?_⟩
    have h1 : u / 20 = t / 20 := h.1.trans hc'.symm
    have h2 : u % 20 ≤ 5 := hu
    show t % 20 ≤ 10
    omega
  | voteStart =>
    rw [hp] at hc
    have h := hs c hc
    have hu : timeline u ≤ bcpTimeoutPropose := by
      have := h.2; rw [(poll_voteStart hp).1] at this; exact this
    have hc' := htc c hc (by simp [hp])
    refine ⟨hc', ?_⟩
    have h1 : u / 20 = t / 20 := h.1.trans hc'.symm
    have h2 : u % 20 ≤ 10 := hu
    show t % 20 ≤ 15
    omega
  | commitStart e =>
    rw [hp] at hc
    exact ⟨htc c hc (by simp [hp]), trivial⟩
  | newBlockCommit b => rw [hp] at hc; cases hc
  | consensusFail => rw [hp] at hc; cases hc

end Held

theorem along_timely {es : List (Event L)} {s : Windowed L} {u : Nat} (hs : Held s u)
    (h : (u :: readings es).IsChain fun t t' => t ≤ t' ∧ t' ≤ t + 4) :
    Along (Windowed.step n) Timely s es := by
  induction es generalizing s u with
  | nil => trivial
  | cons e es ih =>
    cases e with
    | call c =>
      refine ⟨trivial, ih (s := s.step n (.call c)) (fun c' hc' => ?_) h⟩
      rw [show (s.step n (.call c)).recorded.server.currentStep = s.recorded.server.currentStep from
        s.recorded.run_currentStep [c]]
      exact hs c' hc'
    | poll t cs =>
      obtain ⟨⟨hut, ht⟩, h⟩ := List.isChain_cons_cons.mp h
      exact ⟨hs.timely ht cs, ih (hs.poll hut ht cs) h⟩

/-- Polls at most four seconds apart keep every round in its window. -/
theorem inWindow_of_gaps {es : List (Event L)}
    (h : (readings es).IsChain fun t t' => t ≤ t' ∧ t' ≤ t + 4) :
    Along (Windowed.step n) (InWindow n) {} es := by
  have hs : Held ({} : Windowed L) ((readings es).headD 0) := fun c hc => nomatch hc
  have hc : ((readings es).headD 0 :: readings es).IsChain fun t t' => t ≤ t' ∧ t' ≤ t + 4 := by
    cases hr : readings es with
    | nil => exact List.isChain_singleton _
    | cons t ts => exact List.isChain_cons_cons.mpr ⟨⟨Nat.le_refl t, Nat.le_add_right t 4⟩, hr ▸ h⟩
  refine (window_iff ?_).mpr (along_timely hs hc)
  exact (h.imp fun _ _ h => h.1).pairwise

end Bryllite.NodeServerMono
