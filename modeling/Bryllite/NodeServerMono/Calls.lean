import Bryllite.Framework.Run
import Bryllite.NodeServerMono.BcpServer

/-!
# Runs of a single server

What can happen to a server: a call of one of its functions (`Call`), and a
poll, whose callback makes any calls it likes (`Event`). A server is
`Recorded` with the calls since its last clear. An event does the calls it
makes (`Recorded.executed`), and beyond that changes the step and the time
context alone (`step_eq`), which no call reads: so an invariant of the maps is
proved for the calls (`Recorded.run_inv_calls`).
-/

namespace Bryllite.NodeServerMono

open Bryllite.Framework

/-- A call of a function of the server, other than `process`. -/
inductive Call (L : Core) where
  | newRound (peerId : Int) (roundIdx : Nat)
  | userHeader (address : L.Address) (header : L.Header)
  | propose (peerId : Int) (header : L.Header)
  | vote (peerId : Int) (header : L.Header)
  | commit (peerId : Int) (b : L.Blk)
  | clear
  | candidate (b : L.Blk)
  | myVote (header : L.Header)

variable {L : Core} {n : Nat}

/-- What a call does to the server of one of `n` peers. -/
def Call.perform (n : Nat) (s : BcpServer L) : Call L → BcpServer L
  | .newRound p r => (s.appendNewRoundMessageFor p r).getD s
  | .userHeader a h => (s.appendUserBlockHeaderFor a h).getD s
  | .propose p h => (s.appendProposedBlockHeaderFor p h).getD s
  | .vote p h => (s.voteBlockHeaderFor p h).getD s
  | .commit p b => (s.addVerifiedBlock n p b).getD s
  | .clear => s.clearIntermediateData
  | .candidate b => s.setCandidateBlock b
  | .myVote h => s.setMyVote h

/-- The call is not a message of a peer other than the peers `0, …, n - 1`. -/
def Call.Registered (n : Nat) : Call L → Prop
  | .newRound p _ | .propose p _ | .vote p _ | .commit p _ => 0 ≤ p ∧ p < n
  | _ => True

instance (n : Nat) : DecidablePred (Call.Registered (L := L) n)
  | .newRound _ _ | .propose _ _ | .vote _ _ | .commit _ _ => inferInstanceAs (Decidable (_ ∧ _))
  | .userHeader _ _ | .clear | .candidate _ | .myVote _ => inferInstanceAs (Decidable True)

/-- No call reads the step or the time context. -/
theorem Call.perform_setClock (s : BcpServer L) (c : Call L) (tc : Nat) (st : BcpStep) :
    c.perform n (s.setClock tc st) = (c.perform n s).setClock tc st := by
  have he : ∀ s : BcpServer L, (s.setClock tc st).getElectedBlockHeader n = s.getElectedBlockHeader n :=
    fun _ => rfl
  cases c with
  | newRound p r =>
    by_cases h : s.newRoundMessages.contains p <;>
      simp [perform, BcpServer.appendNewRoundMessageFor, BcpServer.setClock, h]
  | userHeader a h' =>
    by_cases h : s.userBlockHeaders.contains a <;>
      simp [perform, BcpServer.appendUserBlockHeaderFor, BcpServer.setClock, h]
  | propose p h' =>
    by_cases h : s.proposedBlockHeaders.contains p <;>
      simp [perform, BcpServer.appendProposedBlockHeaderFor, BcpServer.setClock, h]
  | vote p h' =>
    by_cases h : s.voteBox.contains p <;>
      simp [perform, BcpServer.voteBlockHeaderFor, BcpServer.setClock, h]
  | commit p b =>
    simp only [perform, BcpServer.addVerifiedBlock, he]
    by_cases h : s.verifiedBlocks.contains p
    · simp [BcpServer.setClock, h]
    · by_cases h' : s.getElectedBlockHeader n = some b.header <;> simp [BcpServer.setClock, h, h']
  | clear => rfl
  | candidate b => rfl
  | myVote h => rfl

theorem run_perform_setClock (s : BcpServer L) (cs : List (Call L)) (tc : Nat) (st : BcpStep) :
    run (Call.perform n) (s.setClock tc st) cs =
      (run (Call.perform n) s cs).setClock tc st := by
  induction cs generalizing s with
  | nil => rfl
  | cons c cs ih => rw [run_cons, run_cons, Call.perform_setClock, ih]

/-- No call changes the step or the time context. -/
theorem run_perform_currentStep (s : BcpServer L) (cs : List (Call L)) :
    (run (Call.perform n) s cs).currentStep = s.currentStep := by
  have h := run_perform_setClock (n := n) s cs s.timeContext s.currentStep
  rw [show s.setClock s.timeContext s.currentStep = s from rfl] at h
  rw [h]; rfl

theorem run_perform_timeContext (s : BcpServer L) (cs : List (Call L)) :
    (run (Call.perform n) s cs).timeContext = s.timeContext := by
  have h := run_perform_setClock (n := n) s cs s.timeContext s.currentStep
  rw [show s.setClock s.timeContext s.currentStep = s from rfl] at h
  rw [h]; rfl

/-- A server and the calls since its last clear. -/
structure Recorded (L : Core) where
  server : BcpServer L
  calls : List (Call L) := []

namespace Recorded

/-- A server just started. -/
def init : Recorded L := { server := ({} : BcpServer L).start }

/-- A call. -/
def call (n : Nat) (s : Recorded L) (c : Call L) : Recorded L where
  server := c.perform n s.server
  calls := match c with
    | .clear => []
    | c => s.calls ++ [c]

/-- `s` at another step and time context. -/
def setClock (s : Recorded L) (timeContext : Nat) (step : BcpStep) : Recorded L :=
  { s with server := s.server.setClock timeContext step }

/-- The callbacks of a node that calls the server back with `calls`. -/
def scripted (n : Nat) (calls : List (Call L)) : Iface L (Recorded L) where
  server := server
  modify f s := { s with server := f s.server }
  onBcpNewRoundReady s := run (call n) s calls
  onBcpNewRoundStartFor _ s := run (call n) s calls
  onBcpStepProposeStartFor s := run (call n) s calls
  onBcpStepVoteStartFor s := run (call n) s calls
  onBcpStepCommitStartFor _ _ s := run (call n) s calls
  onBcpNewBlockCommitFor _ s := run (call n) s calls
  onBcpConsensusFail s := run (call n) s calls
  allPeerCount := n

end Recorded

/-- A call, or a poll at `timestamp` whose callback makes `calls`. -/
inductive Event (L : Core) where
  | call (c : Call L)
  | poll (timestamp : Nat) (calls : List (Call L))

/-- The calls of an event. -/
def Event.calls : Event L → List (Call L)
  | .call c => [c]
  | .poll _ cs => cs

namespace Recorded

/-- What an event does. -/
def step (n : Nat) (s : Recorded L) : Event L → Recorded L
  | .call c => s.call n c
  | .poll t cs => process (scripted n cs) t s

/-- The calls an event makes: a poll that calls nothing back makes none. -/
def executed (n : Nat) (s : Recorded L) : Event L → List (Call L)
  | .call c => [c]
  | .poll t cs => match NodeServerMono.poll n t s.server with
    | .idle => []
    | _ => cs

theorem executed_subset {s : Recorded L} {e : Event L} {c : Call L} (h : c ∈ s.executed n e) :
    c ∈ e.calls := by
  cases e with
  | call c => exact h
  | poll t cs =>
    simp only [executed] at h
    split at h
    · cases h
    · exact h

theorem run_setClock (s : Recorded L) (cs : List (Call L)) (tc : Nat) (st : BcpStep) :
    run (call n) (s.setClock tc st) cs = (run (call n) s cs).setClock tc st := by
  induction cs generalizing s with
  | nil => rfl
  | cons c cs ih =>
    have h : (s.setClock tc st).call n c = (s.call n c).setClock tc st := by
      simp only [call, setClock, Call.perform_setClock]
    rw [run_cons, run_cons, h, ih]

/-- An event makes its calls, and changes nothing else but step and time context. -/
theorem step_eq (s : Recorded L) (e : Event L) :
    ∃ tc st, s.step n e = (run (call n) s (s.executed n e)).setClock tc st := by
  cases e with
  | call c => exact ⟨_, _, rfl⟩
  | poll t cs =>
    have hp : s.step n (.poll t cs) = (scripted n cs).perform t s (NodeServerMono.poll n t s.server) :=
      process_eq (scripted n cs) t s
    rw [hp]
    simp only [executed]
    cases NodeServerMono.poll n t s.server with
    | idle => exact ⟨_, _, rfl⟩
    | newRoundReady =>
      exact ⟨_, _, run_setClock (n := n) s cs (timeContext t) s.server.currentStep⟩
    | newRoundStart r => exact ⟨_, _, rfl⟩
    | proposeStart => exact ⟨_, _, rfl⟩
    | voteStart => exact ⟨_, _, rfl⟩
    | commitStart h => exact ⟨_, _, rfl⟩
    | newBlockCommit b => exact ⟨_, _, rfl⟩
    | consensusFail => exact ⟨_, _, rfl⟩

/-- No call changes the step, -/
theorem run_currentStep (s : Recorded L) (cs : List (Call L)) :
    (run (call n) s cs).server.currentStep = s.server.currentStep := by
  have h := run_setClock (n := n) s cs s.server.timeContext s.server.currentStep
  rw [show s.setClock s.server.timeContext s.server.currentStep = s from rfl] at h
  exact congrArg (fun s => s.server.currentStep) h

/-- so a poll leads to the step of its action. -/
theorem step_currentStep (s : Recorded L) (t : Nat) (cs : List (Call L)) :
    (s.step n (.poll t cs)).server.currentStep =
      (NodeServerMono.poll n t s.server).nextStep s.server.currentStep := by
  rw [show s.step n (.poll t cs) = (scripted n cs).perform t s (NodeServerMono.poll n t s.server) from
    process_eq (scripted n cs) t s]
  cases NodeServerMono.poll n t s.server with
  | newRoundReady => exact run_currentStep _ cs
  | _ => rfl

/-- `P` holds of every call made in a run. -/
abbrev AlongCalls (n : Nat) (P : Recorded L → Call L → Prop) : Recorded L → List (Event L) → Prop :=
  Along (step n) fun s e => Along (call n) P s (s.executed n e)

theorem alongCalls_of_forall {P : Call L → Prop} {s : Recorded L} {es : List (Event L)}
    (h : ∀ e ∈ es, ∀ c ∈ e.calls, P c) : AlongCalls n (fun _ c => P c) s es :=
  (along_of_forall h).imp fun _ _ he => along_of_forall fun c hc => he c (executed_subset hc)

/-- An invariant of the calls that satisfy `P`, and of step and time context,
is one of the runs whose calls satisfy `P`. -/
theorem run_inv_calls {I : Recorded L → Prop} {P : Recorded L → Call L → Prop}
    (hcall : ∀ s c, I s → P s c → I (s.call n c)) (hclock : ∀ s tc st, I s → I (s.setClock tc st))
    {s : Recorded L} {es : List (Event L)} (hs : I s) (h : AlongCalls n P s es) :
    I (run (step n) s es) := by
  refine run_inv (fun s e hs he => ?_) hs h
  obtain ⟨tc, st, hst⟩ := s.step_eq (n := n) e
  rw [hst]
  exact hclock _ _ _ (run_inv hcall hs he)

end Recorded

end Bryllite.NodeServerMono
