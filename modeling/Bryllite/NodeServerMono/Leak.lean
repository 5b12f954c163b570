import Bryllite.NodeServerMono.Boxes

/-!
# What a round starts with

A round should start with empty boxes (`FreshStart`). A server empties them
when it leaves a round, and fills them in any step: so a message sent while
some node waits is in that node's boxes when it starts. When every proposal,
vote and candidate is sent while no node waits (`InStep`), a waiting node's
boxes are empty, and all rounds start so (`freshStart_of_inStep`).
-/

namespace Bryllite.NodeServerMono

open Bryllite.Framework

variable {L : Core} {n : Nat}

/-- In the poll at `t` the node sends its proposal, its vote or its candidate. -/
def BcpServer.Sends (n t : Nat) (s : BcpServer L) : Prop :=
  match poll n t s with
  | .proposeStart => s.selectUserBlockHeader.isSome
  | .voteStart => s.selectProposedBlockHeader.isSome
  | .commitStart electedHeader => electedHeader = s.candidateBlock.header
  | _ => False

instance (n t : Nat) : DecidablePred (BcpServer.Sends (L := L) n t) := fun s => by
  unfold BcpServer.Sends
  split <;> infer_instance

namespace NodeManager

/-- The poll moves the node from waiting into a round only if its boxes are empty. -/
def FreshStart (w : NodeManager L n) (e : Fin n × Nat) : Prop :=
  (w.server e.1).currentStep = .waiting →
    ((w.main e).server e.1).currentStep = .proofOfParticipation → (w.server e.1).BoxesEmpty

/-- A node that sends in the poll finds no node waiting. -/
def InStep (w : NodeManager L n) (e : Fin n × Nat) : Prop :=
  (w.server e.1).Sends n e.2 → ∀ k, (w.server k).currentStep ≠ .waiting

instance (w : NodeManager L n) : DecidablePred (FreshStart w) :=
  fun _ => inferInstanceAs (Decidable (_ → _ → _))

instance (w : NodeManager L n) : DecidablePred (InStep w) :=
  fun _ => inferInstanceAs (Decidable (_ → ∀ _, _))

variable {w : NodeManager L n} {i : Fin n} {t : Nat}

/-- A poll in step leaves the boxes of waiting nodes empty. -/
theorem boxes_of_waiting (hw : ∀ k, (w.server k).currentStep = .waiting → (w.server k).boxes = {})
    (hs : InStep w (i, t)) (k : Fin n) (hk : ((w.main (i, t)).server k).currentStep = .waiting) :
    ((w.main (i, t)).server k).boxes = {} := by
  rw [main_currentStep] at hk
  rw [main_boxes]
  unfold callsAt
  unfold InStep BcpServer.Sends at hs
  by_cases hki : k = i
  · subst hki
    rw [if_pos rfl] at hk
    cases hp : poll n t (w.server k) with
    | idle => exact hw k (by rwa [hp] at hk)
    | newRoundReady =>
      rw [hp] at hk
      rw [run_cons, Boxes.record_newRound, run_nil]
      exact hw k hk
    | newRoundStart r => rw [hp] at hk; cases hk
    | proposeStart => rw [hp] at hk; cases hk
    | voteStart => rw [hp] at hk; cases hk
    | commitStart e => rw [hp] at hk; cases hk
    | newBlockCommit b => rw [if_pos rfl]; rfl
    | consensusFail => rw [if_pos rfl]; rfl
  · rw [if_neg hki] at hk
    have hb := hw k hk
    simp only [if_neg hki, List.nil_append]
    cases hp : poll n t (w.server i) with
    | idle => exact hb
    | newRoundReady => rwa [run_cons, Boxes.record_newRound, run_nil]
    | newRoundStart r => exact hb
    | proposeStart =>
      -- The other nodes record a proposal, so none of them waits.
      simp only [hp] at hs ⊢
      cases hu : (w.server i).selectUserBlockHeader with
      | none => exact hb
      | some e => exact absurd hk (hs (by rw [hu]; rfl) k)
    | voteStart =>
      simp only [hp] at hs ⊢
      cases hv : (w.server i).selectProposedBlockHeader with
      | none => exact hb
      | some h => exact absurd hk (hs (by rw [hv]; rfl) k)
    | commitStart e =>
      simp only [hp] at hs ⊢
      by_cases he : e = (w.server i).candidateBlock.header
      · exact absurd hk (hs he k)
      · rw [if_neg he]; exact hb
    | newBlockCommit b => exact hb
    | consensusFail => exact hb

/-- Where the nodes send in step, every round starts with empty boxes. -/
theorem freshStart_of_inStep {accounts : Fin n → L.Account} {es : List (Fin n × Nat)}
    (h : Along main InStep (start accounts) es) : Along main FreshStart (start accounts) es := by
  refine along_of_inv (I := fun w : NodeManager L n =>
    ∀ k, (w.server k).currentStep = .waiting → (w.server k).boxes = {})
    (fun w e hw he => boxes_of_waiting hw he) (fun w e hw _ hs _ => ?_) (fun _ _ => rfl) h
  exact BcpServer.boxesEmpty_iff.mpr (hw e.1 hs)

/-- Two rounds of two nodes: in the first both send in step, and the node that
built the block appends it first. -/
theorem freshStart_of_inStep_sample :
    let es : List (Fin 2 × Nat) := [(0, 20), (1, 20), (0, 20), (1, 20), (0, 26), (1, 26), (0, 31), (1, 31),
      (0, 31), (1, 31), (0, 31), (1, 31), (0, 40), (1, 40), (0, 40), (1, 40)]
    let w : NodeManager Core.sample 2 := start fun i => (i.val : Nat)
    Along main FreshStart w es ∧ ((run main w es).chain 1).height = 1 ∧
      ((run main w es).server 1).currentStep = .proofOfParticipation :=
  ⟨freshStart_of_inStep (by decide +kernel), by decide +kernel, by decide +kernel⟩

/-- Node 1 of two is not polled in time to start with node 0: when it starts, in
the next block time, node 0's proposal is in its box. -/
theorem freshStart_late :
    let es : List (Fin 2 × Nat) := [(0, 20), (1, 20), (0, 20), (0, 26), (1, 40), (1, 40)]
    let w : NodeManager Core.sample 2 := start fun i => (i.val : Nat)
    (es.map (·.2)).Pairwise (· ≤ ·) ∧ ¬Along main FreshStart w es := by
  decide +kernel

end NodeManager

end Bryllite.NodeServerMono
