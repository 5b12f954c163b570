import Bryllite.Bcp.NodeManager

/-!
# The phases of a node (bcp.cpp)

Beside the timer, two message handlers change the state of a node, and neither
looks at it. A node keeps its majority of new-round messages until it is back
in waiting, so in propose, vote and commit any message of one more node sends
it back; and a majority of votes sends it to commit from where it is. A node
goes through its phases in order exactly if neither happens (`phases_iff`), and
both happen among nodes polled in turn (`phases_skip`).
-/

namespace Bryllite.Bcp

open Bryllite.Framework

variable {L : Lib} {n : Nat}

/-- The states that may follow. -/
def NodeState.next : NodeState → List NodeState
  | .null => [.waiting]
  | .waiting => [.newRound]
  | .newRound => [.propose]
  | .propose => [.vote]
  | .vote => [.commit, .waiting]
  | .commit => [.waiting]

/-- A node in the first state stays or goes to the next phase. -/
def NodeState.Moves (a b : NodeState) : Prop := b = a ∨ b ∈ a.next

instance (a b : NodeState) : Decidable (a.Moves b) := inferInstanceAs (Decidable (_ ∨ _))

namespace Node

/-- The event moves the node along its phases. -/
def Forward (s : Node L n) (e : Nat × Event L n) : Prop := s.nodeState.Moves (s.step e).nodeState

/-- A new-round message reaches a node in propose, vote or commit from a node
that is recorded only, and a vote that makes a majority reaches it in vote or
commit. -/
def Timely (s : Node L n) (e : Nat × Event L n) : Prop :=
  match e.2 with
  | .message sender (.newRound _) =>
    s.newRoundMessages.contains sender = true ∨ s.nodeState = .waiting ∨ s.nodeState = .newRound
  | .message sender (.vote header) =>
    (s.recordVote sender header).findMajorVoted = none ∨ s.nodeState = .vote ∨ s.nodeState = .commit
  | _ => True

/-- A node that has left waiting has a majority of new-round messages. -/
structure Started (s : Node L n) : Prop where
  ne_null : s.nodeState ≠ .null
  majority : s.nodeState ≠ .waiting → n < s.newRoundMessages.size * 2

variable {s : Node L n} {stamp : Nat}

/-- A started node that goes to another phase. -/
theorem Started.setState (h : n < s.newRoundMessages.size * 2) {state : NodeState} (hn : state ≠ .null) :
    (s.setState stamp state).1.Started := by
  refine ⟨by rwa [nodeState_setState], fun hw => ?_⟩
  rw [nodeState_setState] at hw
  rwa [(setState_keeps hw).1]

theorem Started.of_eq {s' : Node L n} (hs : s.Started) (h : s'.nodeState = s.nodeState)
    (hm : s'.newRoundMessages = s.newRoundMessages) : s'.Started := by
  refine ⟨h ▸ hs.ne_null, fun hw => ?_⟩
  rw [hm]
  exact hs.majority (h ▸ hw)

theorem Started.of_kept {s' : Node L n} (hs : s.Started) (h : s.Kept s') : s'.Started :=
  hs.of_eq h.nodeState h.newRoundMessages

/-- The timer moves the node along, and it stays started. -/
theorem Started.onMain (hs : s.Started) (timestamp : Nat) :
    s.nodeState.Moves (s.onMain timestamp stamp).1.nodeState ∧ (s.onMain timestamp stamp).1.Started := by
  have hstay : s.nodeState.Moves s.nodeState ∧ s.Started := ⟨.inl rfl, hs⟩
  have hmove : ∀ state, state ∈ s.nodeState.next → s.nodeState ≠ .waiting → state ≠ .null →
      s.nodeState.Moves (s.setState stamp state).1.nodeState ∧ (s.setState stamp state).1.Started :=
    fun state hm hw hn => ⟨.inr (by rwa [nodeState_setState]), .setState (hs.majority hw) hn⟩
  unfold Node.onMain
  dsimp only
  split
  · exact hstay
  · split
    · exact ⟨.inl rfl, hs.of_eq rfl rfl⟩
    · exact hstay
  all_goals
    rename_i h
    split
    · exact hmove _ (by simp [h, NodeState.next]) (by simp [h]) (by simp)
    · exact hstay

theorem Started.newRound_iff (hs : s.Started) (sender : Fin n) (blockNumber : Nat) :
    (s.nodeState.Moves (s.onMessageNewRound stamp sender blockNumber).1.nodeState ↔
      s.newRoundMessages.contains sender = true ∨ s.nodeState = .waiting ∨ s.nodeState = .newRound) ∧
    (s.onMessageNewRound stamp sender blockNumber).1.Started := by
  unfold onMessageNewRound
  split
  · rename_i hc
    exact ⟨iff_of_true (.inl rfl) (.inl hc), hs⟩
  · rename_i hc
    have hsize : (s.newRoundMessages.insert sender blockNumber).size = s.newRoundMessages.size + 1 := by
      rw [Std.TreeMap.size_insert, if_neg]
      exact hc
    dsimp only
    split
    · rename_i hq
      refine ⟨?_, .setState hq (by simp)⟩
      rw [nodeState_setState]
      cases h : s.nodeState with
      | null => exact absurd h hs.ne_null
      | waiting | newRound => simp [NodeState.Moves, NodeState.next]
      | propose | vote | commit => simpa [NodeState.Moves, NodeState.next] using hc
    · rename_i hq
      -- Without a majority, the node is waiting.
      have hw : s.nodeState = .waiting := by
        refine Decidable.byContradiction fun hw => ?_
        have := hs.majority hw
        omega
      exact ⟨iff_of_true (.inl rfl) (.inr (.inl hw)), hs.ne_null, fun h => absurd hw h⟩

theorem Started.vote_iff (hs : s.Started) (sender : Fin n) (header : L.Header) :
    (s.nodeState.Moves (s.onMessageVote stamp sender header).1.nodeState ↔
      (s.recordVote sender header).findMajorVoted = none ∨ s.nodeState = .vote ∨ s.nodeState = .commit) ∧
    ((s.nodeState = .vote ∨ s.nodeState = .commit) ∨ (s.recordVote sender header).findMajorVoted = none →
      (s.onMessageVote stamp sender header).1.Started) := by
  obtain ⟨h1, h2⟩ := kept_recordVote s sender header
  unfold onMessageVote
  dsimp only
  generalize s.recordVote sender header = s' at h1 h2
  split
  · rename_i h hm
    constructor
    · rw [nodeState_setState, hm]
      cases hst : s.nodeState with
      | null => exact absurd hst hs.ne_null
      | _ => simp [NodeState.Moves, NodeState.next]
    · intro hst
      refine .setState ?_ (by simp)
      show n < s'.newRoundMessages.size * 2
      rw [h2]
      refine hs.majority fun hw => ?_
      simp [hw, hm] at hst
  · rename_i hm
    exact ⟨iff_of_true (.inl h1) (.inl hm), fun _ => hs.of_eq h1 h2⟩

/-- An event moves a started node along its phases exactly if it is timely, -/
theorem Started.forward_iff (hs : s.Started) (e : Nat × Event L n) : s.Forward e ↔ s.Timely e := by
  obtain ⟨stamp, e⟩ := e
  cases e with
  | main timestamp => exact iff_of_true (hs.onMain timestamp).1 trivial
  | message sender m =>
    cases m with
    | newRound blockNumber => exact (hs.newRound_iff sender blockNumber).1
    | vote header => exact (hs.vote_iff sender header).1
    | propose | blockReq | blockAck | commit =>
      exact iff_of_true (.inl (kept_onMessage (by simp) (by simp) s stamp sender).nodeState) trivial

/-- and is started after it. -/
theorem Started.step (hs : s.Started) {e : Nat × Event L n} (he : s.Timely e) : (s.step e).Started := by
  obtain ⟨stamp, e⟩ := e
  cases e with
  | main timestamp => exact (hs.onMain timestamp).2
  | message sender m =>
    cases m with
    | newRound blockNumber => exact (hs.newRound_iff sender blockNumber).2
    | vote header => exact (hs.vote_iff sender header).2 (Or.symm he)
    | propose | blockReq | blockAck | commit =>
      exact hs.of_kept (kept_onMessage (by simp) (by simp) s stamp sender)

end Node

/-- In a run of a node, every event moves it along its phases, exactly if every
event is timely. -/
theorem phases_iff (keyPair : L.Account) (blockCommitCnt : Nat) (es : List (Nat × Event L n)) :
    Along Node.step Node.Forward (.start keyPair blockCommitCnt) es ↔
      Along Node.step Node.Timely (.start keyPair blockCommitCnt) es :=
  along_iff_of_inv (I := Node.Started) (fun _ e hs => hs.forward_iff e) (fun _ _ hs he => hs.step he)
    ⟨NodeState.noConfusion, fun h => absurd rfl h⟩

/-- The votes of nodes 0 and 1 of three send node 2 from propose to commit. In
the next window node 2, the first to be polled, goes to waiting and announces a
round, which sends nodes 0 and 1 from commit to a new round. -/
theorem phases_skip :
    let w (es : List (Fin 3 × Nat)) : NodeManager Lib.sample 3 :=
      run NodeManager.onMain (.start (fun k => (k.val : Nat)) fun _ => 0) es
    let es := [(0, 0), (1, 0), (0, 5000), (1, 5000), (2, 5000), (0, 10000)]
    ((w es).nodes 2).nodeState = .propose ∧
      ¬ ((w es).nodes 2).Forward (0, .message 1 (.vote ((w es).nodes 1).findLowestProposed)) ∧
      ((w (es ++ [(1, 10000)])).nodes 2).nodeState = .commit ∧
      ((w (es ++ [(1, 10000), (2, 30000)])).nodes 0).nodeState = .commit ∧
      ((w (es ++ [(1, 10000), (2, 30000), (2, 30000)])).nodes 0).nodeState = .newRound := by
  unfold Node.Forward
  decide +kernel

end Bryllite.Bcp
