import Bryllite.NodeServerMono.Calls
import Bryllite.NodeServerMono.NodeServer

/-!
# What a poll does at every node

A poll of node `i` makes calls of the servers: those of its broadcasts at
every node, and some at its own (`callsAt`). Each server does these calls, and
the polled one moves to the step of its action (`main_server`): so what holds
of a server in any run of calls holds of every node. The chain of the polled
node alone can grow (`main_chain`).
-/

namespace Bryllite.NodeServerMono

open Bryllite.Framework

variable {L : Core} {n : Nat}

/-- The calls `cs` of the server of a node. -/
def NodeServer.calls (n : Nat) (cs : List (Call L)) : NodeServer L → NodeServer L :=
  mapServer fun s => run (Call.perform n) s cs

theorem NodeServer.calls_eq (s : NodeServer L) (cs : List (Call L)) :
    s.calls n cs =
      { s with bcpServer := (run (Call.perform n) s.bcpServer cs).setClock
                (run (Call.perform n) s.bcpServer cs).timeContext s.bcpServer.currentStep } := by
  rw [← run_perform_currentStep (n := n) s.bcpServer cs]; rfl

namespace NodeManager

variable (w : NodeManager L n) (i : Fin n) (t : Nat)

/-! ## Broadcasts -/

/-- A broadcast whose receivers send nothing, as one `sendallLocal`. -/
theorem foldl_modify (f : NodeServer L → NodeServer L) (l : List (Fin n)) :
    l.foldl (fun w k => modify k f w) w = { w with
      nodeServers := l.foldl (fun nodes k => Function.update nodes k (f (nodes k))) w.nodeServers } := by
  induction l generalizing w with
  | nil => rfl
  | cons k l ih => rw [List.foldl_cons, ih]; rfl

theorem sendall_newRound (r : Nat) : w.sendall i (.newRound r) = w.sendallLocal i (.newRound r) :=
  foldl_modify { w with sent := w.sent ++ [(i, .newRound r)] } _ (List.finRange n)

theorem sendall_propose (h : L.Header) : w.sendall i (.propose h) = w.sendallLocal i (.propose h) :=
  foldl_modify { w with sent := w.sent ++ [(i, .propose h)] } _ (List.finRange n)

theorem sendall_vote (h : L.Header) : w.sendall i (.vote h) = w.sendallLocal i (.vote h) :=
  foldl_modify { w with sent := w.sent ++ [(i, .vote h)] } _ (List.finRange n)

/-- The nodes that commit to `b` when asked to verify it. -/
def committers (b : L.Blk) : List (Fin n) :=
  (List.finRange n).filter fun j => (w.server j).getElectedBlockHeader n = some b.header ∧ L.verify b

/-- Commits do not change what is elected. -/
theorem elected_addVerifiedBlock (s : BcpServer L) (p : Int) (b : L.Blk) :
    ((s.addVerifiedBlock n p b).getD s).getElectedBlockHeader n = s.getElectedBlockHeader n := by
  rcases s.verified_cases n p b with h | ⟨-, -, h⟩ <;> rw [h]
  rfl

theorem foldl_verifyBlock (b : L.Blk) (l : List (Fin n)) :
    let js := l.filter fun j => (w.server j).getElectedBlockHeader n = some b.header ∧ L.verify b
    let w' := l.foldl (fun w k => w.onPeerMessageVerifyBlock k b) w
    (∀ k, w'.nodeServers k = (w.nodeServers k).calls n (js.map fun j => Call.commit (peerId j) b)) ∧
      w'.built = w.built ∧ w'.sent = w.sent ++ js.map fun j => (j, .commit b) := by
  induction l generalizing w with
  | nil => exact ⟨fun _ => rfl, rfl, (List.append_nil _).symm⟩
  | cons j l ih =>
    by_cases hj : (w.server j).getElectedBlockHeader n = some b.header ∧ L.verify b
    · have hw : w.onPeerMessageVerifyBlock j b = w.sendallLocal j (.commit b) := by
        simp [onPeerMessageVerifyBlock, hj.1, hj.2]
      have hk : ∀ k, (w.sendallLocal j (.commit b)).nodeServers k =
          (w.nodeServers k).calls n [.commit (peerId j) b] := fun k => broadcast_apply _ _ k
      have he : ∀ k, ((w.sendallLocal j (.commit b)).server k).getElectedBlockHeader n =
          (w.server k).getElectedBlockHeader n := fun k => by
        rw [server, hk k]
        exact elected_addVerifiedBlock (w.server k) _ b
      obtain ⟨h1, h2, h3⟩ := ih (w.sendallLocal j (.commit b))
      simp only [he] at h1 h3
      dsimp only
      rw [List.foldl_cons, hw, List.filter_cons_of_pos (by simpa using hj)]
      refine ⟨fun k => ?_, h2, ?_⟩
      · rw [h1 k, hk k]; rfl
      · rw [h3]; simp [sendallLocal]
    · have hw : w.onPeerMessageVerifyBlock j b = w := by
        unfold onPeerMessageVerifyBlock
        split
        · rfl
        · rename_i e he
          split
          · rfl
          · split
            · rfl
            · rename_i hne hv
              exact absurd ⟨by rw [he, not_not.mp hne], by simpa using hv⟩ hj
      dsimp only
      rw [List.foldl_cons, hw, List.filter_cons_of_neg (by simpa using hj)]
      exact ih w

section Parts

variable {w : NodeManager L n} {i : Fin n} (k : Fin n)

@[simp] theorem nodeServers_modify (f : NodeServer L → NodeServer L) :
    (w.modify i f).nodeServers k = if k = i then f (w.nodeServers i) else w.nodeServers k := by
  simp only [modify, Function.update_apply]

@[simp] theorem nodeServers_newRound (r : Nat) : (w.sendall i (.newRound r)).nodeServers k =
    (w.nodeServers k).calls n [.newRound (peerId i) r] := by
  rw [sendall_newRound]
  exact broadcast_apply _ _ k

@[simp] theorem nodeServers_propose (h : L.Header) : (w.sendall i (.propose h)).nodeServers k =
    (w.nodeServers k).calls n [.propose (peerId i) h] := by
  rw [sendall_propose]
  exact broadcast_apply _ _ k

@[simp] theorem nodeServers_vote (h : L.Header) : (w.sendall i (.vote h)).nodeServers k =
    (w.nodeServers k).calls n [.vote (peerId i) h] := by
  rw [sendall_vote]
  exact broadcast_apply _ _ k

@[simp] theorem nodeServers_verifyBlock (b : L.Blk) : (w.sendall i (.verifyBlock b)).nodeServers k =
    (w.nodeServers k).calls n ((w.committers b).map fun j => .commit (peerId j) b) :=
  (foldl_verifyBlock { w with sent := w.sent ++ [(i, .verifyBlock b)] } b (List.finRange n)).1 k

end Parts

/-! ## Polls -/

/-- The calls a poll of node `i` makes of the server of node `k`. -/
def callsAt (k : Fin n) : List (Call L) :=
  match poll n t (w.server i) with
  | .idle => []
  | .newRoundReady => [.newRound (peerId i) ((w.chain i).height + 1)]
  | .newRoundStart r =>
    if k = i then match (w.nodeServers i).createBlockFor w.built.length r with
      | none => []
      | some b =>
        let b := L.sign (w.nodeServers i).nodeAccount b
        [.candidate b, .userHeader (L.address (w.nodeServers i).nodeAccount) b.header]
    else []
  | .proposeStart => match (w.server i).selectUserBlockHeader with
    | none => []
    | some (_, h) =>
      (if k = i then [.candidate { (w.server i).candidateBlock with header := h }] else []) ++
        [.propose (peerId i) h]
  | .voteStart => match (w.server i).selectProposedBlockHeader with
    | none => []
    | some h => (if k = i then [.myVote h] else []) ++ [.vote (peerId i) h]
  | .commitStart e =>
    let b := (w.server i).candidateBlock
    if e = b.header then (w.committers b).map fun j => Call.commit (peerId j) b else []
  | .newBlockCommit _ | .consensusFail => if k = i then [.clear] else []

/-- The blocks a poll of node `i` builds. -/
def builtAt : List (Fin n × L.Blk) :=
  match poll n t (w.server i) with
  | .newRoundStart r => match (w.nodeServers i).createBlockFor w.built.length r with
    | none => []
    | some b => [(i, L.sign (w.nodeServers i).nodeAccount b)]
  | _ => []

/-- The messages a poll of node `i` broadcasts. -/
def sentAt : List (Fin n × NodeMessage L) :=
  match poll n t (w.server i) with
  | .newRoundReady => [(i, .newRound ((w.chain i).height + 1))]
  | .proposeStart => match (w.server i).selectUserBlockHeader with
    | none => []
    | some (_, h) => [(i, .propose h)]
  | .voteStart => match (w.server i).selectProposedBlockHeader with
    | none => []
    | some h => [(i, .vote h)]
  | .commitStart e =>
    let b := (w.server i).candidateBlock
    if e = b.header then (i, .verifyBlock b) :: (w.committers b).map fun j => (j, .commit b) else []
  | _ => []

/-- The start of the commit step: the node offers its candidate if that is elected. -/
theorem perform_commitStart (e : L.Header) : (callback i).perform t w (.commitStart e) =
    modify i (.mapServer (.setCurrentStep .commit))
      (if e = (w.server i).candidateBlock.header then w.sendall i (.verifyBlock (w.server i).candidateBlock)
      else w) := by
  show modify i _ (if decide (e = (w.server i).candidateBlock.header) = true then _ else _) = _
  by_cases he : e = (w.server i).candidateBlock.header
  · rw [if_pos he, if_pos (decide_eq_true he)]
  · rw [if_neg he, if_neg (by simpa using he)]

/-- A poll changes every node by its calls; the polled one, beyond them, in
its clock, and its chain by the block it commits. -/
theorem main_nodeServers (k : Fin n) : ∃ tc,
    (w.main (i, t)).nodeServers k =
      { nodeAccount := (w.nodeServers k).nodeAccount
        blockChain := match poll n t (w.server i) with
          | .newBlockCommit b => if k = i then (w.chain k).append b else w.chain k
          | _ => w.chain k
        bcpServer := (run (Call.perform n) (w.server k) (w.callsAt i t k)).setClock tc
          (if k = i then (poll n t (w.server i)).nextStep (w.server i).currentStep
            else (w.server k).currentStep) } := by
  rw [show w.main (i, t) = (callback i).perform t w (poll n t (w.server i)) from
    process_eq (callback i) t w]
  unfold callsAt
  by_cases hk : k = i
  · subst hk
    cases hp : poll n t (w.server k) with
    | idle => exact ⟨_, by simp only [Iface.perform, Action.nextStep, if_true]; rfl⟩
    | newRoundReady =>
      refine ⟨timeContext t, ?_⟩
      simp only [Iface.perform, callback, onBcpNewRoundReady, nodeServers_newRound, nodeServers_modify,
        Action.nextStep, chain, if_true]
      rw [server, ← run_perform_setClock]
      rfl
    | newRoundStart r =>
      simp only [Iface.perform, callback, onBcpNewRoundStartFor, nodeServers_modify, if_true]
      cases hb : (w.nodeServers k).createBlockFor w.built.length r with
      | none => exact ⟨_, rfl⟩
      | some b => exact ⟨_, by simp only [nodeServers_modify, if_true]; rfl⟩
    | proposeStart =>
      simp only [Iface.perform, callback, onBcpStepProposeStartFor, nodeServers_modify, if_true]
      cases hs : (w.server k).selectUserBlockHeader with
      | none => exact ⟨_, rfl⟩
      | some e => exact ⟨_, by simp only [nodeServers_modify, nodeServers_propose, if_true]; rfl⟩
    | voteStart =>
      simp only [Iface.perform, callback, onBcpStepVoteStartFor, nodeServers_modify, if_true]
      cases hs : (w.server k).selectProposedBlockHeader with
      | none => exact ⟨_, rfl⟩
      | some h => exact ⟨_, by simp only [nodeServers_modify, nodeServers_vote, if_true]; rfl⟩
    | commitStart e =>
      simp only [perform_commitStart, nodeServers_modify, if_true]
      by_cases he : e = (w.server k).candidateBlock.header
      · exact ⟨_, by simp only [if_pos he, nodeServers_verifyBlock]; rfl⟩
      · exact ⟨_, by simp only [if_neg he]; rfl⟩
    | newBlockCommit b =>
      exact ⟨_, by
        simp only [Iface.perform, callback, onBcpNewBlockCommitFor, nodeServers_modify, if_true]; rfl⟩
    | consensusFail =>
      exact ⟨_, by
        simp only [Iface.perform, callback, onBcpConsensusFail, nodeServers_modify, if_true]; rfl⟩
  · -- At the other nodes there is the broadcast alone.
    simp only [if_neg hk, List.nil_append]
    cases hp : poll n t (w.server i) with
    | idle => exact ⟨_, rfl⟩
    | newRoundReady =>
      simp only [Iface.perform, callback, onBcpNewRoundReady, nodeServers_newRound, nodeServers_modify,
        if_neg hk, chain]
      exact ⟨_, NodeServer.calls_eq _ _⟩
    | newRoundStart r =>
      simp only [Iface.perform, callback, onBcpNewRoundStartFor, nodeServers_modify, if_neg hk]
      cases hb : (w.nodeServers i).createBlockFor w.built.length r with
      | none => exact ⟨_, rfl⟩
      | some b => exact ⟨_, by simp only [nodeServers_modify, if_neg hk]; rfl⟩
    | proposeStart =>
      simp only [Iface.perform, callback, onBcpStepProposeStartFor, nodeServers_modify, if_neg hk]
      cases hs : (w.server i).selectUserBlockHeader with
      | none => exact ⟨_, rfl⟩
      | some e =>
        simp only [nodeServers_modify, nodeServers_propose, if_neg hk]
        exact ⟨_, NodeServer.calls_eq _ _⟩
    | voteStart =>
      simp only [Iface.perform, callback, onBcpStepVoteStartFor, nodeServers_modify, if_neg hk]
      cases hs : (w.server i).selectProposedBlockHeader with
      | none => exact ⟨_, rfl⟩
      | some h =>
        simp only [nodeServers_modify, nodeServers_vote, if_neg hk]
        exact ⟨_, NodeServer.calls_eq _ _⟩
    | commitStart e =>
      simp only [perform_commitStart, nodeServers_modify, if_neg hk]
      by_cases he : e = (w.server i).candidateBlock.header
      · simp only [if_pos he, nodeServers_verifyBlock]
        exact ⟨_, NodeServer.calls_eq _ _⟩
      · simp only [if_neg he]
        exact ⟨_, rfl⟩
    | newBlockCommit b =>
      exact ⟨_, by
        simp only [Iface.perform, callback, onBcpNewBlockCommitFor, nodeServers_modify, if_neg hk]; rfl⟩
    | consensusFail =>
      exact ⟨_, by
        simp only [Iface.perform, callback, onBcpConsensusFail, nodeServers_modify, if_neg hk]; rfl⟩

theorem main_server (k : Fin n) : ∃ tc, (w.main (i, t)).server k =
    (run (Call.perform n) (w.server k) (w.callsAt i t k)).setClock tc
      (if k = i then (poll n t (w.server i)).nextStep (w.server i).currentStep
        else (w.server k).currentStep) := by
  obtain ⟨tc, h⟩ := w.main_nodeServers i t k
  exact ⟨tc, by rw [server, h]⟩

theorem main_chain (k : Fin n) : (w.main (i, t)).chain k = match poll n t (w.server i) with
    | .newBlockCommit b => if k = i then (w.chain k).append b else w.chain k
    | _ => w.chain k := by
  obtain ⟨tc, h⟩ := w.main_nodeServers i t k
  rw [chain, h]

theorem main_built_sent : (w.main (i, t)).built = w.built ++ w.builtAt i t ∧
    (w.main (i, t)).sent = w.sent ++ w.sentAt i t := by
  rw [show w.main (i, t) = (callback i).perform t w (poll n t (w.server i)) from
    process_eq (callback i) t w]
  unfold builtAt sentAt
  cases hp : poll n t (w.server i) with
  | idle => exact ⟨(List.append_nil _).symm, (List.append_nil _).symm⟩
  | newRoundReady =>
    simp only [Iface.perform, callback, onBcpNewRoundReady, sendall_newRound, chain, nodeServers_modify,
      if_true]
    exact ⟨(List.append_nil _).symm, rfl⟩
  | newRoundStart r =>
    simp only [Iface.perform, callback, onBcpNewRoundStartFor]
    cases hb : (w.nodeServers i).createBlockFor w.built.length r with
    | none => exact ⟨(List.append_nil _).symm, (List.append_nil _).symm⟩
    | some b => exact ⟨rfl, (List.append_nil _).symm⟩
  | proposeStart =>
    simp only [Iface.perform, callback, onBcpStepProposeStartFor]
    cases hs : (w.server i).selectUserBlockHeader with
    | none => exact ⟨(List.append_nil _).symm, (List.append_nil _).symm⟩
    | some e =>
      simp only [sendall_propose]
      exact ⟨(List.append_nil _).symm, rfl⟩
  | voteStart =>
    simp only [Iface.perform, callback, onBcpStepVoteStartFor]
    cases hs : (w.server i).selectProposedBlockHeader with
    | none => exact ⟨(List.append_nil _).symm, (List.append_nil _).symm⟩
    | some h =>
      simp only [sendall_vote]
      exact ⟨(List.append_nil _).symm, rfl⟩
  | commitStart e =>
    rw [perform_commitStart]
    by_cases he : e = (w.server i).candidateBlock.header
    · simp only [if_pos he]
      have h := foldl_verifyBlock
        { w with sent := w.sent ++ [(i, .verifyBlock (w.server i).candidateBlock)] }
        (w.server i).candidateBlock (List.finRange n)
      exact ⟨h.2.1.trans (List.append_nil _).symm, h.2.2.trans (List.append_assoc ..)⟩
    · simp only [if_neg he]
      exact ⟨(List.append_nil _).symm, (List.append_nil _).symm⟩
  | newBlockCommit b => exact ⟨(List.append_nil _).symm, (List.append_nil _).symm⟩
  | consensusFail => exact ⟨(List.append_nil _).symm, (List.append_nil _).symm⟩

theorem main_currentStep (k : Fin n) : ((w.main (i, t)).server k).currentStep =
    if k = i then (poll n t (w.server i)).nextStep (w.server i).currentStep
    else (w.server k).currentStep := by
  obtain ⟨tc, h⟩ := w.main_server i t k
  rw [h]; rfl

/-- Only the node whose poll announces takes the time context of the clock. -/
theorem main_timeContext (k : Fin n) : ((w.main (i, t)).server k).timeContext =
    match poll n t (w.server i) with
    | .newRoundReady => if k = i then timeContext t else (w.server k).timeContext
    | _ => (w.server k).timeContext := by
  have hcalls : ∀ (s : NodeServer L) cs, (s.calls n cs).bcpServer.timeContext = s.bcpServer.timeContext :=
    fun s cs => run_perform_timeContext s.bcpServer cs
  have hmod : ∀ {w : NodeManager L n} {f : NodeServer L → NodeServer L},
      (∀ s, (f s).bcpServer.timeContext = s.bcpServer.timeContext) →
      ((w.modify i f).nodeServers k).bcpServer.timeContext = (w.nodeServers k).bcpServer.timeContext := by
    intro w f hf
    rw [nodeServers_modify]
    split
    · rename_i hk
      rw [hf, hk]
    · rfl
  rw [show w.main (i, t) = (callback i).perform t w (poll n t (w.server i)) from
    process_eq (callback i) t w]
  unfold server
  cases hp : poll n t (w.nodeServers i).bcpServer with
  | idle => rfl
  | newRoundReady =>
    simp only [Iface.perform, callback, onBcpNewRoundReady, nodeServers_newRound, nodeServers_modify, hcalls]
    split <;> rfl
  | newRoundStart r =>
    simp only [Iface.perform, callback, onBcpNewRoundStartFor]
    split
    · rw [hmod]
      exact fun _ => rfl
    · rw [hmod]
      · show ((modify i _ (modify i _ w)).nodeServers k).bcpServer.timeContext = _
        rw [hmod, hmod] <;> intro s
        · rfl
        · exact run_perform_timeContext (n := n) s.bcpServer [.userHeader _ _]
      · exact fun _ => rfl
  | proposeStart =>
    simp only [Iface.perform, callback, onBcpStepProposeStartFor]
    split
    · rw [hmod]
      exact fun _ => rfl
    · rw [hmod, nodeServers_propose, hcalls, hmod] <;> exact fun _ => rfl
  | voteStart =>
    simp only [Iface.perform, callback, onBcpStepVoteStartFor]
    split
    · rw [hmod]
      exact fun _ => rfl
    · rw [hmod, nodeServers_vote, hcalls, hmod] <;> exact fun _ => rfl
  | commitStart e =>
    rw [perform_commitStart, hmod]
    · split
      · rw [nodeServers_verifyBlock, hcalls]
      · rfl
    · exact fun _ => rfl
  | newBlockCommit b =>
    simp only [Iface.perform, callback, onBcpNewBlockCommitFor]
    rw [hmod, hmod] <;> exact fun _ => rfl
  | consensusFail =>
    simp only [Iface.perform, callback, onBcpConsensusFail]
    rw [hmod, hmod] <;> exact fun _ => rfl

/-! ## The calls, one by one -/

/-- A call that a poll of node `i` makes of the server of node `k`, and why. -/
inductive CallAt (w : NodeManager L n) (i : Fin n) (t : Nat) (k : Fin n) : Call L → Prop
  | newRound (hp : poll n t (w.server i) = .newRoundReady) :
    CallAt w i t k (.newRound (peerId i) ((w.chain i).height + 1))
  | candidate {r : Nat} (b : L.Blk) (hp : poll n t (w.server i) = .newRoundStart r) (hk : k = i) :
    CallAt w i t k (.candidate b)
  | userHeader {r : Nat} (b : L.Blk) (hp : poll n t (w.server i) = .newRoundStart r) (hk : k = i) :
    CallAt w i t k (.userHeader (L.address (w.nodeServers i).nodeAccount) b.header)
  | setHeader (b : L.Blk) (hp : poll n t (w.server i) = .proposeStart) (hk : k = i) :
    CallAt w i t k (.candidate b)
  | propose {a : L.Address} {h : L.Header} (hp : poll n t (w.server i) = .proposeStart)
    (hs : (w.server i).selectUserBlockHeader = some (a, h)) : CallAt w i t k (.propose (peerId i) h)
  | myVote (h : L.Header) (hp : poll n t (w.server i) = .voteStart) (hk : k = i) :
    CallAt w i t k (.myVote h)
  | vote {h : L.Header} (hp : poll n t (w.server i) = .voteStart)
    (hs : (w.server i).selectProposedBlockHeader = some h) : CallAt w i t k (.vote (peerId i) h)
  | commit (j : Fin n) (hp : poll n t (w.server i) = .commitStart (w.server i).candidateBlock.header) :
    CallAt w i t k (.commit (peerId j) (w.server i).candidateBlock)
  | clear (hp : poll n t (w.server i) = .consensusFail ∨ ∃ b, poll n t (w.server i) = .newBlockCommit b)
    (hk : k = i) : CallAt w i t k .clear

theorem callAt_of_mem {w : NodeManager L n} {i k : Fin n} {t : Nat} {c : Call L}
    (hc : c ∈ w.callsAt i t k) : CallAt w i t k c := by
  unfold callsAt at hc
  split at hc
  · simp at hc
  · rename_i hp
    obtain rfl := List.mem_singleton.mp hc
    exact .newRound hp
  · rename_i hp
    split at hc
    · rename_i hk
      split at hc
      · simp at hc
      · rcases List.mem_pair.mp hc with rfl | rfl
        · exact .candidate _ hp hk
        · exact .userHeader _ hp hk
    · simp at hc
  · rename_i hp
    split at hc
    · simp at hc
    · rename_i hs
      rcases List.mem_append.mp hc with hc | hc
      · split at hc
        · rename_i hk
          obtain rfl := List.mem_singleton.mp hc
          exact .setHeader _ hp hk
        · simp at hc
      · obtain rfl := List.mem_singleton.mp hc
        exact .propose hp hs
  · rename_i hp
    split at hc
    · simp at hc
    · rename_i hs
      rcases List.mem_append.mp hc with hc | hc
      · split at hc
        · rename_i hk
          obtain rfl := List.mem_singleton.mp hc
          exact .myVote _ hp hk
        · simp at hc
      · obtain rfl := List.mem_singleton.mp hc
        exact .vote hp hs
  · rename_i e hp
    dsimp only at hc
    split at hc
    · rename_i he
      obtain ⟨j, -, rfl⟩ := List.mem_map.mp hc
      exact .commit j (he ▸ hp)
    · simp at hc
  all_goals
    rename_i hp
    split at hc
    · rename_i hk
      obtain rfl := List.mem_singleton.mp hc
      exact .clear (by simp [hp]) hk
    · simp at hc

theorem callsAt_registered (k : Fin n) : ∀ c ∈ w.callsAt i t k, c.Registered n := by
  intro c hc
  have hj : ∀ j : Fin n, 0 ≤ peerId j ∧ peerId j < n := fun j => ⟨by simp [peerId], by simp [peerId]⟩
  cases callAt_of_mem hc with
  | newRound | propose | vote => exact hj i
  | commit j => exact hj j
  | candidate | userHeader | setHeader | myVote | clear => trivial

end NodeManager

end Bryllite.NodeServerMono
