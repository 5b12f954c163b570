import Bryllite.NodeServerMono.Delivery

/-!
# A round leaves no trace

At the end of a round a server clears its boxes, but not its candidate, its vote
and its commit block. Nothing reads them before a later round has set them: the
vote is never read, the commit block only while blocks are verified, the candidate
only in a round. So two servers that differ in no more than these (`Alike`) do the
same (`poll_congr`), and stay alike (`Alike.perform`): a node goes on after a round
as if its server had been started then (`round_traceless`).
-/

namespace Bryllite.NodeServerMono

open Bryllite.Framework

variable {L : Core} {n : Nat}

namespace BcpServer

/-- `s` with another candidate, vote and commit block. -/
def withLeftover (candidate : L.Blk) (vote : L.Header) (commit : L.Blk) (s : BcpServer L) : BcpServer L :=
  { s with candidateBlock := candidate, myVoteHeader := vote, commitBlock := commit }

/-- `s'` is `s` with another candidate, vote and commit block, which are those of
`s` where they can be read. -/
structure Alike (s s' : BcpServer L) : Prop where
  rest : ∃ b v c, s' = s.withLeftover b v c
  candidate : s.currentStep ≠ .waiting → s'.candidateBlock = s.candidateBlock
  commit : s.verifiedBlocks ≠ ∅ → s'.commitBlock = s.commitBlock

variable {s s' : BcpServer L}

theorem Alike.refl (s : BcpServer L) : Alike s s := ⟨⟨_, _, _, rfl⟩, fun _ => rfl, fun _ => rfl⟩

/-- A cleared server that waits is like any other server at its time context that
has been started. -/
theorem Alike.of_clear (s : BcpServer L) (tc : Nat) :
    Alike (s.clearIntermediateData.setClock tc .waiting) (({} : BcpServer L).setClock tc .waiting) :=
  ⟨⟨_, _, _, rfl⟩, fun h => absurd rfl h, fun h => absurd rfl h⟩

theorem Alike.setClock (h : Alike s s') (tc : Nat) {st : BcpStep}
    (hst : st ≠ .waiting → s'.candidateBlock = s.candidateBlock) :
    Alike (s.setClock tc st) (s'.setClock tc st) := by
  obtain ⟨⟨b, v, c, rfl⟩, -, hc⟩ := h
  exact ⟨⟨b, v, c, rfl⟩, hst, hc⟩

end BcpServer

/-! ## Calls -/

/-- The candidate a call sets, -/
def Call.candidateOr (b : L.Blk) : Call L → L.Blk
  | .candidate b' => b'
  | _ => b

/-- and the vote. -/
def Call.myVoteOr (v : L.Header) : Call L → L.Header
  | .myVote v' => v'
  | _ => v

/-- A call does the same whatever the candidate, the vote and the commit block. -/
theorem Call.perform_withLeftover (s : BcpServer L) (c : Call L) (b : L.Blk) (v : L.Header) (cb : L.Blk) :
    ∃ cb', c.perform n (s.withLeftover b v cb) =
        (c.perform n s).withLeftover (c.candidateOr b) (c.myVoteOr v) cb' ∧
      ((c.perform n s).verifiedBlocks ≠ ∅ → (s.verifiedBlocks ≠ ∅ → cb = s.commitBlock) →
        cb' = (c.perform n s).commitBlock) := by
  cases c with
  | newRound p r =>
    simp only [perform, BcpServer.appendNewRoundMessageFor]
    by_cases h : s.newRoundMessages.contains p
    · rw [if_pos h, if_pos (show (s.withLeftover b v cb).newRoundMessages.contains p from h)]
      exact ⟨cb, rfl, fun hv hc => hc hv⟩
    · rw [if_neg h, if_neg (show ¬(s.withLeftover b v cb).newRoundMessages.contains p from h)]
      exact ⟨cb, rfl, fun hv hc => hc hv⟩
  | userHeader a hd =>
    simp only [perform, BcpServer.appendUserBlockHeaderFor]
    by_cases h : s.userBlockHeaders.contains a
    · rw [if_pos h, if_pos (show (s.withLeftover b v cb).userBlockHeaders.contains a from h)]
      exact ⟨cb, rfl, fun hv hc => hc hv⟩
    · rw [if_neg h, if_neg (show ¬(s.withLeftover b v cb).userBlockHeaders.contains a from h)]
      exact ⟨cb, rfl, fun hv hc => hc hv⟩
  | propose p hd =>
    simp only [perform, BcpServer.appendProposedBlockHeaderFor]
    by_cases h : s.proposedBlockHeaders.contains p
    · rw [if_pos h, if_pos (show (s.withLeftover b v cb).proposedBlockHeaders.contains p from h)]
      exact ⟨cb, rfl, fun hv hc => hc hv⟩
    · rw [if_neg h, if_neg (show ¬(s.withLeftover b v cb).proposedBlockHeaders.contains p from h)]
      exact ⟨cb, rfl, fun hv hc => hc hv⟩
  | vote p hd =>
    simp only [perform, BcpServer.voteBlockHeaderFor]
    by_cases h : s.voteBox.contains p
    · rw [if_pos h, if_pos (show (s.withLeftover b v cb).voteBox.contains p from h)]
      exact ⟨cb, rfl, fun hv hc => hc hv⟩
    · rw [if_neg h, if_neg (show ¬(s.withLeftover b v cb).voteBox.contains p from h)]
      exact ⟨cb, rfl, fun hv hc => hc hv⟩
  | commit p bk =>
    -- A block that is taken is the commit block of both.
    simp only [perform, BcpServer.addVerifiedBlock]
    by_cases h : s.verifiedBlocks.contains p
    · rw [if_pos h, if_pos (show (s.withLeftover b v cb).verifiedBlocks.contains p from h)]
      exact ⟨cb, rfl, fun hv hc => hc hv⟩
    rw [if_neg h, if_neg (show ¬(s.withLeftover b v cb).verifiedBlocks.contains p from h)]
    by_cases he : s.getElectedBlockHeader n = some bk.header
    · rw [if_pos he, if_pos (show (s.withLeftover b v cb).getElectedBlockHeader n = _ from he)]
      exact ⟨bk, rfl, fun _ _ => rfl⟩
    · rw [if_neg he, if_neg (show ¬(s.withLeftover b v cb).getElectedBlockHeader n = _ from he)]
      exact ⟨cb, rfl, fun hv hc => hc hv⟩
  | clear => exact ⟨cb, rfl, fun hv => absurd rfl hv⟩
  | candidate b' => exact ⟨cb, rfl, fun hv hc => hc hv⟩
  | myVote v' => exact ⟨cb, rfl, fun hv hc => hc hv⟩

namespace BcpServer

variable {s s' : BcpServer L}

/-- Calls keep servers alike. -/
theorem Alike.perform (h : Alike s s') (c : Call L) : Alike (c.perform n s) (c.perform n s') := by
  obtain ⟨⟨b, v, cb, rfl⟩, hb, hc⟩ := h
  obtain ⟨cb', he, hcb⟩ := c.perform_withLeftover (n := n) s b v cb
  rw [he]
  refine ⟨⟨_, _, _, rfl⟩, fun hs => ?_, fun hv => hcb hv hc⟩
  have hstep : s.currentStep ≠ .waiting := by
    rwa [show (c.perform n s).currentStep = s.currentStep from run_perform_currentStep s [c]] at hs
  show c.candidateOr b = (c.perform n s).candidateBlock
  rw [show b = s.candidateBlock from hb hstep]
  cases c with
  | newRound p r =>
    simp only [Call.perform]
    rcases s.newRound_cases p r with h | ⟨-, h⟩ <;> rw [h] <;> rfl
  | userHeader a hd =>
    simp only [Call.perform]
    rcases s.userHeader_cases a hd with h | ⟨-, h⟩ <;> rw [h] <;> rfl
  | propose p hd =>
    simp only [Call.perform]
    rcases s.propose_cases p hd with h | ⟨-, h⟩ <;> rw [h] <;> rfl
  | vote p hd =>
    simp only [Call.perform]
    rcases s.vote_cases p hd with h | ⟨-, h⟩ <;> rw [h] <;> rfl
  | commit p bk =>
    simp only [Call.perform]
    rcases s.verified_cases n p bk with h | ⟨-, -, h⟩ <;> rw [h] <;> rfl
  | clear | candidate b' | myVote v' => rfl

theorem Alike.run (h : Alike s s') (cs : List (Call L)) :
    Alike (run (Call.perform n) s cs) (run (Call.perform n) s' cs) :=
  run_rel (P := fun _ _ => True) (fun _ _ c h _ => h.perform c) h along_true

/-- The start of a round that builds a block makes it the candidate. -/
theorem candidate_built (s : BcpServer L) (b : L.Blk) (a : L.Address) (h : L.Header) :
    (Framework.run (Call.perform n) s [.candidate b, .userHeader a h]).candidateBlock = b := by
  simp only [run_cons, run_nil, Call.perform]
  rcases (s.setCandidateBlock b).userHeader_cases a h with he | ⟨-, he⟩ <;> rw [he] <;> rfl

/-- The commit block is read only where it is that of both. -/
theorem Alike.findCommitBlock (h : Alike s s') : s'.findCommitBlock n = s.findCommitBlock n := by
  obtain ⟨⟨b, v, cb, rfl⟩, -, hc⟩ := h
  show (if qualifyVotes n ≤ s.verifiedBlocks.size then some cb else none) = _
  unfold BcpServer.findCommitBlock
  split
  · rename_i hq
    rw [show cb = s.commitBlock from hc fun h0 => ?_]
    rw [h0] at hq
    simp [qualifyVotes] at hq
  · rfl

/-- Polls of servers that are alike do the same. -/
theorem poll_congr (h : Alike s s') (t : Nat) : poll n t s' = poll n t s := by
  have hf := h.findCommitBlock (n := n)
  obtain ⟨⟨b, v, cb, rfl⟩, -, -⟩ := h
  unfold poll
  rw [hf]
  rfl

end BcpServer

/-! ## Nodes -/

/-- Nodes with one account and chain, and servers that are alike. -/
structure NodeServer.Alike (s s' : NodeServer L) : Prop where
  account : s'.nodeAccount = s.nodeAccount
  chain : s'.blockChain = s.blockChain
  server : s.bcpServer.Alike s'.bcpServer

theorem NodeServer.Alike.refl (s : NodeServer L) : s.Alike s := ⟨rfl, rfl, .refl _⟩

/-- A message to which a node sends nothing keeps nodes alike. -/
theorem NodeServer.Alike.onPeerMessage {s s' : NodeServer L} (h : s.Alike s') (sender : Int) (m : NodeMessage L) :
    (NodeServer.onPeerMessage n sender m s).Alike (NodeServer.onPeerMessage n sender m s') := by
  obtain ⟨ha, hb, hs⟩ := h
  cases m with
  | blockAck b => exact ⟨ha, congrArg (·.append b) hb, hs⟩
  | newRound r => exact ⟨ha, hb, hs.perform (n := n) (.newRound sender r)⟩
  | propose h => exact ⟨ha, hb, hs.perform (n := n) (.propose sender h)⟩
  | vote h => exact ⟨ha, hb, hs.perform (n := n) (.vote sender h)⟩
  | commit b => exact ⟨ha, hb, hs.perform (n := n) (.commit sender b)⟩
  | blockReq _ | verifyBlock _ => exact ⟨ha, hb, hs⟩

namespace NodeManager

/-- Managers whose nodes `i` are alike and which are equal otherwise. -/
structure AlikeAt (i : Fin n) (w w' : NodeManager L n) : Prop where
  alike : (w.nodeServers i).Alike (w'.nodeServers i)
  others (k : Fin n) : k ≠ i → w'.nodeServers k = w.nodeServers k
  sent : w'.sent = w.sent
  built : w'.built = w.built

namespace AlikeAt

variable {i : Fin n} {w w' : NodeManager L n}

theorem node (h : AlikeAt i w w') (k : Fin n) : (w.nodeServers k).Alike (w'.nodeServers k) := by
  by_cases hk : k = i
  · rw [hk]
    exact h.alike
  · rw [h.others k hk]
    exact .refl _

theorem modify (h : AlikeAt i w w') (k : Fin n) {f : NodeServer L → NodeServer L}
    (hf : ∀ s s' : NodeServer L, s.Alike s' → (f s).Alike (f s')) : AlikeAt i (w.modify k f) (w'.modify k f) := by
  refine ⟨?_, fun j hj => ?_, h.sent, h.built⟩
  · rw [nodeServers_modify, nodeServers_modify]
    split
    · exact hf _ _ (h.node k)
    · exact h.alike
  · rw [nodeServers_modify, nodeServers_modify]
    split
    · rename_i hk
      rw [← hk, h.others j hj]
    · exact h.others j hj

theorem sendallLocal (h : AlikeAt i w w') (k : Fin n) (m : NodeMessage L) :
    AlikeAt i (w.sendallLocal k m) (w'.sendallLocal k m) := by
  have hb : ∀ (w : NodeManager L n) j, (w.sendallLocal k m).nodeServers j =
      NodeServer.onPeerMessage n (peerId k) m (w.nodeServers j) := fun w j => broadcast_apply _ _ j
  refine ⟨?_, fun j hj => ?_, ?_, h.built⟩
  · rw [hb, hb]
    exact h.alike.onPeerMessage _ m
  · rw [hb, hb, h.others j hj]
  · show w'.sent ++ _ = w.sent ++ _
    rw [h.sent]

theorem elected (h : AlikeAt i w w') (k : Fin n) :
    (w'.server k).getElectedBlockHeader n = (w.server k).getElectedBlockHeader n := by
  obtain ⟨⟨b, v, cb, he⟩, -, -⟩ := (h.node k).server
  show (w'.nodeServers k).bcpServer.getElectedBlockHeader n = _
  rw [he]
  rfl

/-- Any message to any node keeps the nodes alike. -/
theorem onPeerMessage (h : AlikeAt i w w') (k sender : Fin n) (m : NodeMessage L) :
    AlikeAt i (w.onPeerMessage k sender m) (w'.onPeerMessage k sender m) := by
  cases m with
  | blockReq r =>
    show AlikeAt i (w.onPeerMessageBlockReq k sender r) (w'.onPeerMessageBlockReq k sender r)
    unfold onPeerMessageBlockReq
    rw [show w'.chain k = w.chain k from (h.node k).chain]
    split
    · exact h.modify sender fun _ _ hs => hs.onPeerMessage _ _
    · exact h
  | verifyBlock b =>
    show AlikeAt i (w.onPeerMessageVerifyBlock k b) (w'.onPeerMessageVerifyBlock k b)
    unfold onPeerMessageVerifyBlock
    rw [h.elected k]
    split
    · exact h
    · split
      · exact h
      · split
        · exact h
        · exact h.sendallLocal k _
  | blockAck b | newRound r | propose hd | vote hd | commit b =>
    exact h.modify k fun _ _ hs => hs.onPeerMessage _ _

/-! ### Polls -/

theorem poll (h : AlikeAt i w w') (j : Fin n) (t : Nat) :
    NodeServerMono.poll n t (w'.server j) = NodeServerMono.poll n t (w.server j) :=
  BcpServer.poll_congr (h.node j).server t

theorem chain (h : AlikeAt i w w') (k : Fin n) : w'.chain k = w.chain k := (h.node k).chain

theorem candidate (h : AlikeAt i w w') {k : Fin n} (hk : (w.server k).currentStep ≠ .waiting) :
    (w'.server k).candidateBlock = (w.server k).candidateBlock := (h.node k).server.candidate hk

theorem createBlockFor (h : AlikeAt i w w') (k : Fin n) (r : Nat) :
    (w'.nodeServers k).createBlockFor w'.built.length r = (w.nodeServers k).createBlockFor w.built.length r := by
  unfold NodeServer.createBlockFor
  rw [h.built, (h.node k).chain, (h.node k).account]

theorem committers (h : AlikeAt i w w') (b : L.Blk) : w'.committers b = w.committers b :=
  List.filter_congr fun k _ => by rw [h.elected k]

theorem selected (h : AlikeAt i w w') (k : Fin n) :
    (w'.server k).selectUserBlockHeader = (w.server k).selectUserBlockHeader ∧
      (w'.server k).selectProposedBlockHeader = (w.server k).selectProposedBlockHeader := by
  obtain ⟨⟨b, v, cb, he⟩, -, -⟩ := (h.node k).server
  show (w'.nodeServers k).bcpServer.selectUserBlockHeader = _ ∧
    (w'.nodeServers k).bcpServer.selectProposedBlockHeader = _
  rw [he]
  exact ⟨rfl, rfl⟩

/-- A poll makes the same calls, -/
theorem callsAt (h : AlikeAt i w w') (j : Fin n) (t : Nat) (k : Fin n) : w'.callsAt j t k = w.callsAt j t k := by
  unfold NodeManager.callsAt
  rw [h.poll j t]
  cases hp : NodeServerMono.poll n t (w.server j) with
  | idle | newBlockCommit b | consensusFail => rfl
  | newRoundReady =>
    dsimp only
    rw [h.chain j]
  | newRoundStart r =>
    dsimp only
    rw [h.createBlockFor j r, (h.node j).account]
  | proposeStart =>
    dsimp only
    rw [(h.selected j).1, h.candidate (by rw [(poll_proposeStart hp).1]; decide)]
  | voteStart =>
    dsimp only
    rw [(h.selected j).2]
  | commitStart e =>
    dsimp only
    rw [h.candidate (by rw [(poll_commitStart hp).1]; decide), h.committers]

/-- builds the same blocks -/
theorem builtAt (h : AlikeAt i w w') (j : Fin n) (t : Nat) : w'.builtAt j t = w.builtAt j t := by
  unfold NodeManager.builtAt
  rw [h.poll j t]
  cases NodeServerMono.poll n t (w.server j) with
  | newRoundStart r =>
    dsimp only
    rw [h.createBlockFor j r, (h.node j).account]
  | _ => rfl

/-- and broadcasts the same. -/
theorem sentAt (h : AlikeAt i w w') (j : Fin n) (t : Nat) : w'.sentAt j t = w.sentAt j t := by
  unfold NodeManager.sentAt
  rw [h.poll j t]
  cases hp : NodeServerMono.poll n t (w.server j) with
  | idle | newBlockCommit b | consensusFail | newRoundStart r => rfl
  | newRoundReady =>
    dsimp only
    rw [h.chain j]
  | proposeStart =>
    dsimp only
    rw [(h.selected j).1]
  | voteStart =>
    dsimp only
    rw [(h.selected j).2]
  | commitStart e =>
    dsimp only
    rw [h.candidate (by rw [(poll_commitStart hp).1]; decide), h.committers]

theorem clock (h : AlikeAt i w w') (k : Fin n) : (w'.server k).timeContext = (w.server k).timeContext ∧
    (w'.server k).currentStep = (w.server k).currentStep := by
  obtain ⟨⟨b, v, cb, he⟩, -, -⟩ := (h.node k).server
  show (w'.nodeServers k).bcpServer.timeContext = _ ∧ (w'.nodeServers k).bcpServer.currentStep = _
  rw [he]
  exact ⟨rfl, rfl⟩

/-- The clock and the chain of a node after a poll. -/
theorem main_clock (h : AlikeAt i w w') (j : Fin n) (t : Nat) (k : Fin n) :
    ((w'.main (j, t)).server k).timeContext = ((w.main (j, t)).server k).timeContext ∧
      ((w'.main (j, t)).server k).currentStep = ((w.main (j, t)).server k).currentStep ∧
      (w'.main (j, t)).chain k = (w.main (j, t)).chain k := by
  rw [main_timeContext, main_timeContext, main_currentStep, main_currentStep, main_chain, main_chain, h.poll j t,
    (h.clock k).1, (h.clock k).2, (h.clock j).2, h.chain k]
  exact ⟨rfl, rfl, rfl⟩

end AlikeAt

/-- A poll changes a server by its calls, beyond them in its clock. -/
theorem main_eq_calls (w : NodeManager L n) (j : Fin n) (t : Nat) (k : Fin n) :
    (w.main (j, t)).nodeServers k =
      { nodeAccount := (w.nodeServers k).nodeAccount
        blockChain := (w.main (j, t)).chain k
        bcpServer := (run (Call.perform n) (w.server k) (w.callsAt j t k)).setClock
          ((w.main (j, t)).server k).timeContext ((w.main (j, t)).server k).currentStep } := by
  obtain ⟨tc, h⟩ := w.main_nodeServers j t k
  unfold server chain
  rw [h]
  rfl

/-- A poll keeps the nodes alike, if the node `i` builds a block in every round it starts. -/
theorem AlikeAt.main {i : Fin n} {w w' : NodeManager L n} (h : AlikeAt i w w') (j : Fin n) (t : Nat)
    (hb : ∀ r, j = i → NodeServerMono.poll n t (w.server i) = .newRoundStart r →
      (w.nodeServers i).createBlockFor w.built.length r ≠ none) :
    AlikeAt i (w.main (j, t)) (w'.main (j, t)) := by
  obtain ⟨hbuilt, hsent⟩ := w.main_built_sent j t
  obtain ⟨hbuilt', hsent'⟩ := w'.main_built_sent j t
  refine ⟨?_, fun k hk => ?_, ?_, ?_⟩
  · obtain ⟨htc, hst, hc⟩ := h.main_clock j t i
    have hrun := h.alike.server.run (n := n) (w.callsAt j t i)
    rw [main_eq_calls, main_eq_calls w', htc, hst, hc, h.callsAt j t i]
    refine ⟨h.alike.account, rfl, hrun.setClock _ fun hs => ?_⟩
    by_cases hw : (w.server i).currentStep = .waiting
    · -- The round starts now, with a new candidate.
      rw [main_currentStep] at hs
      split at hs <;> [skip; exact absurd hw hs]
      rename_i hij
      subst hij
      obtain ⟨r, hp⟩ := poll_leaves_waiting hw hs
      obtain ⟨b, hb⟩ := Option.ne_none_iff_exists'.mp (hb r rfl hp)
      have hcalls : w.callsAt i t i = [.candidate (L.sign (w.nodeServers i).nodeAccount b),
          .userHeader (L.address (w.nodeServers i).nodeAccount) (L.sign (w.nodeServers i).nodeAccount b).header] := by
        simp only [NodeManager.callsAt, hp, if_true, hb]
      rw [hcalls, BcpServer.candidate_built, BcpServer.candidate_built]
    · refine hrun.candidate ?_
      rwa [run_perform_currentStep]
  · obtain ⟨htc, hst, hc⟩ := h.main_clock j t k
    have hk := h.others k hk
    rw [main_eq_calls w, main_eq_calls w', htc, hst, hc, h.callsAt j t k, hk,
      show w'.server k = w.server k from congrArg NodeServer.bcpServer hk]
  · rw [hsent, hsent', h.sentAt, h.sent]
  · rw [hbuilt, hbuilt', h.builtAt, h.built]

/-! ## Runs -/

/-- What comes to the nodes: a call of `process` at a node, or a message to it,
from any node and whether or not this was sent. -/
inductive Input (L : Core) (n : Nat) where
  | main (k : Fin n) (timestamp : Nat)
  | message (k sender : Fin n) (m : NodeMessage L)

/-- What an input does. -/
def input (w : NodeManager L n) : Input L n → NodeManager L n
  | .main k t => w.main (k, t)
  | .message k sender m => w.onPeerMessage k sender m

/-- `create_block_for` succeeds, if the input starts a round at node `i`. -/
def CreatesBlock (i : Fin n) (w : NodeManager L n) : Input L n → Prop
  | .main k t => k = i → match poll n t (w.server i) with
    | .newRoundStart r => ((w.nodeServers i).createBlockFor w.built.length r).isSome
    | _ => True
  | .message _ _ _ => True

instance (i : Fin n) (w : NodeManager L n) : DecidablePred (CreatesBlock i w)
  | .main _ _ => @instDecidableForall _ _ inferInstance (by split <;> infer_instance)
  | .message _ _ _ => inferInstanceAs (Decidable True)

theorem AlikeAt.input {i : Fin n} {w w' : NodeManager L n} (h : AlikeAt i w w') (e : Input L n)
    (he : CreatesBlock i w e) : AlikeAt i (w.input e) (w'.input e) := by
  cases e with
  | main k t =>
    refine h.main k t fun r hk hp => ?_
    have := he hk
    rw [hp] at this
    exact Option.isSome_iff_ne_none.mp this
  | message k sender m => exact h.onPeerMessage k sender m

/-- The nodes, with the server of node `i` just started, but for its time context. -/
def restart (i : Fin n) (w : NodeManager L n) : NodeManager L n :=
  w.modify i (.mapServer fun s => { ({} : BcpServer L).start with timeContext := s.timeContext })

/-- After the end of a round at node `i`, the nodes and those where the server of
node `i` has just been started are alike. -/
theorem alikeAt_restart {w : NodeManager L n} {i : Fin n} {t : Nat}
    (hend : poll n t (w.server i) = .consensusFail ∨ ∃ b, poll n t (w.server i) = .newBlockCommit b) :
    AlikeAt i (w.main (i, t)) ((w.main (i, t)).restart i) := by
  have hcalls : w.callsAt i t i = [.clear] := by
    unfold callsAt
    rcases hend with h | ⟨b, h⟩ <;> rw [h] <;> exact if_pos rfl
  have hstep : ((w.main (i, t)).server i).currentStep = .waiting := by
    rw [main_currentStep, if_pos rfl]
    rcases hend with h | ⟨b, h⟩ <;> rw [h] <;> rfl
  refine ⟨?_, fun k hk => ?_, rfl, rfl⟩
  · rw [restart, nodeServers_modify, if_pos rfl, main_eq_calls, hcalls, hstep]
    exact ⟨rfl, rfl, .of_clear _ _⟩
  · rw [restart, nodeServers_modify, if_neg hk]

/-- Once a round has ended at node `i`, by a failure or a commit, the nodes go on as
if its server had just been started: whatever comes then, the same is broadcast, and
the nodes have the same steps and chains. -/
theorem round_traceless {w : NodeManager L n} {i : Fin n} {t : Nat}
    (hend : poll n t (w.server i) = .consensusFail ∨ ∃ b, poll n t (w.server i) = .newBlockCommit b)
    {es : List (Input L n)} (h : Along input (CreatesBlock i) (w.main (i, t)) es) :
    let v := run input (w.main (i, t)) es
    let v' := run input ((w.main (i, t)).restart i) es
    v'.sent = v.sent ∧
      ∀ k, (v'.server k).currentStep = (v.server k).currentStep ∧ v'.chain k = v.chain k := by
  intro v v'
  have hv : AlikeAt i v v' := run_rel (fun _ _ e hw he => hw.input e he) (alikeAt_restart hend) h
  exact ⟨hv.sent, fun k => ⟨(hv.clock k).2, hv.chain k⟩⟩

/-- Node 0 of two gives a round up, with a candidate and a vote; the next round
commits, in which node 1 sends a proposal twice. -/
theorem round_traceless_sample :
    let w : NodeManager Core.sample 2 := run main (start fun i => (i.val : Nat))
      [(0, 20), (1, 20), (0, 20), (1, 20), (0, 26), (1, 26), (0, 31), (1, 31)]
    let es : List (Input Core.sample 2) := [.main 1 36, .main 0 40, .main 1 40, .main 0 40,
      .main 1 40, .main 0 46, .main 1 46, .message 0 1 (.propose (⟨1, 0, 9⟩ : SampleHeader)), .main 0 51,
      .main 1 51, .main 0 51, .main 1 51, .main 0 51]
    let v := run input (w.main (0, 36)) es
    let v' := run input ((w.main (0, 36)).restart 0) es
    ((w.main (0, 36)).server 0).candidateBlock ≠ (((w.main (0, 36)).restart 0).server 0).candidateBlock ∧
      (v.chain 0).height = 1 ∧ v'.sent = v.sent ∧ v'.chain 0 = v.chain 0 := by
  intro w es v v'
  have h : v'.sent = v.sent ∧ _ :=
    round_traceless (w := w) (i := 0) (t := 36) (.inl (poll_consensusFail.mpr (by decide +kernel))) (by decide +kernel)
  exact ⟨by decide +kernel, by decide +kernel, h.1, (h.2 0).2⟩

end NodeManager

end Bryllite.NodeServerMono
