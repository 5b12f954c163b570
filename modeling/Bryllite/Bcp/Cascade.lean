import Bryllite.Bcp.Votes
import Bryllite.Framework.Network

/-!
# What follows from a vote (bcp.cpp)

A node that gets its majority of votes asks all nodes for the block. The node
that made it sends it back, and the first node broadcasts a commit; all this
happens before the vote is delivered to the next node (`nodes_vote`). The node
that made the block does not answer itself, so it broadcasts no commit.

The nodes do not act on one another otherwise, so the effect of the votes on
one node is a loop of its own (`foldl_vote`).
-/

namespace Bryllite.Bcp

open Bryllite.Framework

variable {L : Lib} {n : Nat}

namespace Node

/-! ## One node -/

/-- The node after a commit for `b`. -/
def committed (b : L.Blk) (s : Node L n) : Node L n := (s.onMessageCommit b).1

/-- The node after the vote of `i` for `header`, by which it goes to commit. -/
def elected (i : Fin n) (header : L.Header) (s : Node L n) : Node L n :=
  { s.recordVote i header with
    votedHeader := header
    nodeState := .commit
    messageSent := fun _ => false
    blockCommitCnt := 0 }

/-- What a node keeps while votes and commits are delivered. -/
structure Same (s s' : Node L n) : Prop where
  blockNominee : s'.blockNominee = s.blockNominee
  currentBlockIndex : s'.currentBlockIndex = s.currentBlockIndex
  proposeMessages : s'.proposeMessages = s.proposeMessages

theorem Same.refl (s : Node L n) : s.Same s := ⟨rfl, rfl, rfl⟩

theorem Same.trans {s s' s'' : Node L n} (h : s.Same s') (h' : s'.Same s'') : s.Same s'' :=
  ⟨h'.1.trans h.1, h'.2.trans h.2, h'.3.trans h.3⟩

variable {s : Node L n} {stamp : Nat} {i k : Fin n} {b : L.Blk} {header : L.Header}

theorem committed_eq (s : Node L n) (b : L.Blk) : s.committed b =
    if L.valid b = true ∧ L.getHeaderHash s.blockVerify.header = L.getHeaderHash b.header then
      { s with
        blockCommitCnt := s.blockCommitCnt + 1
        blockChain := if n < (s.blockCommitCnt + 1) * 2 then s.blockChain ++ [b] else s.blockChain }
    else s := by
  unfold committed onMessageCommit
  simp only [Bool.and_eq_true, decide_eq_true_eq]
  split
  · split <;> rfl
  · rfl

theorem kept_committed (s : Node L n) (b : L.Blk) : s.Kept (s.committed b) := by
  rw [committed_eq]
  split <;> exact ⟨rfl, rfl, rfl, rfl⟩

theorem same_committed (s : Node L n) (b : L.Blk) : s.Same (s.committed b) := by
  rw [committed_eq]
  split <;> exact ⟨rfl, rfl, rfl⟩

theorem same_recordVote (s : Node L n) (i : Fin n) (header : L.Header) : s.Same (s.recordVote i header) := by
  unfold recordVote
  split <;> exact ⟨rfl, rfl, rfl⟩

theorem onMessageCommit_sends (s : Node L n) (b : L.Blk) : (s.onMessageCommit b).2 = none := by
  unfold onMessageCommit
  split
  · dsimp only
    split <;> rfl
  · rfl

/-- The vote of `i` is delivered, and makes no majority. -/
theorem onMessageVote_none (h : (s.recordVote i header).findMajorVoted = none) :
    s.onMessageVote stamp i header = (s.recordVote i header, none) := by
  unfold onMessageVote
  dsimp only
  rw [h]

/-- The vote of `i` is delivered, and makes a majority. -/
theorem onMessageVote_some (h : (s.recordVote i header).findMajorVoted = some header)
    (hs : s.nodeState ≠ .commit) : s.onMessageVote stamp i header =
      (s.elected i header, some (.sendall (.blockReq s.currentBlockIndex (L.getHeaderHash header)))) := by
  have hne : (s.recordVote i header).nodeState ≠ .commit := by rwa [(kept_recordVote s i header).1]
  simp only [onMessageVote, h, setState, if_neg hne, onStateBegin, elected,
    (same_recordVote s i header).currentBlockIndex]

end Node

/-! ## The nodes -/

/-- Node `W` has made the block `b` and no other node has one with its hash, for
the index `blockNumber` of all nodes. -/
structure Offers (nodes : Fin n → Node L n) (W : Fin n) (b : L.Blk) (blockNumber : Nat) : Prop where
  nominee : (nodes W).blockNominee = b
  unique (k : Fin n) : L.getHeaderHash (nodes k).blockNominee.header = L.getHeaderHash b.header → k = W
  index (k : Fin n) : (nodes k).currentBlockIndex = blockNumber
  valid : L.valid b = true

theorem Offers.of_same {nodes nodes' : Fin n → Node L n} {W : Fin n} {b : L.Blk} {blockNumber : Nat}
    (h : Offers nodes W b blockNumber) (hs : ∀ k, (nodes k).Same (nodes' k)) : Offers nodes' W b blockNumber where
  nominee := (hs W).blockNominee.trans h.nominee
  unique k hk := h.unique k (by rwa [← (hs k).blockNominee])
  index k := (hs k).currentBlockIndex.trans (h.index k)
  valid := h.valid

namespace Node

/-- The vote of `i` sends the node to commit. -/
structure Pending (i : Fin n) (header : L.Header) (s : Node L n) : Prop where
  nodeState : s.nodeState ≠ .commit
  majority : (s.recordVote i header).findMajorVoted = some header

theorem Pending.of_kept {i : Fin n} {header : L.Header} {s s' : Node L n} (h : s.Pending i header)
    (hk : s.Kept s') : s'.Pending i header := by
  have hm : (s'.recordVote i header).voteMessages = (s.recordVote i header).voteMessages ∧
      (s'.recordVote i header).voteMessagesCnt = (s.recordVote i header).voteMessagesCnt := by
    unfold recordVote
    rw [hk.voteMessages, hk.voteMessagesCnt]
    split
    · exact ⟨rfl, rfl⟩
    · exact ⟨hk.voteMessages, hk.voteMessagesCnt⟩
  refine ⟨by rw [hk.nodeState]; exact h.nodeState, ?_⟩
  rw [findMajorVoted, hm.1, hm.2]
  exact h.majority

/-- Node `j`, after node `k` has asked all nodes for the block `b` of node `W`. -/
def answered (W k j : Fin n) (b : L.Blk) (s : Node L n) : Node L n :=
  if k = W then s else (if j = k then { s with blockVerify := b } else s).committed b

/-- Node `j`, after node `k` has gone to commit on the vote of `i` for `b`. -/
def reacted (W i k j : Fin n) (b : L.Blk) (s : Node L n) : Node L n :=
  (if j = k then s.elected i b.header else s).answered W k j b

theorem same_answered (W k j : Fin n) (b : L.Blk) (s : Node L n) : s.Same (s.answered W k j b) := by
  unfold answered
  split
  · exact .refl s
  · split
    · refine .trans ?_ (same_committed _ b)
      exact ⟨rfl, rfl, rfl⟩
    · exact same_committed s b

theorem same_reacted (W i k j : Fin n) (b : L.Blk) (s : Node L n) : s.Same (s.reacted W i k j b) := by
  unfold reacted
  split
  · refine .trans (same_recordVote s i b.header) (.trans ?_ (same_answered W k j b _))
    exact ⟨rfl, rfl, rfl⟩
  · exact same_answered W k j b s

/-- Another node goes to commit. -/
theorem kept_reacted {W i k j : Fin n} (hj : j ≠ k) (b : L.Blk) (s : Node L n) :
    s.Kept (s.reacted W i k j b) := by
  unfold reacted answered
  rw [if_neg hj, if_neg hj]
  split
  · exact ⟨rfl, rfl, rfl, rfl⟩
  · exact kept_committed s b

end Node

namespace NodeManager

variable {w : NodeManager L n} {k j W i : Fin n} {b : L.Blk} {blockNumber : Nat}
  {next : Fin n → Fin n → NodeMessage L → NodeManager L n → NodeManager L n} {event : Event L n} {s : Node L n}

theorem nodes_call_none (h : (w.nodes k).handle (w.moment, event) = (s, none)) :
    (w.call next k event).nodes = Function.update w.nodes k s := by
  unfold call
  dsimp only
  rw [h]

theorem call_sendall {m : NodeMessage L} (h : (w.nodes k).handle (w.moment, event) = (s, some (.sendall m))) :
    w.call next k event =
      (List.finRange n).foldl (fun w j => next j k m w) ⟨Function.update w.nodes k s, w.moment + 1⟩ := by
  unfold call
  dsimp only
  rw [h]

theorem call_sendto {m : NodeMessage L} (h : (w.nodes k).handle (w.moment, event) = (s, some (.sendto j m))) :
    w.call next k event = if j = k then ⟨Function.update w.nodes k s, w.moment + 1⟩
      else next j j m ⟨Function.update w.nodes k s, w.moment + 1⟩ := by
  unfold call
  dsimp only
  rw [h]

/-- A commit that is broadcast. -/
theorem nodes_commits (w : NodeManager L n) (k : Fin n) (b : L.Blk) (j : Fin n) :
    ((List.finRange n).foldl (fun w j => w.onMessage j k (.commit b)) w).nodes j = (w.nodes j).committed b := by
  rw [foldl_local NodeManager.nodes (f := Node.committed b) (List.nodup_finRange n) w,
    if_pos (List.mem_finRange j)]
  intro w' j _ _
  rw [onMessage_eq]
  refine nodes_call_none (s := (w'.nodes j).committed b) ?_
  exact Prod.ext rfl (Node.onMessageCommit_sends _ b)

/-- Node `k` is sent a valid block, and broadcasts a commit for it. -/
theorem nodes_blockAck (w : NodeManager L n) (k : Fin n) (hb : L.valid b = true) (j : Fin n) :
    (w.onMessage k k (.blockAck b)).nodes j =
      (if j = k then { w.nodes j with blockVerify := b } else w.nodes j).committed b := by
  have h : (w.nodes k).handle (w.moment, .message k (.blockAck b)) =
      ({ w.nodes k with blockVerify := b }, some (.sendall (.commit b))) := by
    show (w.nodes k).onMessageBlockAck b = _
    unfold Node.onMessageBlockAck
    exact if_pos hb
  rw [onMessage_eq, call_sendall h, nodes_commits]
  by_cases hj : j = k
  · subst hj
    simp
  · simp [hj]

/-- A request for the block of `W` that reaches node `j`. -/
theorem nodes_blockReq (hw : Offers w.nodes W b blockNumber) (k j : Fin n) :
    (w.onMessage j k (.blockReq blockNumber (L.getHeaderHash b.header))).nodes =
      if j = W then fun j => (w.nodes j).answered W k j b else w.nodes := by
  have hh : (w.nodes j).handle (w.moment, .message k (.blockReq blockNumber (L.getHeaderHash b.header))) =
      (w.nodes j).onMessageBlockReq k blockNumber (L.getHeaderHash b.header) := rfl
  rw [Node.onMessageBlockReq, if_neg (by simp [hw.index])] at hh
  rw [onMessage_eq]
  by_cases hj : j = W
  · subst hj
    rw [hw.nominee, if_neg (by simp)] at hh
    rw [call_sendto hh, if_pos rfl, Function.update_eq_self]
    unfold Node.answered
    by_cases hk : k = j
    · simp [hk]
    · rw [if_neg hk]
      funext i
      rw [nodes_blockAck _ _ hw.valid, if_neg hk]
  · rw [if_pos fun h => hj (hw.unique j h.symm)] at hh
    rw [if_neg hj, nodes_call_none hh, Function.update_eq_self]

/-- Node `k` asks the nodes of `l` for the block. -/
theorem nodes_blockReqs {l : List (Fin n)} (hl : l.Nodup) (k : Fin n) (hw : Offers w.nodes W b blockNumber) :
    (l.foldl (fun w j => w.onMessage j k (.blockReq blockNumber (L.getHeaderHash b.header))) w).nodes =
      if W ∈ l then fun j => (w.nodes j).answered W k j b else w.nodes := by
  induction l generalizing w with
  | nil => simp
  | cons a l ih =>
    obtain ⟨ha, hl⟩ := List.nodup_cons.mp hl
    have hreq := nodes_blockReq hw k a
    have hw' : Offers (w.onMessage a k (.blockReq blockNumber (L.getHeaderHash b.header))).nodes W b blockNumber := by
      refine hw.of_same fun j => ?_
      rw [hreq]
      split
      · exact Node.same_answered W k j b _
      · exact .refl _
    rw [List.foldl_cons, ih hl hw', hreq]
    by_cases haW : a = W
    · subst haW
      rw [if_neg ha, if_pos rfl, if_pos List.mem_cons_self]
    · simp [haW, Ne.symm haW]

/-- The vote of `i` reaches node `k`, which goes to commit by it. -/
theorem nodes_vote (hw : Offers w.nodes W b blockNumber) (hk : (w.nodes k).Pending i b.header) :
    (w.onMessage k i (.vote b.header)).nodes = fun j => (w.nodes j).reacted W i k j b := by
  have hh : (w.nodes k).handle (w.moment, .message i (.vote b.header)) =
      ((w.nodes k).elected i b.header, some (.sendall (.blockReq blockNumber (L.getHeaderHash b.header)))) := by
    rw [← hw.index k]
    exact Node.onMessageVote_some hk.majority hk.nodeState
  have hw' : Offers (Function.update w.nodes k ((w.nodes k).elected i b.header)) W b blockNumber := by
    refine hw.of_same fun j => ?_
    by_cases hj : j = k
    · subst hj
      rw [Function.update_self]
      refine (Node.same_recordVote _ i b.header).trans ?_
      exact ⟨rfl, rfl, rfl⟩
    · rw [Function.update_of_ne hj]
      exact .refl _
  rw [onMessage_eq, call_sendall hh, nodes_blockReqs (List.nodup_finRange n) k hw', if_pos (List.mem_finRange W)]
  funext j
  unfold Node.reacted
  by_cases hj : j = k
  · subst hj
    simp
  · simp [hj]

/-- The vote of `i` reaches the nodes of `l`, which all go to commit by it. -/
theorem foldl_vote {l : List (Fin n)} (hl : l.Nodup) (hw : Offers w.nodes W b blockNumber)
    (hp : ∀ k ∈ l, (w.nodes k).Pending i b.header) (j : Fin n) :
    (l.foldl (fun w k => w.onMessage k i (.vote b.header)) w).nodes j =
      l.foldl (fun s k => s.reacted W i k j b) (w.nodes j) := by
  induction l generalizing w with
  | nil => rfl
  | cons a l ih =>
    obtain ⟨ha, hl⟩ := List.nodup_cons.mp hl
    have hv := nodes_vote hw (hp a List.mem_cons_self)
    rw [List.foldl_cons, List.foldl_cons, ih hl, hv]
    · rw [hv]
      exact hw.of_same fun k => Node.same_reacted W i a k b _
    · intro k hk
      rw [hv]
      refine (hp k (List.mem_cons_of_mem a hk)).of_kept (Node.kept_reacted ?_ b _)
      rintro rfl
      exact ha hk

/-- The vote of `i` reaches all nodes, and makes a majority at none. -/
theorem foldl_vote_none (w : NodeManager L n) (i : Fin n) (header : L.Header)
    (h : ∀ k, ((w.nodes k).recordVote i header).findMajorVoted = none) (k : Fin n) :
    ((List.finRange n).foldl (fun w k => w.onMessage k i (.vote header)) w).nodes k =
      (w.nodes k).recordVote i header := by
  rw [foldl_local NodeManager.nodes (f := Node.recordVote i header) (List.nodup_finRange n) w,
    if_pos (List.mem_finRange k)]
  intro w' k _ hk
  rw [onMessage_eq]
  refine nodes_call_none ?_
  exact Node.onMessageVote_none (by rw [hk]; exact h k)

end NodeManager

end Bryllite.Bcp
