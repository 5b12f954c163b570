import Bryllite.Bcp.Cascade

/-!
# A round in which all propose (bcp.cpp)

All nodes are in propose and have all proposals, and enter vote in some order.
The vote that makes the majority sends all nodes to commit, one after the
other, so how often a node appends the winner's block depends on how many nodes
commit after it; and the winner, which no node sends its own block, appends
none (`blockChain_round`). So the chains are not extended by that block once
each, unless nodes hold it before it is asked for (`round_iff`, `round_never`), which
helps three or four nodes only (`round_size`).
-/

namespace Bryllite.Bcp

open Bryllite.Framework

variable {L : Lib} {n : Nat}

namespace Node

variable {s : Node L n} {b : L.Blk} {W i j : Fin n}

/-- The node holds a block with the hash of `b` as the one to verify. -/
def Holds (b : L.Blk) (s : Node L n) : Prop := L.getHeaderHash s.blockVerify.header = L.getHeaderHash b.header

instance (b : L.Blk) : DecidablePred (Holds (n := n) b) := fun _ => inferInstanceAs (Decidable (_ = _))

/-! ## Commits -/

/-- A node that does not hold the block does nothing on commits. -/
theorem iterate_committed_of_not (h : ¬ s.Holds b) (m : Nat) : (committed b)^[m] s = s := by
  have h1 : s.committed b = s := by
    rw [committed_eq, if_neg fun h' => h h'.2]
  exact Function.iterate_fixed h1 m

/-- A node that holds the block counts commits, and appends the block for each
beyond half of the nodes. -/
theorem iterate_committed (hb : L.valid b = true) (h : s.Holds b) (m : Nat) :
    ((committed b)^[m] s).Holds b ∧ ((committed b)^[m] s).blockCommitCnt = s.blockCommitCnt + m ∧
      ((committed b)^[m] s).blockChain = s.blockChain ++
        List.replicate (s.blockCommitCnt + m - n / 2 - (s.blockCommitCnt - n / 2)) b := by
  induction m generalizing s with
  | zero => exact ⟨h, rfl, by simp⟩
  | succ m ih =>
    have heq := committed_eq s b
    rw [if_pos ⟨hb, h⟩] at heq
    have hs' : (s.committed b).Holds b := by
      rw [heq]
      exact h
    obtain ⟨h1, h2, h3⟩ := ih hs'
    have hcnt : (s.committed b).blockCommitCnt = s.blockCommitCnt + 1 := by rw [heq]
    rw [hcnt] at h2 h3
    refine ⟨h1, h2.trans (by omega), h3.trans ?_⟩
    rw [heq]
    dsimp only
    split
    · rename_i hq
      rw [List.append_assoc, ← List.replicate_one, List.replicate_append_replicate]
      congr 2
      omega
    · rename_i hq
      congr 2
      omega

/-! ## The cascade at one node -/

/-- How many nodes other than `W` come before node `j`, -/
def before (W j : Fin n) : Nat := (List.finRange n).countP fun k => k < j ∧ k ≠ W

/-- and from it on. -/
def after (W j : Fin n) : Nat := (List.finRange n).countP fun k => j ≤ k ∧ k ≠ W

/-- How often node `j` appends the block of node `W` in a round, as it was
before. -/
def appended (W j : Fin n) (b : L.Blk) (s : Node L n) : Nat :=
  (if s.Holds b then s.blockCommitCnt + before W j - n / 2 - (s.blockCommitCnt - n / 2) else 0) +
    if s.Holds b ∨ j ≠ W then after W j - n / 2 else 0

/-- The nodes other than `W` go to commit, before or after node `j`. -/
theorem foldl_reacted_of_notMem {l : List (Fin n)} (hj : j ∉ l) (s : Node L n) :
    l.foldl (fun s k => s.reacted W i k j b) s = (committed b)^[l.countP (· ≠ W)] s := by
  induction l generalizing s with
  | nil => rfl
  | cons a l ih =>
    have hja : j ≠ a := fun h => hj (h ▸ List.mem_cons_self)
    have hjl : j ∉ l := fun h => hj (List.mem_cons_of_mem a h)
    rw [List.foldl_cons, ih hjl, reacted, if_neg hja, answered, if_neg hja]
    by_cases ha : a = W
    · rw [if_pos ha, List.countP_cons_of_neg (by simp [ha])]
    · rw [if_neg ha, List.countP_cons_of_pos (by simp [ha]), Function.iterate_succ_apply]

theorem recordVote_eq (s : Node L n) (i : Fin n) (header : L.Header) :
    (s.recordVote i header).blockChain = s.blockChain ∧ (s.recordVote i header).blockVerify = s.blockVerify ∧
      (s.recordVote i header).blockCommitCnt = s.blockCommitCnt := by
  unfold recordVote
  split <;> exact ⟨rfl, rfl, rfl⟩

theorem nodeState_reacted_self (s : Node L n) : (s.reacted W i j j b).nodeState = .commit := by
  unfold reacted answered
  rw [if_pos rfl]
  split
  · rfl
  · rw [if_pos rfl]
    exact (kept_committed _ b).nodeState

theorem elected_eq (s : Node L n) (i : Fin n) (header : L.Header) :
    (s.elected i header).blockChain = s.blockChain ∧ (s.elected i header).blockVerify = s.blockVerify ∧
      (s.elected i header).blockCommitCnt = 0 :=
  ⟨(recordVote_eq s i header).1, (recordVote_eq s i header).2.1, rfl⟩

theorem appended_congr {s' : Node L n} (h1 : s'.blockVerify = s.blockVerify)
    (h2 : s'.blockCommitCnt = s.blockCommitCnt) : s'.appended W j b = s.appended W j b := by
  have h : s'.Holds b ↔ s.Holds b := by rw [Holds, h1, Holds]
  unfold appended
  rw [h2]
  exact congrArg₂ (· + ·) (if_congr h rfl rfl) (if_congr (or_congr_left h) rfl rfl)

/-- The nodes before node `j`, and those from it on. -/
theorem finRange_split (W j : Fin n) : ∃ l l', List.finRange n = l ++ j :: l' ∧ j ∉ l ∧ j ∉ l' ∧
    l.countP (· ≠ W) = before W j ∧ (j :: l').countP (· ≠ W) = after W j := by
  obtain ⟨l, l', hl⟩ := List.append_of_mem (List.mem_finRange j)
  have hlt := List.pairwise_lt_finRange n
  rw [hl] at hlt
  obtain ⟨-, hlt', hll'⟩ := List.pairwise_append.mp hlt
  have hlj : ∀ k ∈ l, k < j := fun k hk => hll' k hk j List.mem_cons_self
  have hjl' : ∀ k ∈ l', j < k := (List.pairwise_cons.mp hlt').1
  have hjl : ∀ k ∈ j :: l', j ≤ k := fun k hk =>
    (List.mem_cons.mp hk).elim (fun h => h.ge) fun hk => (hjl' k hk).le
  refine ⟨l, l', hl, fun h => lt_irrefl j (hlj j h), fun h => lt_irrefl j (hjl' j h), ?_, ?_⟩
  · have h0 : (j :: l').countP (fun k => k < j ∧ k ≠ W) = 0 := by
      refine List.countP_eq_zero.mpr fun k hk => ?_
      simpa using fun h => absurd h (not_lt.mpr (hjl k hk))
    rw [before, hl, List.countP_append, h0]
    refine List.countP_congr fun k hk => ?_
    simp [hlj k hk]
  · have h0 : l.countP (fun k => j ≤ k ∧ k ≠ W) = 0 := by
      refine List.countP_eq_zero.mpr fun k hk => ?_
      simpa using fun h => absurd h (not_le.mpr (hlj k hk))
    rw [after, hl, List.countP_append, h0, Nat.zero_add]
    refine List.countP_congr fun k hk => ?_
    simp [hjl k hk]

/-- Node `j` goes to commit, and then the nodes of `l`. -/
theorem blockChain_reacted_self (hb : L.valid b = true) (s : Node L n) (l : List (Fin n)) :
    ((committed b)^[l.countP (· ≠ W)] (s.reacted W i j j b)).blockChain = s.blockChain ++
      List.replicate (if s.Holds b ∨ j ≠ W then (j :: l).countP (· ≠ W) - n / 2 else 0) b := by
  obtain ⟨e1, e2, e3⟩ := elected_eq s i b.header
  unfold reacted answered
  rw [if_pos rfl, if_pos rfl]
  by_cases hW : j = W
  · rw [if_pos hW, List.countP_cons_of_neg (by simp [hW])]
    have hh : (s.elected i b.header).Holds b ↔ s.Holds b := by rw [Holds, e2, Holds]
    by_cases h : s.Holds b
    · rw [(iterate_committed hb (hh.mpr h) _).2.2, e1, e3, if_pos (.inl h)]
      simp
    · rw [iterate_committed_of_not (hh.not.mpr h), e1, if_neg (not_or.mpr ⟨h, not_not.mpr hW⟩)]
      simp
  · -- The node is sent the block, and commits first.
    have h : ({ s.elected i b.header with blockVerify := b } : Node L n).Holds b := rfl
    rw [if_neg hW, ← Function.iterate_succ_apply, if_pos (.inr hW), List.countP_cons_of_pos (by simp [hW]),
      (iterate_committed hb h _).2.2, e1, e3]
    simp

theorem nodeState_foldl_reacted {l : List (Fin n)} (hj : j ∈ l) (s : Node L n) :
    (l.foldl (fun s k => s.reacted W i k j b) s).nodeState = .commit := by
  have hkeep : ∀ k s, Node.nodeState s = .commit → (s.reacted W i k j b).nodeState = .commit := fun k s hs => by
    by_cases hk : j = k
    · subst hk
      exact nodeState_reacted_self s
    · exact (kept_reacted hk b s).nodeState.trans hs
  have hall : ∀ (l : List (Fin n)) s, Node.nodeState s = .commit →
      (l.foldl (fun s k => s.reacted W i k j b) s).nodeState = .commit := fun l => by
    induction l with
    | nil => exact fun _ hs => hs
    | cons a l ih => exact fun s hs => ih _ (hkeep a s hs)
  obtain ⟨l1, l2, rfl⟩ := List.append_of_mem hj
  rw [List.foldl_append, List.foldl_cons]
  exact hall l2 _ (nodeState_reacted_self _)

/-- All nodes go to commit, one after the other. -/
theorem blockChain_foldl_reacted (hb : L.valid b = true) (s : Node L n) :
    ((List.finRange n).foldl (fun s k => s.reacted W i k j b) s).blockChain =
      s.blockChain ++ List.replicate (s.appended W j b) b := by
  obtain ⟨l, l', hl, hj, hj', hbefore, hafter⟩ := finRange_split W j
  rw [hl, List.foldl_append, List.foldl_cons, foldl_reacted_of_notMem hj, hbefore, foldl_reacted_of_notMem hj',
    blockChain_reacted_self hb, hafter]
  unfold appended
  rw [List.replicate_add, ← List.append_assoc]
  by_cases h : s.Holds b
  · obtain ⟨h1, -, h3⟩ := iterate_committed hb h (before W j)
    rw [h3, if_pos h]
    simp [h, h1]
  · rw [iterate_committed_of_not h, if_neg h, List.replicate_zero, List.append_nil]

/-! ## The votes of a node -/

/-- The node has the votes of the nodes in `V`, all for this header. -/
structure Voted (V : Finset (Fin n)) (header : L.Header) (s : Node L n) : Prop where
  votes (k : Fin n) (v : L.Header) : s.voteMessages[k]? = some v ↔ k ∈ V ∧ v = header
  counts : Counts s.voteMessagesCnt s.voteMessages L.getHeaderHash

variable {V : Finset (Fin n)} {header : L.Header}

theorem Voted.of_eq {s' : Node L n} (h : s.Voted V header) (h1 : s'.voteMessages = s.voteMessages)
    (h2 : s'.voteMessagesCnt = s.voteMessagesCnt) : s'.Voted V header where
  votes := by rw [h1]; exact h.votes
  counts := by rw [h1, h2]; exact h.counts

theorem Voted.count (h : s.Voted V header) : s.voteMessagesCnt.getD (L.getHeaderHash header) 0 = V.card := by
  have hset : s.voters (L.getHeaderHash header) = V := by
    ext k
    simp only [voters, h.votes]
    constructor
    · rintro ⟨_, ⟨hk, -⟩, -⟩
      exact hk
    · intro hk
      exact ⟨header, ⟨hk, rfl⟩, rfl⟩
  rw [counts_iff.mp h.counts, hset, Set.ncard_coe_finset]

theorem Voted.eq_of_findMajorVoted (h : s.Voted V header) {hd : L.Header} (hm : s.findMajorVoted = some hd) :
    hd = header := by
  obtain ⟨e, -, hf⟩ := List.exists_of_findSome?_eq_some hm
  split at hf
  · obtain ⟨⟨k, v⟩, hkv, rfl⟩ := List.mem_map.mp (List.mem_of_find?_eq_some hf)
    exact ((h.votes k v).mp (mem_toList.mp hkv)).2
  · cases hf

/-- The node finds the header exactly if more than half of the nodes voted. -/
theorem Voted.findMajorVoted (h : s.Voted V header) :
    s.findMajorVoted = if n < V.card * 2 then some header else none := by
  split
  · rename_i hq
    cases hm : s.findMajorVoted with
    | some hd => rw [h.eq_of_findMajorVoted hm]
    | none =>
      have hcnt : s.voteMessagesCnt[L.getHeaderHash header]? = some V.card := by
        have := h.count
        rw [Std.TreeMap.getD_eq_getD_getElem?] at this
        cases hc : s.voteMessagesCnt[L.getHeaderHash header]? with
        | none =>
          rw [hc, Option.getD_none] at this
          omega
        | some c => rw [← this, hc, Option.getD_some]
      have hnone := List.findSome?_eq_none_iff.mp hm (L.getHeaderHash header, V.card) (mem_toList.mpr hcnt)
      rw [if_pos hq, List.find?_eq_none] at hnone
      obtain ⟨k, hk⟩ := Finset.card_pos.mp (show 0 < V.card by omega)
      have hv : (k, header) ∈ s.voteMessages.toList := mem_toList.mpr ((h.votes k header).mpr ⟨hk, rfl⟩)
      exact absurd (decide_eq_true rfl) (hnone header (List.mem_map_of_mem hv))
  · rename_i hq
    cases hm : s.findMajorVoted with
    | none => rfl
    | some hd =>
      have := findMajorVoted_count hm
      rw [h.eq_of_findMajorVoted hm, h.count] at this
      exact absurd this hq

theorem Voted.recordVote (h : s.Voted V header) (hv : L.headerValid header = true) (hi : i ∉ V) :
    (s.recordVote i header).Voted (insert i V) header := by
  have hfree : s.voteMessages[i]? = none := by
    cases hm : s.voteMessages[i]? with
    | none => rfl
    | some v => exact absurd ((h.votes i v).mp hm).1 hi
  refine ⟨fun k v => ?_, counts_recordVote h.counts i header⟩
  have hvotes : (s.recordVote i header).voteMessages = s.voteMessages.insert i header := by
    rw [Node.recordVote, if_pos]
    rw [hv, Std.TreeMap.contains_eq_isSome_getElem?, hfree]
    rfl
  rw [hvotes, getElem?_insert_of_mem, Finset.mem_insert]
  by_cases hk : i = k
  · subst hk
    simp [eq_comm]
  · simp [hk, Ne.symm hk, h.votes]

end Node

/-! ## The nodes -/

namespace NodeManager

/-- All nodes are in propose, with the chain `chain`, no votes, and valid
nominees for the next block with different hashes, and have all proposals. -/
structure Ready (w : NodeManager L n) (chain : List L.Blk) : Prop where
  nodeState (k : Fin n) : (w.nodes k).nodeState = .propose
  blockChain (k : Fin n) : (w.nodes k).blockChain = chain
  voteMessages (k : Fin n) : (w.nodes k).voteMessages.isEmpty = true
  voteMessagesCnt (k : Fin n) : (w.nodes k).voteMessagesCnt.isEmpty = true
  currentBlockIndex (k : Fin n) : (w.nodes k).currentBlockIndex = chain.length + 1
  valid (k : Fin n) : L.valid (w.nodes k).blockNominee = true
  headerValid (k : Fin n) : L.headerValid (w.nodes k).blockNominee.header = true
  distinct : Function.Injective fun k => L.getHeaderHash (w.nodes k).blockNominee.header
  proposeMessages (k j : Fin n) : (w.nodes k).proposeMessages[j]? = some (w.nodes j).blockNominee.header

/-- The nominee of node `W` has the lowest header hash. -/
def Wins (w : NodeManager L n) (W : Fin n) : Prop :=
  ∀ k, L.getHex (L.getHeaderHash (w.nodes W).blockNominee.header) ≤
    L.getHex (L.getHeaderHash (w.nodes k).blockNominee.header)

/-- The nodes of `V` have entered vote, and are not more than half. -/
structure Voting (w w' : NodeManager L n) (V : Finset (Fin n)) (header : L.Header) : Prop where
  minority : ¬ n < V.card * 2
  nodeState (k : Fin n) : (w'.nodes k).nodeState = if k ∈ V then .vote else .propose
  voted (k : Fin n) : (w'.nodes k).Voted V header
  same (k : Fin n) : (w.nodes k).Same (w'.nodes k)
  blockChain (k : Fin n) : (w'.nodes k).blockChain = (w.nodes k).blockChain
  blockVerify (k : Fin n) : (w'.nodes k).blockVerify = (w.nodes k).blockVerify
  blockCommitCnt (k : Fin n) : (w'.nodes k).blockCommitCnt = (w.nodes k).blockCommitCnt

instance (w : NodeManager L n) (W : Fin n) : Decidable (w.Wins W) := inferInstanceAs (Decidable (∀ _, _))

variable {w w' : NodeManager L n} {chain : List L.Blk} {W : Fin n} {V : Finset (Fin n)} {header : L.Header}

/-- The nominee with the lowest hash is the one that every node votes for. -/
theorem Ready.findLowestProposed (hw : w.Ready chain) (hW : w.Wins W) (k : Fin n) :
    (w.nodes k).findLowestProposed = (w.nodes W).blockNominee.header := by
  unfold Node.findLowestProposed
  have hmem : ∀ h, h ∈ (w.nodes k).proposeMessages.toList.map Prod.snd ↔ ∃ j, h = (w.nodes j).blockNominee.header := by
    intro h
    constructor
    · intro hh
      obtain ⟨⟨j, h'⟩, hj, rfl⟩ := List.mem_map.mp hh
      have := mem_toList.mp hj
      rw [hw.proposeMessages] at this
      exact ⟨j, (Option.some.inj this).symm⟩
    · rintro ⟨j, rfl⟩
      have hj : (j, (w.nodes j).blockNominee.header) ∈ (w.nodes k).proposeMessages.toList :=
        mem_toList.mpr (hw.proposeMessages k j)
      exact List.mem_map_of_mem hj
  cases ha : ((w.nodes k).proposeMessages.toList.map Prod.snd).argmin fun h => L.getHex (L.getHeaderHash h) with
  | none =>
    rw [List.argmin_eq_none] at ha
    exact absurd ((hmem _).mpr ⟨W, rfl⟩) (by rw [ha]; exact List.not_mem_nil)
  | some h =>
    obtain ⟨j, rfl⟩ := (hmem h).mp (List.argmin_mem ha)
    -- Neither hash is lower than the other, so they are one.
    have hle := List.le_of_mem_argmin ((hmem _).mpr ⟨W, rfl⟩) ha
    have heq := L.getHex_injective (le_antisymm hle (hW j))
    rw [Option.getD_some, hw.distinct heq]

theorem Ready.voting (hw : w.Ready chain) : w.Voting w ∅ header where
  minority := by simp
  nodeState k := by simp [hw.nodeState]
  voted k := by
    have h1 := eq_empty_of_isEmpty (hw.voteMessages k)
    have h2 := eq_empty_of_isEmpty (hw.voteMessagesCnt k)
    refine ⟨fun j v => ?_, ?_⟩
    · rw [h1]
      simp
    · rw [h1, h2]
      exact Counts.empty _
  same _ := .refl _
  blockChain _ := rfl
  blockVerify _ := rfl
  blockCommitCnt _ := rfl

/-! ## Polls -/

/-- A time between the tenth second of the window and the twentieth. -/
def VoteTime (timestamp : Nat) : Prop := 10 ≤ getCurrentTimeSec timestamp ∧ getCurrentTimeSec timestamp < 20

instance : DecidablePred VoteTime := fun _ => inferInstanceAs (Decidable (_ ∧ _))

/-- A poll of a node that has entered vote. -/
theorem nodes_onMain_of_ne {e : Fin n × Nat} (ht : VoteTime e.2)
    (hs : (w'.nodes e.1).nodeState = .vote ∨ (w'.nodes e.1).nodeState = .commit) :
    (w'.onMain e).nodes = w'.nodes := by
  have hh : (w'.nodes e.1).handle (w'.moment, .main e.2) = (w'.nodes e.1, none) := by
    show (w'.nodes e.1).onMain e.2 w'.moment = _
    obtain ⟨h1, h2⟩ := ht
    unfold Node.onMain
    rcases hs with hs | hs
    · simp only [hs]
      rw [if_neg]
      simp only [Bool.or_eq_true, decide_eq_true_eq]
      omega
    · simp only [hs]
      rw [if_neg]
      omega
  exact (nodes_call_none hh).trans (Function.update_eq_self ..)

/-- A poll of a node in propose: it enters vote, and broadcasts its vote. -/
theorem onMain_propose {e : Fin n × Nat} (ht : VoteTime e.2) (hs : (w'.nodes e.1).nodeState = .propose) :
    w'.onMain e = (List.finRange n).foldl
      (fun w j => w.onMessage j e.1 (.vote (w'.nodes e.1).findLowestProposed))
      ⟨Function.update w'.nodes e.1 { w'.nodes e.1 with nodeState := .vote, messageSent := fun _ => false },
        w'.moment + 1⟩ := by
  refine call_sendall ?_
  show (w'.nodes e.1).onMain e.2 w'.moment = _
  unfold Node.onMain
  simp only [hs, if_pos ht.1, Node.setState, Node.onStateBegin]
  rfl

/-- All nodes have committed, and appended the block of node `W` as often as
`Node.appended` says. -/
structure Done (w w' : NodeManager L n) (W : Fin n) : Prop where
  nodeState (k : Fin n) : (w'.nodes k).nodeState = .commit
  blockChain (k : Fin n) : (w'.nodes k).blockChain = (w.nodes k).blockChain ++
    List.replicate ((w.nodes k).appended W k (w.nodes W).blockNominee) (w.nodes W).blockNominee

theorem Voting.of_nodes {w'' : NodeManager L n} (hv : w.Voting w' V header) (h : w''.nodes = w'.nodes) :
    w.Voting w'' V header where
  minority := hv.minority
  nodeState := by rw [h]; exact hv.nodeState
  voted := by rw [h]; exact hv.voted
  same := by rw [h]; exact hv.same
  blockChain := by rw [h]; exact hv.blockChain
  blockVerify := by rw [h]; exact hv.blockVerify
  blockCommitCnt := by rw [h]; exact hv.blockCommitCnt

/-- In commit nothing happens any more. -/
theorem Done.polls (hd : w.Done w' W) {es : List (Fin n × Nat)} (ht : ∀ e ∈ es, VoteTime e.2) :
    w.Done (run onMain w' es) W := by
  induction es generalizing w' with
  | nil => exact hd
  | cons e es ih =>
    have hn : (w'.onMain e).nodes = w'.nodes :=
      nodes_onMain_of_ne (ht e List.mem_cons_self) (.inr (hd.nodeState e.1))
    refine ih ?_ fun e he => ht e (List.mem_cons_of_mem _ he)
    exact ⟨by rw [hn]; exact hd.nodeState, by rw [hn]; exact hd.blockChain⟩

/-- The nodes of `V` have entered vote, and node `i` beside them, whose vote no
node has yet. -/
structure Entered (w w' : NodeManager L n) (V : Finset (Fin n)) (i : Fin n) (header : L.Header) : Prop where
  nodeState (k : Fin n) : (w'.nodes k).nodeState = if k ∈ insert i V then .vote else .propose
  voted (k : Fin n) : (w'.nodes k).Voted V header
  same (k : Fin n) : (w.nodes k).Same (w'.nodes k)
  blockChain (k : Fin n) : (w'.nodes k).blockChain = (w.nodes k).blockChain
  blockVerify (k : Fin n) : (w'.nodes k).blockVerify = (w.nodes k).blockVerify
  blockCommitCnt (k : Fin n) : (w'.nodes k).blockCommitCnt = (w.nodes k).blockCommitCnt

/-- What node `i` keeps, every node keeps. -/
theorem get_update {α : Type} (get : Node L n → α) {nodes : Fin n → Node L n} {i : Fin n} {s : Node L n}
    (h : get s = get (nodes i)) (k : Fin n) : get (Function.update nodes i s k) = get (nodes k) := by
  by_cases hk : k = i
  · subst hk
    rw [Function.update_self, h]
  · rw [Function.update_of_ne hk]

theorem Voting.enter (hv : w.Voting w' V header) (i : Fin n) (moment : Nat) : w.Entered
    ⟨Function.update w'.nodes i { w'.nodes i with nodeState := .vote, messageSent := fun _ => false }, moment⟩
    V i header where
  nodeState k := by
    dsimp only
    by_cases hk : k = i
    · subst hk
      rw [Function.update_self, if_pos (Finset.mem_insert_self k V)]
    · rw [Function.update_of_ne hk, hv.nodeState]
      simp [Finset.mem_insert, hk]
  voted k := (hv.voted k).of_eq (get_update Node.voteMessages (by rfl) k) (get_update Node.voteMessagesCnt (by rfl) k)
  same k := (hv.same k).trans ⟨get_update Node.blockNominee (by rfl) k, get_update Node.currentBlockIndex (by rfl) k,
    get_update Node.proposeMessages (by rfl) k⟩
  blockChain k := (get_update Node.blockChain (by rfl) k).trans (hv.blockChain k)
  blockVerify k := (get_update Node.blockVerify (by rfl) k).trans (hv.blockVerify k)
  blockCommitCnt k := (get_update Node.blockCommitCnt (by rfl) k).trans (hv.blockCommitCnt k)

section Entered

variable {i : Fin n} (hw : w.Ready chain) (hv : w.Entered w' V i (w.nodes W).blockNominee.header) (hi : i ∉ V)

include hw hv hi

/-- With the vote of node `i` more than half have voted, and every node commits. -/
theorem Entered.done (hq : n < (insert i V).card * 2) : w.Done ((List.finRange n).foldl
    (fun w1 j => w1.onMessage j i (.vote (w.nodes W).blockNominee.header)) w') W := by
  have hoff : Offers w'.nodes W (w.nodes W).blockNominee (chain.length + 1) := by
    have h0 : Offers w.nodes W (w.nodes W).blockNominee (chain.length + 1) :=
      ⟨rfl, fun k hk => hw.distinct hk, hw.currentBlockIndex, hw.valid W⟩
    exact h0.of_same hv.same
  have hpend : ∀ k ∈ List.finRange n, (w'.nodes k).Pending i (w.nodes W).blockNominee.header := fun k _ => by
    refine ⟨?_, ?_⟩
    · rw [hv.nodeState]
      split <;> exact NodeState.noConfusion
    · rw [((hv.voted k).recordVote (hw.headerValid W) hi).findMajorVoted, if_pos hq]
  have hfold := foldl_vote (List.nodup_finRange n) hoff hpend
  refine ⟨fun k => ?_, fun k => ?_⟩
  · rw [hfold]
    exact Node.nodeState_foldl_reacted (List.mem_finRange k) _
  · rw [hfold, Node.blockChain_foldl_reacted (hw.valid W), hv.blockChain,
      Node.appended_congr (hv.blockVerify k) (hv.blockCommitCnt k)]

/-- With the vote of node `i` no more than half have voted, and every node records it. -/
theorem Entered.voting (hq : ¬ n < (insert i V).card * 2) : w.Voting ((List.finRange n).foldl
    (fun w1 j => w1.onMessage j i (.vote (w.nodes W).blockNominee.header)) w') (insert i V)
    (w.nodes W).blockNominee.header := by
  have hrec := fun k => (hv.voted k).recordVote (hw.headerValid W) hi
  have hfold := foldl_vote_none w' i (w.nodes W).blockNominee.header fun k => by
    rw [(hrec k).findMajorVoted, if_neg hq]
  refine ⟨hq, fun k => ?_, fun k => ?_, fun k => ?_, fun k => ?_, fun k => ?_, fun k => ?_⟩ <;> rw [hfold]
  · rw [(Node.kept_recordVote _ _ _).1]
    exact hv.nodeState k
  · exact hrec k
  · exact (hv.same k).trans (Node.same_recordVote _ _ _)
  · rw [(Node.recordVote_eq _ _ _).1]
    exact hv.blockChain k
  · rw [(Node.recordVote_eq _ _ _).2.1]
    exact hv.blockVerify k
  · rw [(Node.recordVote_eq _ _ _).2.2]
    exact hv.blockCommitCnt k

end Entered

section Poll

variable (hw : w.Ready chain) (hW : w.Wins W)

include hw hW

/-- One more node enters vote. -/
theorem Voting.poll (hv : w.Voting w' V (w.nodes W).blockNominee.header) {e : Fin n × Nat} (ht : VoteTime e.2)
    (he : e.1 ∉ V) :
    w.Voting (w'.onMain e) (insert e.1 V) (w.nodes W).blockNominee.header ∨ w.Done (w'.onMain e) W := by
  have hs : (w'.nodes e.1).nodeState = .propose := by
    rw [hv.nodeState, if_neg he]
  have hlow : (w'.nodes e.1).findLowestProposed = (w.nodes W).blockNominee.header := by
    rw [← hw.findLowestProposed hW e.1, Node.findLowestProposed, (hv.same e.1).proposeMessages]
    rfl
  rw [onMain_propose ht hs, hlow]
  have h1 := hv.enter e.1 (w'.moment + 1)
  by_cases hq : n < (insert e.1 V).card * 2
  · exact .inr (h1.done hw he hq)
  · exact .inl (h1.voting hw he hq)

/-- A run in which every node is polled that has not entered vote. -/
theorem Voting.polls (hv : w.Voting w' V (w.nodes W).blockNominee.header) {es : List (Fin n × Nat)}
    (ht : ∀ e ∈ es, VoteTime e.2) (hall : ∀ k, k ∈ V ∨ k ∈ es.map Prod.fst) : w.Done (run onMain w' es) W := by
  induction es generalizing w' V with
  | nil =>
    -- All nodes would have voted.
    have hV : V = Finset.univ := Finset.eq_univ_iff_forall.mpr fun k => (hall k).elim id fun h => absurd h List.not_mem_nil
    have hmin := hv.minority
    rw [hV, Finset.card_univ, Fintype.card_fin] at hmin
    have := W.isLt
    omega
  | cons e es ih =>
    have ht' : ∀ e ∈ es, VoteTime e.2 := fun e he => ht e (List.mem_cons_of_mem _ he)
    have hte := ht e List.mem_cons_self
    rw [run_cons]
    by_cases he : e.1 ∈ V
    · have hn : (w'.onMain e).nodes = w'.nodes :=
        nodes_onMain_of_ne hte (.inl (by rw [hv.nodeState, if_pos he]))
      refine ih (hv.of_nodes hn) ht' fun k => ?_
      rcases hall k with hk | hk
      · exact .inl hk
      · rcases List.mem_cons.mp hk with rfl | hk
        · exact .inl he
        · exact .inr hk
    · rcases hv.poll hw hW hte he with hv' | hd
      · refine ih hv' ht' fun k => ?_
        rcases hall k with hk | hk
        · exact .inl (Finset.mem_insert_of_mem hk)
        · rcases List.mem_cons.mp hk with rfl | hk
          · exact .inl (Finset.mem_insert_self _ _)
          · exact .inr hk
      · exact hd.polls ht'

/-- After a round, every node has appended the winner's block as often as
`Node.appended` says of it. -/
theorem Ready.done {es : List (Fin n × Nat)} (ht : ∀ e ∈ es, VoteTime e.2) (hall : ∀ k, k ∈ es.map Prod.fst) :
    w.Done (run onMain w es) W :=
  hw.voting.polls hw hW ht fun k => .inr (hall k)

end Poll

end NodeManager

/-- When every node has been polled in the time of the votes, all chains are
extended by the nominee with the lowest hash once, exactly if every node
appends it once: -/
theorem round_iff {w : NodeManager L n} {chain : List L.Blk} {W : Fin n} (hw : w.Ready chain) (hW : w.Wins W)
    {es : List (Fin n × Nat)} (ht : ∀ e ∈ es, NodeManager.VoteTime e.2) (hall : ∀ k, k ∈ es.map Prod.fst) :
    (∀ k, ((run NodeManager.onMain w es).nodes k).blockChain = chain ++ [(w.nodes W).blockNominee]) ↔
      ∀ k, (w.nodes k).appended W k (w.nodes W).blockNominee = 1 := by
  refine forall_congr' fun k => ?_
  rw [(hw.done hW ht hall).blockChain, hw.blockChain, List.append_cancel_left_eq, ← List.replicate_one,
    List.replicate_inj]
  simp

/-- which only three or four nodes can do, -/
theorem round_size {w : NodeManager L n} {W : Fin n}
    (h : ∀ k, (w.nodes k).appended W k (w.nodes W).blockNominee = 1) : n = 3 ∨ n = 4 := by
  -- No node comes before the first.
  let first : Fin n := ⟨0, W.pos⟩
  have hbefore : Node.before W first = 0 := List.countP_eq_zero.mpr fun k _ => by simp [first, Fin.lt_def]
  have hafter : Node.after W first + 1 = n := by
    have hlen := List.length_eq_countP_add_countP (· == W) (l := List.finRange n)
    have hone : (List.finRange n).count W = 1 :=
      List.count_eq_one_of_mem (List.nodup_finRange n) (List.mem_finRange W)
    have hrest : Node.after W first = (List.finRange n).countP fun k => ¬(k == W) = true :=
      List.countP_congr fun k _ => by simp [first, Fin.le_def]
    rw [List.length_finRange] at hlen
    rw [List.count] at hone
    omega
  have hone := h first
  rw [Node.appended, hbefore] at hone
  split at hone <;> split at hone <;> omega

/-- and does not, if the winner does not hold its own nominee. -/
theorem round_never {w : NodeManager L n} {chain : List L.Blk} {W : Fin n} (hw : w.Ready chain) (hW : w.Wins W)
    (hh : ¬ (w.nodes W).Holds (w.nodes W).blockNominee) {es : List (Fin n × Nat)}
    (ht : ∀ e ∈ es, NodeManager.VoteTime e.2) (hall : ∀ k, k ∈ es.map Prod.fst) :
    ((run NodeManager.onMain w es).nodes W).blockChain = chain := by
  rw [(hw.done hW ht hall).blockChain, hw.blockChain, Node.appended, if_neg hh, if_neg]
  · simp
  · exact fun h => h.elim hh fun h => h rfl

/-- Three nodes that have proposed. -/
def proposed : NodeManager Lib.sample 3 :=
  run NodeManager.onMain (.start (fun k => (k.val : Nat)) fun _ => 0) [(0, 0), (1, 0), (0, 5000), (1, 5000), (2, 5000)]

theorem ready_proposed : proposed.Ready [] ∧ proposed.Wins 0 := by
  refine ⟨⟨?_, ?_, ?_, ?_, ?_, ?_, ?_, ?_, ?_⟩, ?_⟩ <;> decide +kernel

/-- The same, where nodes 0 and 2 hold the nominee of node 0 already, and node 2
has counted a commit of it. -/
def proposedHeld : NodeManager Lib.sample 3 where
  nodes k :=
    if k = 1 then proposed.nodes 1
    else { proposed.nodes k with blockVerify := (proposed.nodes 0).blockNominee, blockCommitCnt := if k = 2 then 1 else 0 }
  moment := proposed.moment

theorem ready_proposedHeld : proposedHeld.Ready [] ∧ proposedHeld.Wins 0 := by
  refine ⟨⟨?_, ?_, ?_, ?_, ?_, ?_, ?_, ?_, ?_⟩, ?_⟩ <;> decide +kernel

theorem round_iff_sample :
    proposedHeld.Ready [] ∧ proposedHeld.Wins 0 ∧
      ∀ k, ((run NodeManager.onMain proposedHeld [(2, 10000), (0, 11000), (1, 12000)]).nodes k).blockChain =
        [] ++ [(proposedHeld.nodes 0).blockNominee] :=
  ⟨ready_proposedHeld.1, ready_proposedHeld.2,
    (round_iff ready_proposedHeld.1 ready_proposedHeld.2 (by decide) (by decide)).mpr (by decide +kernel)⟩

/-- Of three nodes, the winner appends nothing, the next node its block, and
the last nothing. -/
theorem round_partial :
    let w := run NodeManager.onMain proposed [(0, 10000), (1, 10000), (2, 10000)]
    proposed.Ready [] ∧ proposed.Wins 0 ∧ (w.nodes 0).blockChain = [] ∧
      (w.nodes 1).blockChain = [(proposed.nodes 0).blockNominee] ∧ (w.nodes 2).blockChain = [] ∧
      ¬ ∀ k, (w.nodes k).blockChain = [] ++ [(proposed.nodes 0).blockNominee] :=
  ⟨ready_proposed.1, ready_proposed.2, by decide +kernel⟩

end Bryllite.Bcp
