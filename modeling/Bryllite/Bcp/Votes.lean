import Bryllite.Bcp.Phases

/-!
# The counts of the votes (bcp.cpp)

A node counts the votes by hash as it records them, but empties its record
alone when it enters waiting. So the counts are those of the recorded votes, and
every majority is one of nodes, exactly as long as no votes are recorded when
the node enters waiting (`backed_iff`). After that one vote for the same header
is enough (`backed_stale`).
-/

namespace Bryllite.Bcp

open Bryllite.Framework

variable {L : Lib} {n : Nat}

namespace Node

/-- The nodes whose vote is recorded and has this hash. -/
def voters (s : Node L n) (h : L.Hash) : Set (Fin n) :=
  {k | ∃ v, s.voteMessages[k]? = some v ∧ L.getHeaderHash v = h}

/-- Every count is the number of nodes with such a vote, and a header that
`find_major_voted` returns has the votes of more than half of the nodes. -/
structure Backed (s : Node L n) : Prop where
  exact (h : L.Hash) : s.voteMessagesCnt.getD h 0 = (s.voters h).ncard
  majority (hd : L.Header) : s.findMajorVoted = some hd → n < (s.voters (L.getHeaderHash hd)).ncard * 2

/-- The event sends the node to waiting. -/
def Leaves (s : Node L n) (e : Nat × Event L n) : Prop :=
  match e.2 with
  | .main timestamp => s.nodeState = .vote ∧ (20 ≤ getCurrentTimeSec timestamp ∨ getCurrentTimeSec timestamp ≤ 1) ∨
    s.nodeState = .commit ∧ getCurrentTimeSec timestamp ≤ 1
  | .message _ _ => False

/-- If the event sends the node to waiting, no votes are recorded. -/
def Unvoted (s : Node L n) (e : Nat × Event L n) : Prop := s.Leaves e → s.voteMessages.isEmpty = true

variable {s : Node L n} {stamp : Nat}

theorem counts_iff : Counts s.voteMessagesCnt s.voteMessages L.getHeaderHash ↔
    ∀ h, s.voteMessagesCnt.getD h 0 = (s.voters h).ncard := by
  refine forall_congr' fun h => ?_
  rw [valueCount_eq_ncard]
  simp only [decide_eq_true_eq, voters]

/-- What `find_major_voted` finds is counted for more than half of the nodes. -/
theorem findMajorVoted_count {hd : L.Header} (h : s.findMajorVoted = some hd) :
    n < s.voteMessagesCnt.getD (L.getHeaderHash hd) 0 * 2 := by
  obtain ⟨e, he, hf⟩ := List.exists_of_findSome?_eq_some h
  split at hf
  · rename_i hq
    have hh : e.1 = L.getHeaderHash hd := by simpa using List.find?_some hf
    rw [← hh, Std.TreeMap.getD_eq_getD_getElem?, mem_toList.mp he]
    exact hq
  · cases hf

theorem backed_of_counts (hs : Counts s.voteMessagesCnt s.voteMessages L.getHeaderHash) : s.Backed where
  exact := counts_iff.mp hs
  majority hd h := by
    rw [← counts_iff.mp hs]
    exact findMajorVoted_count h

theorem Backed.counts (hs : s.Backed) : Counts s.voteMessagesCnt s.voteMessages L.getHeaderHash :=
  counts_iff.mpr hs.exact

/-! ## Events -/

theorem counts_recordVote (hs : Counts s.voteMessagesCnt s.voteMessages L.getHeaderHash) (sender : Fin n)
    (header : L.Header) : Counts (s.recordVote sender header).voteMessagesCnt
      (s.recordVote sender header).voteMessages L.getHeaderHash := by
  unfold recordVote
  split
  · rename_i hc
    have hfree : s.voteMessages[sender]? = none := by
      rw [Bool.and_eq_true, Bool.not_eq_true'] at hc
      exact Std.TreeMap.getElem?_eq_none_of_contains_eq_false hc.2
    exact hs.insert hfree header
  · exact hs

theorem counts_of_kept {s' : Node L n} (hs : Counts s.voteMessagesCnt s.voteMessages L.getHeaderHash)
    (h : s.Kept s') : Counts s'.voteMessagesCnt s'.voteMessages L.getHeaderHash := by
  rwa [h.voteMessages, h.voteMessagesCnt]

/-- An event that does not send the node to waiting. -/
theorem counts_step (hs : Counts s.voteMessagesCnt s.voteMessages L.getHeaderHash) {e : Nat × Event L n}
    (he : ¬ s.Leaves e) : Counts (s.step e).voteMessagesCnt (s.step e).voteMessages L.getHeaderHash := by
  have hset : ∀ (s : Node L n) (stamp : Nat) (state : NodeState), state ≠ .waiting →
      Counts s.voteMessagesCnt s.voteMessages L.getHeaderHash →
      Counts (s.setState stamp state).1.voteMessagesCnt (s.setState stamp state).1.voteMessages L.getHeaderHash :=
    fun s stamp state hne hs => by
      obtain ⟨-, h1, h2⟩ := @setState_keeps _ _ s stamp _ hne
      rwa [h1, h2]
  obtain ⟨stamp, e⟩ := e
  cases e with
  | main timestamp =>
    show Counts (s.onMain timestamp stamp).1.voteMessagesCnt (s.onMain timestamp stamp).1.voteMessages _
    unfold Leaves at he
    unfold onMain
    dsimp only at he ⊢
    split
    · exact hs
    · split <;> exact hs
    · split
      · exact hset s stamp _ (by simp) hs
      · exact hs
    · split
      · exact hset s stamp _ (by simp) hs
      · exact hs
    · rename_i hst
      rw [if_neg]
      · exact hs
      · simp only [Bool.or_eq_true, decide_eq_true_eq]
        exact fun h => he (.inl ⟨hst, h⟩)
    · rename_i hst
      rw [if_neg]
      · exact hs
      · exact fun h => he (.inr ⟨hst, h⟩)
  | message sender m =>
    cases m with
    | newRound blockNumber =>
      show Counts (s.onMessageNewRound stamp sender blockNumber).1.voteMessagesCnt
        (s.onMessageNewRound stamp sender blockNumber).1.voteMessages _
      unfold onMessageNewRound
      split
      · exact hs
      · dsimp only
        split
        · exact hset _ stamp _ (by simp) hs
        · exact hs
    | vote header =>
      show Counts (s.onMessageVote stamp sender header).1.voteMessagesCnt
        (s.onMessageVote stamp sender header).1.voteMessages _
      unfold onMessageVote
      dsimp only
      have hr := counts_recordVote hs sender header
      split
      · exact hset _ stamp _ (by simp) hr
      · exact hr
    | propose | blockReq | blockAck | commit =>
      exact counts_of_kept hs (kept_onMessage (by simp) (by simp) s stamp sender)

/-- An event that sends the node to waiting. -/
theorem counts_leave_iff (hs : Counts s.voteMessagesCnt s.voteMessages L.getHeaderHash) {e : Nat × Event L n}
    (he : s.Leaves e) : Counts (s.step e).voteMessagesCnt (s.step e).voteMessages L.getHeaderHash ↔
      s.voteMessages.isEmpty = true := by
  obtain ⟨hm, hc⟩ : (s.step e).voteMessages = ∅ ∧ (s.step e).voteMessagesCnt = s.voteMessagesCnt := by
    obtain ⟨stamp, e⟩ := e
    cases e with
    | main timestamp =>
      have hmain : s.step (stamp, .main timestamp) = (s.setState stamp .waiting).1 ∧ s.nodeState ≠ .waiting := by
        show (s.onMain timestamp stamp).1 = _ ∧ _
        rcases he with ⟨hst, ht⟩ | ⟨hst, ht⟩
        · simp [onMain, hst, ht]
        · simp [onMain, hst, ht]
      rw [hmain.1]
      exact (setState_waiting hmain.2).2
    | message => exact he.elim
  rw [hm, hc]
  constructor
  · intro h
    refine Decidable.byContradiction fun hne => ?_
    obtain ⟨⟨k, v⟩, hkv⟩ := List.exists_mem_of_ne_nil s.voteMessages.toList fun hl => hne (by
      rw [Std.TreeMap.isEmpty_eq_size_eq_zero, ← Std.TreeMap.length_toList, hl]
      rfl)
    -- A recorded vote is still counted, and no more recorded.
    have hpos : 0 < valueCount s.voteMessages fun v' => decide (L.getHeaderHash v' = L.getHeaderHash v) :=
      List.countP_pos_iff.mpr ⟨(k, v), hkv, by simp⟩
    have h0 := h (L.getHeaderHash v)
    rw [hs, valueCount_empty] at h0
    omega
  · intro h
    rw [← eq_empty_of_isEmpty h]
    exact hs

/-- After an event the counts are exact and back every majority, exactly if no
votes are recorded where the event sends the node to waiting. -/
theorem Backed.step_iff (hs : s.Backed) (e : Nat × Event L n) : (s.step e).Backed ↔ s.Unvoted e := by
  by_cases he : s.Leaves e
  · constructor
    · exact fun h _ => (counts_leave_iff hs.counts he).mp h.counts
    · exact fun h => backed_of_counts ((counts_leave_iff hs.counts he).mpr (h he))
  · exact iff_of_true (backed_of_counts (counts_step hs.counts he)) fun h => absurd h he

end Node

/-- In a run of a node, the counts of the votes are exact after every event and
every majority is backed by recorded votes, exactly if no votes are recorded
when an event sends the node to waiting. -/
theorem backed_iff (keyPair : L.Account) (blockCommitCnt : Nat) (es : List (Nat × Event L n)) :
    Along Node.step (fun s e => (s.step e).Backed) (.start keyPair blockCommitCnt) es ↔
      Along Node.step Node.Unvoted (.start keyPair blockCommitCnt) es :=
  along_iff_of_inv (I := Node.Backed) (fun _ e hs => hs.step_iff e) (fun _ e hs he => (hs.step_iff e).mpr he)
    (Node.backed_of_counts (Counts.empty _))

/-- Node 2 of three has gone back to waiting after the votes of nodes 0 and 1.
It has no votes, and counts two for their header; one more such vote, and it
has a majority of one and commits. -/
theorem backed_stale :
    let s : Node Lib.sample 3 := (run NodeManager.onMain (.start (fun k => (k.val : Nat)) fun _ => 0)
      [(0, 0), (1, 0), (0, 5000), (1, 5000), (2, 5000), (0, 10000), (1, 10000), (2, 30000)]).nodes 2
    let s' := s.step (0, .message 0 (.vote s.votedHeader))
    ¬ s.Backed ∧ s.voteMessages.isEmpty = true ∧
      s.voteMessagesCnt.getD (Lib.sample.getHeaderHash s.votedHeader) 0 = 2 ∧
      s'.findMajorVoted = some s.votedHeader ∧ s'.voteMessages.size = 1 ∧ s'.nodeState = .commit := by
  intro s s'
  have h : s.voteMessages.isEmpty = true ∧
      s.voteMessagesCnt.getD (Lib.sample.getHeaderHash s.votedHeader) 0 = 2 ∧
      s'.findMajorVoted = some s.votedHeader ∧ s'.voteMessages.size = 1 ∧ s'.nodeState = .commit := by
    decide +kernel
  refine ⟨fun hs => ?_, h⟩
  have hc := hs.counts (Lib.sample.getHeaderHash s.votedHeader)
  rw [h.2.1, eq_empty_of_isEmpty h.1, valueCount_empty] at hc
  cases hc

end Bryllite.Bcp
