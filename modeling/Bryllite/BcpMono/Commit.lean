import Bryllite.BcpMono.Take

/-!
# The block a node takes (bcp_mono)

A node in commit takes the first block that more than half of its list of
commits are for, whatever the block's header and index. So it takes the block
it elected, if its index is free and no election makes another block the one
of more than half, in its list or in that of another node in commit
(`takesElected_of_undisturbed`). Commits that slower or faster nodes send for
another round may do so (`takes_other`).
-/

namespace Bryllite.BcpMono

open Bryllite.Framework

variable {L : Core} {n : Nat}

namespace NodeManager

/-- The header that the poll elects, if it elects one. -/
def elected (w : NodeManager L n) (e : Fin n × Clock) : Option L.Header :=
  if (w.nodes e.1).nodeState = .vote ∧ getCurrentRoundTime e.2 ≤ bcpTimeoutVote then
    getValueIfCountExceeds (w.nodes e.1).voteHeader (n / 2)
  else none

/-- With more than half of the commits for a block the polled node leaves commit
in time. If it does so, it has taken a block with the header it elected, and
appended it. No other poll changes a chain, and none that of another node. -/
structure TakesElected (w : NodeManager L n) (e : Fin n × Clock) : Prop where
  quorum {b : L.Blk} : (w.nodes e.1).nodeState = .commit → 1 < getCurrentRoundTime e.2 →
    getValueIfCountExceeds (w.nodes e.1).commit (n / 2) = some b → w.EndsCommit e
  ends : w.EndsCommit e → ∃ b, w.Takes e b ∧ b.header = (w.nodes e.1).commitBlockHeader ∧
    (w.nodes e.1).blockChain.appendBlock (L.blockIndex b.header) b true = some ((w.onMain e).nodes e.1).blockChain
  only (k : Fin n) : ((w.onMain e).nodes k).blockChain ≠ (w.nodes k).blockChain → k = e.1 ∧ w.EndsCommit e

/-- If the poll elects a header, its index is free in the node's chain, the
node's list has no majority for a block with another header, and the commits
that are now broadcast give none to a node in commit with another header. -/
def Undisturbed (w : NodeManager L n) (e : Fin n × Clock) : Prop :=
  ∀ h ∈ w.elected e, (w.nodes e.1).blockChain.getBlock (L.blockIndex h) = none ∧
    (∀ b ∈ (w.nodes e.1).commit, b.header ≠ h → (w.nodes e.1).commit.count b ≤ n / 2) ∧
    ∀ k, (w.nodes k).nodeState = .commit → (w.nodes k).commitBlockHeader ≠ h →
      ∀ b ∈ w.acked h (List.finRange n),
        ((w.nodes k).commit ++ w.acked h (List.finRange n)).count b ≤ n / 2

instance (w : NodeManager L n) : DecidablePred w.Undisturbed := fun e => by
  unfold Undisturbed
  infer_instance

end NodeManager

/-- A node in commit has a majority for no other block than the one it elected,
whose index is free. -/
structure Phase.Settled (n : Nat) (p : Phase L) : Prop where
  free : p.nodeState = .commit → p.blockChain.getBlock (L.blockIndex p.commitBlockHeader) = none
  others (b : L.Blk) : p.nodeState = .commit → b.header ≠ p.commitBlockHeader → p.commit.count b ≤ n / 2

namespace Phase.Settled

variable {p p' : Phase L}

theorem of_ne (h : p.nodeState ≠ .commit) : p.Settled n :=
  ⟨fun hs => absurd hs h, fun _ hs => absurd hs h⟩

/-- Beside the phase of the round, the chain and the commits matter. -/
theorem of_eq (h : p.Settled n) (hs : p'.nodeState = p.nodeState) (hc : p'.blockChain = p.blockChain)
    (hh : p'.commitBlockHeader = p.commitBlockHeader) (hb : p'.commit = p.commit) : p'.Settled n where
  free hs' := by
    rw [hc, hh]
    exact h.free (hs ▸ hs')
  others b hs' hne := by
    rw [hb]
    exact h.others b (hs ▸ hs') (hh ▸ hne)

end Phase.Settled

namespace Trace

variable {t t' : Trace L n} {i : Fin n}

/-- All nodes are settled. -/
def Settled (t : Trace L n) : Prop := ∀ k, (t.phases k).Settled n

/-- The list of commits of a node, after broadcasts. -/
theorem commit_sends (t : Trace L n) (i k : Fin n) (ms : List (NodeMessage L)) :
    ((t.sends i ms).phases k).commit = (t.phases k).commit ++ ms.filterMap NodeMessage.commit? := by
  show (ms.foldl (fun p m => p.onMessage m) (t.phases k)).commit = _
  generalize t.phases k = p
  induction ms generalizing p with
  | nil => exact (List.append_nil _).symm
  | cons m ms ih =>
    rw [List.foldl_cons, ih, ← List.singleton_append, List.filterMap_append, ← List.append_assoc]
    congr 1
    cases m <;> simp [Phase.onMessage, NodeMessage.commit?]

theorem Settled.sends (h : Settled t) {ms : List (NodeMessage L)} (hms : ∀ m ∈ ms, m.commit? = none) :
    Settled (t.sends i ms) := fun k => by
  refine (h k).of_eq (by simp) (by simp) (by simp) ?_
  rw [commit_sends, List.filterMap_eq_nil_iff.mpr hms, List.append_nil]

/-- A node that is not in commit after the change. -/
theorem Settled.modify (h : Settled t) {f : Phase L → Phase L} (hf : (f (t.phases i)).nodeState ≠ .commit) :
    Settled (t.modify i f) :=
  forall_modify (P := fun _ p => p.Settled n) (.of_ne hf) h

/-- A step that elects nothing. -/
theorem Settled.step (h : Settled t) (hs : Step i t t')
    (hne : (t.phases i).nodeState ≠ .vote ∨ (t'.phases i).nodeState ≠ .commit) : Settled t' := by
  cases hs with
  | ask height => exact h.sends (by simp [NodeMessage.commit?])
  | sync hs => exact h.modify (by simp)
  | newRound o hs hq hr ho => exact h.modify (by simp [Phase.newRound])
  | propose hs => exact (h.modify (by simp)).sends (by simp [NodeMessage.commit?])
  | vote hs => exact (h.modify (by simp)).sends (by simp [NodeMessage.commit?])
  | elect hs hq => simp [hs] at hne
  | clear hs => exact h.modify (by simp [Phase.leave])
  | take hs hq => exact h.modify (by simp [Phase.leave])

theorem header_of_mem_acked {h : L.Header} {b : L.Blk} (hb : b ∈ t.acked h) : b.header = h := by
  obtain ⟨k, hk, rfl⟩ := List.mem_map.mp hb
  exact (of_decide_eq_true (List.mem_filter.mp hk).2).1.symm

/-- The nodes once node `i` has elected `h`. -/
def elect (i : Fin n) (h : L.Header) (t : Trace L n) : Trace L n :=
  (t.modify i fun p => { p with commitBlockHeader := h, nodeState := .commit }).sends i
    (.commitBlockReq h :: (t.acked h).map .commit)

theorem commit_elect (h : L.Header) (k : Fin n) :
    ((t.elect i h).phases k).commit = (t.phases k).commit ++ t.acked h := by
  have hc : (NodeMessage.commitBlockReq h :: (t.acked h).map .commit).filterMap NodeMessage.commit? = t.acked h := by
    rw [List.filterMap_cons_none rfl, List.filterMap_map]
    exact List.filterMap_some
  rw [elect, commit_sends, hc]
  refine congrArg (· ++ t.acked h) ?_
  exact forall_modify (P := fun k p => p.commit = (t.phases k).commit) rfl (fun _ => rfl) k

theorem phases_elect_self (h : L.Header) : ((t.elect i h).phases i).nodeState = .commit ∧
    ((t.elect i h).phases i).commitBlockHeader = h ∧
    ((t.elect i h).phases i).blockChain = (t.phases i).blockChain := by
  simp [elect]

theorem phases_elect_of_ne (h : L.Header) {k : Fin n} (hk : k ≠ i) :
    ((t.elect i h).phases k).nodeState = (t.phases k).nodeState ∧
    ((t.elect i h).phases k).commitBlockHeader = (t.phases k).commitBlockHeader ∧
    ((t.elect i h).phases k).blockChain = (t.phases k).blockChain := by
  simp [elect, hk]

/-- An election leaves all nodes settled exactly if the index is free, the node
has no majority for another block, and the commits give none to another node. -/
theorem Settled.elect_iff (hst : Settled t) (hs : (t.phases i).nodeState = .vote) (h : L.Header) :
    Settled (t.elect i h) ↔ (t.phases i).blockChain.getBlock (L.blockIndex h) = none ∧
      (∀ b ∈ (t.phases i).commit, b.header ≠ h → (t.phases i).commit.count b ≤ n / 2) ∧
      ∀ k, (t.phases k).nodeState = .commit → (t.phases k).commitBlockHeader ≠ h →
        ∀ b ∈ t.acked h, ((t.phases k).commit ++ t.acked h).count b ≤ n / 2 := by
  obtain ⟨hi1, hi2, hi3⟩ := phases_elect_self (t := t) (i := i) h
  -- The commits count for no block with another header.
  have hcount : ∀ k (b : L.Blk), b ∉ t.acked h →
      ((t.phases k).commit ++ t.acked h).count b = (t.phases k).commit.count b := fun k b hb => by
    rw [List.count_append, List.count_eq_zero_of_not_mem hb, Nat.add_zero]
  have hother : ∀ b : L.Blk, b.header ≠ h → b ∉ t.acked h := fun b hne hb => hne (header_of_mem_acked hb)
  constructor
  · intro hst'
    refine ⟨?_, fun b _ hne => ?_, fun k hk hne b hb => ?_⟩
    · have := (hst' i).free hi1
      rwa [hi2, hi3] at this
    · have := (hst' i).others b hi1 (by rwa [hi2])
      rwa [commit_elect, hcount i b (hother b hne)] at this
    · have hki : k ≠ i := by
        rintro rfl
        exact NodeState.noConfusion (hk.symm.trans hs)
      obtain ⟨h1, h2, -⟩ := phases_elect_of_ne (t := t) h hki
      rw [← commit_elect (i := i)]
      refine (hst' k).others b (h1.trans hk) ?_
      rw [h2, header_of_mem_acked hb]
      exact Ne.symm hne
  · rintro ⟨hfree, hown, hothers⟩ k
    by_cases hk : k = i
    · subst hk
      refine ⟨fun _ => by rwa [hi2, hi3], fun b _ hne => ?_⟩
      rw [hi2] at hne
      rw [commit_elect, hcount k b (hother b hne)]
      by_cases hb : b ∈ (t.phases k).commit
      · exact hown b hb hne
      · rw [List.count_eq_zero_of_not_mem hb]
        exact Nat.zero_le _
    · obtain ⟨h1, h2, h3⟩ := phases_elect_of_ne (t := t) h hk
      refine ⟨fun hc => ?_, fun b hc hne => ?_⟩
      · rw [h2, h3]
        exact (hst k).free (h1 ▸ hc)
      · rw [h1] at hc
        rw [h2] at hne
        rw [commit_elect]
        by_cases hb : b ∈ t.acked h
        · refine hothers k hc ?_ b hb
          rw [← header_of_mem_acked hb]
          exact Ne.symm hne
        · rw [hcount k b hb]
          exact (hst k).others b hc hne

end Trace

namespace NodeManager

variable {w : NodeManager L n} {e : Fin n × Clock}

/-- All nodes are settled. -/
def Settled (w : NodeManager L n) : Prop := ∀ k, (w.nodes k).phase.Settled n

theorem trace_elected {h : L.Header} (he : w.elected e = some h) :
    (w.nodes e.1).nodeState = .vote ∧ (w.toWatch.onMain e).trace = w.toWatch.trace.elect e.1 h := by
  unfold elected at he
  split at he
  · rename_i hs
    obtain ⟨i, clock⟩ := e
    have hmain : w.onMain (i, clock) = (w.modify i fun s => { s with commitBlockHeader := h }).setState i clock .commit := by
      simp only [onMain, hs.1, onStateVoteMain, if_neg (Nat.not_lt.mpr hs.2), he]
    refine ⟨hs.1, Watch.trace_onMain ?_ (.inr (by simp [Trace.elect]))⟩
    refine (congrArg _ hmain).trans (trace_setState_commit clock (fun _ => Nat.zero_le _) ?_ h)
    simp [hs.1]
  · cases he

theorem nodeState_not_elected (he : w.elected e = none) (hs : (w.nodes e.1).nodeState = .vote) :
    ((w.onMain e).nodes e.1).nodeState ≠ .commit := by
  obtain ⟨i, clock⟩ := e
  have hmain : w.onMain (i, clock) = w.onStateVoteMain i clock := by simp only [onMain, hs]
  rw [hmain]
  unfold onStateVoteMain
  split
  · rw [setState_waiting (by simp [hs]), nodes_modify_self]
    exact NodeState.noConfusion
  · rename_i ht
    rw [elected, if_pos ⟨hs, Nat.le_of_not_lt ht⟩] at he
    rw [he, hs]
    exact NodeState.noConfusion

/-- A poll leaves all nodes settled exactly if it is undisturbed. -/
theorem Settled.onMain_iff (hw : w.Settled) : (w.onMain e).Settled ↔ w.Undisturbed e := by
  cases he : w.elected e with
  | some h =>
    obtain ⟨hs, ht⟩ := trace_elected he
    have hiff := Trace.Settled.elect_iff (t := w.toWatch.trace) hw hs h
    rw [← ht] at hiff
    refine hiff.trans ⟨fun hu h' hh => ?_, fun hu => hu h he⟩
    obtain rfl := Option.some.inj (he.symm.trans hh)
    exact hu
  | none =>
    refine ⟨fun _ h hh => ?_, fun _ => ?_⟩
    · rw [he] at hh
      cases hh
    · show Trace.Settled (w.toWatch.onMain e).trace
      have hsince : ∀ k, w.toWatch.since k ≤ w.sent.length := fun _ => Nat.zero_le _
      have hleave : Trace.Settled (w.toWatch.trace.leave e.1 none) :=
        Trace.Settled.modify (t := w.toWatch.trace) hw (by simp [Phase.leave])
      by_cases hsync : (w.nodes e.1).nodeState = .sync
      · rcases Watch.onMain_sync (w := w.toWatch) hsince hsync with h | ⟨height, h⟩ <;> rw [h]
        · exact hleave
        · exact hleave.sends (by simp [NodeMessage.commit?])
      · have hann : Trace.Settled (w.toWatch.announced e) ∧
            ((w.toWatch.announced e).phases e.1).nodeState = (w.nodes e.1).nodeState := by
          unfold Watch.announced
          split
          · exact ⟨Trace.Settled.sends (t := w.toWatch.trace) hw (by simp [NodeMessage.commit?]),
              Trace.nodeState_sends _ _ _ _⟩
          · exact ⟨hw, rfl⟩
        rcases Watch.onMain_step (w := w.toWatch) hsince hsync with h | h
        · rw [h]
          exact hann.1
        · refine hann.1.step h ?_
          by_cases hs : (w.nodes e.1).nodeState = .vote
          · exact .inr (nodeState_not_elected he hs)
          · exact .inl (by rwa [hann.2])

/-- A settled node takes the block it elected. -/
theorem Settled.takesElected (hw : w.Settled) : w.TakesElected e where
  quorum hs ht hb := endsCommit_of_taken ((taken_eq hs ht).trans hb)
  ends he := by
    obtain ⟨b, hb⟩ := takes_of_endsCommit he
    have hh : b.header = (w.nodes e.1).commitBlockHeader := by
      refine Decidable.byContradiction fun hne => ?_
      exact absurd ((hw e.1).others b he.commit hne) (Nat.not_le.mpr hb.count)
    have hfree : (w.nodes e.1).blockChain.getBlock (L.blockIndex b.header) = none := by
      rw [hh]
      exact (hw e.1).free he.commit
    obtain ⟨c, hc⟩ := Option.isSome_iff_exists.mp (BlockChain.appendBlock_isSome hfree)
    refine ⟨b, hb, hh, ?_⟩
    rw [hb.blockChain, hc, Option.getD_some]
  only _ := endsCommit_of_blockChain_ne

theorem Settled.start (keyPair : Fin n → L.Account) (syncTime : Fin n → Nat) (newRoundMessageSent : Fin n → Bool)
    (currentRoundTime : Fin n → Int) :
    (NodeManager.start keyPair syncTime newRoundMessageSent currentRoundTime : NodeManager L n).Settled :=
  fun _ => .of_ne NodeState.noConfusion

end NodeManager

/-- No node in commit has a majority for another block than the one it elected,
after every poll of a run, exactly if all polls are undisturbed. -/
theorem settled_iff_undisturbed (keyPair : Fin n → L.Account) (syncTime : Fin n → Nat)
    (newRoundMessageSent : Fin n → Bool) (currentRoundTime : Fin n → Int) (es : List (Fin n × Clock)) :
    Along NodeManager.onMain (fun w e => (w.onMain e).Settled)
        (.start keyPair syncTime newRoundMessageSent currentRoundTime) es ↔
      Along NodeManager.onMain NodeManager.Undisturbed
        (.start keyPair syncTime newRoundMessageSent currentRoundTime) es :=
  along_iff_of_inv (I := NodeManager.Settled) (fun _ _ hw => hw.onMain_iff) (fun _ _ hw he => hw.onMain_iff.mpr he)
    (NodeManager.Settled.start keyPair syncTime newRoundMessageSent currentRoundTime)

/-- In a run whose polls are all undisturbed, a node takes the block it elected
only, and appends it. -/
theorem takesElected_of_undisturbed (keyPair : Fin n → L.Account) (syncTime : Fin n → Nat)
    (newRoundMessageSent : Fin n → Bool) (currentRoundTime : Fin n → Int) {es : List (Fin n × Clock)}
    (h : Along NodeManager.onMain NodeManager.Undisturbed
      (.start keyPair syncTime newRoundMessageSent currentRoundTime) es) :
    Along NodeManager.onMain NodeManager.TakesElected
      (.start keyPair syncTime newRoundMessageSent currentRoundTime) es :=
  along_of_inv (I := NodeManager.Settled) (fun _ _ hw he => hw.onMain_iff.mpr he) (fun _ _ hw _ => hw.takesElected)
    (NodeManager.Settled.start keyPair syncTime newRoundMessageSent currentRoundTime) h

/-- Two rounds of two nodes. -/
theorem takesElected_of_undisturbed_sample :
    let round (t : Nat) : List (Fin 2 × Clock) := [(0, t), (1, t), (0, t), (0, t + 6), (1, t + 6),
      (0, t + 11), (1, t + 11), (0, t + 11), (1, t + 11), (0, t + 11), (1, t + 11)].map
        fun e => (e.1, ⟨e.2, 1000 * e.2⟩)
    Along NodeManager.onMain NodeManager.TakesElected
      (.start (fun i => (i.val : Nat)) (fun _ => 30000) (fun _ => false) fun _ => 0 : NodeManager Core.sample 2)
      ([(0, ⟨30, 30000⟩), (1, ⟨30, 30000⟩)] ++ round 30 ++ round 60) :=
  takesElected_of_undisturbed _ _ _ _ (by decide +kernel)

/-- Node 2 of three has the votes of a round that nodes 0 and 1 gave up, and
their commits of the next. It elects the header of the former, and takes the
block of the latter. -/
theorem takes_other :
    let es : List (Fin 3 × Nat) := [(0, 30), (1, 30), (2, 30), (0, 30), (1, 30), (0, 30), (0, 36), (1, 36),
      (0, 41), (1, 41), (0, 52), (1, 52), (0, 60), (1, 60), (0, 60), (0, 66), (1, 66), (0, 71), (1, 71),
      (0, 71), (1, 71), (2, 71), (2, 72), (2, 72), (2, 72)]
    let w : NodeManager Core.sample 3 := run NodeManager.onMain
      (.start (fun i => (i.val : Nat)) (fun _ => 30000) (fun _ => false) fun _ => 0)
      (es.map fun e => (e.1, ⟨e.2, 1000 * e.2⟩))
    let b (stamp : Nat) : Core.sample.Blk :=
      ⟨(⟨1, 0, stamp⟩ : SampleHeader), [(⟨1, 1, 100, false⟩ : SampleTransaction)]⟩
    (es.map (·.2)).Pairwise (· ≤ ·) ∧ (w.nodes 2).commitBlockHeader = (b 0).header ∧
      ((w.onMain (2, ⟨72, 72000⟩)).nodes 2).blockChain.getBlock 1 = some (b 2) ∧
      ¬ w.TakesElected (2, ⟨72, 72000⟩) := by
  intro es w b
  have hrun : (es.map (·.2)).Pairwise (· ≤ ·) ∧ (w.nodes 2).commitBlockHeader = (b 0).header ∧
      ((w.onMain (2, ⟨72, 72000⟩)).nodes 2).blockChain.getBlock 1 = some (b 2) := by
    decide +kernel
  have hends : w.EndsCommit (2, ⟨72, 72000⟩) :=
    ⟨by decide +kernel, by decide +kernel, by decide +kernel⟩
  have hmajority : getValueIfCountExceeds (w.nodes 2).commit (3 / 2) = some (b 2) := by decide +kernel
  clear_value w
  refine ⟨hrun.1, hrun.2.1, hrun.2.2, fun ht => ?_⟩
  obtain ⟨b', hb', hheader, -⟩ := ht.ends hends
  obtain rfl := Option.some.inj (hmajority.symm.trans hb'.majority)
  exact absurd (hheader.trans hrun.2.1) (by decide)

end Bryllite.BcpMono
