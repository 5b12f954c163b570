import Bryllite.BcpMono.Ballots

/-!
# The end of a round (bcp_mono)

A poll that ends commit, and not by its timeout, takes the first block of which
the node has more than half of the commits: it appends the block and waits
(`takes_of_endsCommit`). No other poll changes a chain (`blockChain_not_taken`).
-/

namespace Bryllite.BcpMono

open Bryllite.Framework

variable {L : Core} {n : Nat}

namespace Trace

variable {t t' : Trace L n} {i : Fin n}

/-- A step that takes no block. -/
theorem Step.blockChain_of_ne (hs : Step i t t') (hne : (t.phases i).nodeState ≠ .commit) (k : Fin n) :
    (t'.phases k).blockChain = (t.phases k).blockChain := by
  have hmod : ∀ f : Phase L → Phase L, (∀ p, (f p).blockChain = p.blockChain) →
      ((t.modify i f).phases k).blockChain = (t.phases k).blockChain := fun f hf =>
    forall_modify (P := fun k p => p.blockChain = (t.phases k).blockChain) (hf _) (fun _ => rfl) k
  cases hs with
  | ask height => exact blockChain_sends _ _ _ _
  | sync hs => exact hmod _ fun _ => rfl
  | newRound o hs hq hr ho => exact hmod _ fun _ => rfl
  | propose hs => exact (blockChain_sends _ _ _ _).trans (hmod _ fun _ => rfl)
  | vote hs => exact (blockChain_sends _ _ _ _).trans (hmod _ fun _ => rfl)
  | elect hs hq => exact (blockChain_sends _ _ _ _).trans (hmod _ fun _ => rfl)
  | clear hs => exact hmod _ fun _ => rfl
  | take hs hq => exact absurd hs hne

end Trace

namespace NodeManager

variable {w : NodeManager L n} {e : Fin n × Clock} {b : L.Blk}

/-- The trace of the nodes, where nothing is said of what they heard. -/
abbrev toWatch (w : NodeManager L n) : Watch L n where
  manager := w

/-- The block that the poll takes, if it takes one. -/
def taken (w : NodeManager L n) (e : Fin n × Clock) : Option L.Blk :=
  if (w.nodes e.1).nodeState = .commit ∧ 1 < getCurrentRoundTime e.2 then
    getValueIfCountExceeds (w.nodes e.1).commit (n / 2)
  else none

/-- The polled node leaves commit for waiting, and has not timed out. -/
structure EndsCommit (w : NodeManager L n) (e : Fin n × Clock) : Prop where
  commit : (w.nodes e.1).nodeState = .commit
  inTime : 1 < getCurrentRoundTime e.2
  waiting : ((w.onMain e).nodes e.1).nodeState = .waiting

/-- The poll takes `b`, of which the node has more than half of the commits:
the node appends it and waits, and nothing else happens. -/
structure Takes (w : NodeManager L n) (e : Fin n × Clock) (b : L.Blk) : Prop where
  majority : getValueIfCountExceeds (w.nodes e.1).commit (n / 2) = some b
  onMain_eq : w.onMain e =
    (w.modify e.1 (Node.appendBlock b)).modify e.1 fun s => { s.clear with nodeState := .waiting }

theorem nodes_taken (hb : w.taken e = some b) : w.onMain e =
    (w.modify e.1 (Node.appendBlock b)).modify e.1 fun s => { s.clear with nodeState := .waiting } := by
  unfold taken at hb
  split at hb
  · rename_i hs
    obtain ⟨i, clock⟩ := e
    have hmain : w.onMain (i, clock) = (w.modify i (Node.appendBlock b)).setState i clock .waiting := by
      simp only [onMain, hs.1, onStateCommitMain, if_neg (Nat.not_le.mpr hs.2), hb]
    rw [hmain, setState_waiting]
    rw [nodes_modify_self]
    exact fun h => NodeState.noConfusion (hs.1.symm.trans h)
  · cases hb

theorem takes_of_taken (hb : w.taken e = some b) : w.Takes e b where
  majority := by
    unfold taken at hb
    split at hb
    · exact hb
    · cases hb
  onMain_eq := nodes_taken hb

theorem Takes.count (h : w.Takes e b) : n / 2 < (w.nodes e.1).commit.count b :=
  (getValueIfCountExceeds_count h.majority).2

/-- The chain after the block, which is appended if its index is free. -/
theorem Takes.blockChain (h : w.Takes e b) : ((w.onMain e).nodes e.1).blockChain =
    ((w.nodes e.1).blockChain.appendBlock (L.blockIndex b.header) b true).getD (w.nodes e.1).blockChain := by
  rw [h.onMain_eq, nodes_modify_self, nodes_modify_self]
  rfl

theorem taken_eq (hs : (w.nodes e.1).nodeState = .commit) (ht : 1 < getCurrentRoundTime e.2) :
    w.taken e = getValueIfCountExceeds (w.nodes e.1).commit (n / 2) :=
  if_pos ⟨hs, ht⟩

/-- A node in commit that finds no majority in time stays. -/
theorem onMain_of_not_taken (hs : (w.nodes e.1).nodeState = .commit) (ht : 1 < getCurrentRoundTime e.2)
    (hb : w.taken e = none) : w.onMain e = w := by
  rw [taken_eq hs ht] at hb
  simp only [onMain, hs, onStateCommitMain, if_neg (Nat.not_le.mpr ht), hb]

theorem takes_of_endsCommit (h : w.EndsCommit e) : ∃ b, w.Takes e b := by
  cases hb : w.taken e with
  | some b => exact ⟨b, takes_of_taken hb⟩
  | none =>
    have hstay := h.waiting
    rw [onMain_of_not_taken h.commit h.inTime hb, h.commit] at hstay
    cases hstay

theorem endsCommit_of_taken (hb : w.taken e = some b) : w.EndsCommit e := by
  have hwaiting : ((w.onMain e).nodes e.1).nodeState = .waiting := by
    rw [nodes_taken hb, nodes_modify_self]
  unfold taken at hb
  split at hb
  · rename_i hs
    exact ⟨hs.1, hs.2, hwaiting⟩
  · cases hb

theorem blockChain_not_taken (hb : w.taken e = none) (k : Fin n) :
    ((w.onMain e).nodes k).blockChain = (w.nodes k).blockChain := by
  have hsince : ∀ k, w.toWatch.since k ≤ w.sent.length := fun _ => Nat.zero_le _
  have hleave : ∀ (f : Node L → Node L), (∀ s, (f s).blockChain = s.blockChain) →
      ((w.modify e.1 f).nodes k).blockChain = (w.nodes k).blockChain := fun f hf =>
    forall_modify (P := fun k s => s.blockChain = (w.nodes k).blockChain) (hf _) (fun _ => rfl) k
  by_cases hs : (w.nodes e.1).nodeState = .commit
  · obtain ⟨i, clock⟩ := e
    have hmain : w.onMain (i, clock) = w.onStateCommitMain i clock := by simp only [onMain, hs]
    rw [hmain]
    unfold onStateCommitMain
    split
    · rw [setState_waiting (by simp [hs])]
      exact hleave _ fun _ => rfl
    · rename_i ht
      rw [taken, if_pos ⟨hs, Nat.lt_of_not_le ht⟩] at hb
      rw [hb]
  · show ((w.toWatch.onMain e).trace.phases k).blockChain = _
    by_cases hsync : (w.nodes e.1).nodeState = .sync
    · have hl : ((w.toWatch.trace.leave e.1 none).phases k).blockChain = (w.nodes k).blockChain :=
        (Trace.Step.clear (.inl hsync)).blockChain_of_ne (t := w.toWatch.trace) hs k
      rcases Watch.onMain_sync (w := w.toWatch) hsince hsync with h | ⟨height, h⟩ <;> rw [h]
      · exact hl
      · exact (Trace.blockChain_sends _ _ _ _).trans hl
    · have hann : ((w.toWatch.announced e).phases k).blockChain = (w.nodes k).blockChain ∧
          ((w.toWatch.announced e).phases e.1).nodeState = (w.nodes e.1).nodeState := by
        unfold Watch.announced
        split
        · exact ⟨Trace.blockChain_sends _ _ _ _, Trace.nodeState_sends _ _ _ _⟩
        · exact ⟨rfl, rfl⟩
      rcases Watch.onMain_step (w := w.toWatch) hsince hsync with h | h
      · rw [h]
        exact hann.1
      · exact (h.blockChain_of_ne (by rwa [hann.2]) k).trans hann.1

theorem blockChain_of_ne {k : Fin n} (hk : k ≠ e.1) : ((w.onMain e).nodes k).blockChain = (w.nodes k).blockChain := by
  cases hb : w.taken e with
  | none => exact blockChain_not_taken hb k
  | some b => rw [nodes_taken hb, nodes_modify_of_ne hk, nodes_modify_of_ne hk]

/-- A chain that the poll changes is that of the polled node, which takes a block. -/
theorem endsCommit_of_blockChain_ne {k : Fin n} (h : ((w.onMain e).nodes k).blockChain ≠ (w.nodes k).blockChain) :
    k = e.1 ∧ w.EndsCommit e := by
  refine ⟨Decidable.byContradiction fun hk => h (blockChain_of_ne hk), ?_⟩
  cases hb : w.taken e with
  | none => exact absurd (blockChain_not_taken hb k) h
  | some b => exact endsCommit_of_taken hb

end NodeManager

end Bryllite.BcpMono
