import Bryllite.BcpMono.Take

/-!
# Quorums of nodes (bcp_mono)

A node counts messages, not senders. For votes and commits this is the same,
since none is made twice. But a node that waits through several block times
announces its round in each, and a node that waits with it counts every
announcement (`quorum_of_one`). Otherwise every quorum on which a node acts is
one of nodes (`quorum_iff`).
-/

namespace Bryllite.BcpMono

open Bryllite.Framework

variable {L : Core} {n : Nat}

namespace Trace

variable {t t' : Trace L n} {i : Fin n}

/-! ## Announcements -/

/-- A step announces no round. -/
theorem Step.once_newRound (hs : Step i t t') (h : ∀ k r, Once (t.heard k) (.newRound r)) (k : Fin n) (r : Nat) :
    Once (t'.heard k) (.newRound r) := by
  have hsend : ∀ {ms : List (NodeMessage L)}, (∀ r, NodeMessage.newRound r ∉ ms) →
      Once (t.heard k ++ ms.map (i, ·)) (.newRound r) := fun hms => (h k r).appendOther fun e he hm => by
    obtain ⟨m, hm', rfl⟩ := List.mem_map.mp he
    exact hms r (hm ▸ hm')
  have hleave : ∀ o, Once ((t.leave i o).heard k) (.newRound r) := fun o => by
    show Once (Function.update t.heard i [] k) _
    by_cases hk : k = i
    · rw [hk, Function.update_self]
      exact fun _ => Nat.zero_le _
    · rw [Function.update_of_ne hk]
      exact h k r
  cases hs with
  | ask height => exact hsend (by simp)
  | sync hs => exact h k r
  | newRound o hs hq hr ho => exact h k r
  | propose hs => exact hsend (by simp)
  | vote hs => exact hsend (by simp)
  | elect hs hq => exact hsend (by simp)
  | clear hs => exact hleave none
  | take hs hq => exact hleave _

theorem Step.sent_extends (hs : Step i t t') : t.sent <+: t'.sent := by
  cases hs with
  | sync | newRound | clear | take => exact List.prefix_rfl
  | ask | propose | vote | elect => exact List.prefix_append _ _

/-- A node that waits has heard no less after the step. -/
theorem Step.heard_extends (hs : Step i t t') (hw : (t.phases i).nodeState = .waiting) (k : Fin n) :
    t.heard k <+: t'.heard k := by
  cases hs with
  | sync | newRound => exact List.prefix_rfl
  | ask | propose | vote | elect => exact List.prefix_append _ _
  | clear hs => simp [hw] at hs
  | take hs hq => simp [hw] at hs

/-- A node starts a round on a quorum of announcements, -/
theorem Step.newRound_quorum (hs : Step i t t') (hw : (t.phases i).nodeState = .waiting)
    (hn : (t'.phases i).nodeState = .newRound) :
    n / 2 < (t.phases i).receivedNewRound.count (t'.phases i).newBlockIndex ∧ t'.heard i = t.heard i := by
  cases hs with
  | @newRound r o hs hq hr ho =>
    have hr : ((t.newRound i r o).phases i).newBlockIndex = r :=
      congrArg Phase.newBlockIndex (phases_modify_self (t := t) (.newRound r o))
    exact ⟨hr.symm ▸ (getValueIfCountExceeds_count hq).2, rfl⟩
  | ask => simp [hw] at hn
  | sync => simp at hn
  | propose hs | vote hs | elect hs | take hs => simp [hw] at hs
  | clear hs => simp [hw] at hs

/-- and goes to commit on a quorum of votes. -/
theorem Step.elect_quorum (hs : Step i t t') (hw : (t.phases i).nodeState = .vote)
    (hn : (t'.phases i).nodeState = .commit) :
    n / 2 < (t.phases i).voteHeader.count (t'.phases i).commitBlockHeader := by
  cases hs with
  | @elect hd hs hq =>
    rw [commitBlockHeader_sends, phases_modify_self]
    exact (getValueIfCountExceeds_count hq).2
  | ask => simp [hw] at hn
  | sync hs | newRound _ hs | propose hs | vote hs | take hs => simp [hw] at hs
  | clear hs => simp [Trace.leave, Phase.leave] at hn

end Trace

/-! ## Runs -/

namespace Watch

/-- What was broadcast since node `k` last entered waiting. -/
def heard (w : Watch L n) (k : Fin n) : List (Fin n × NodeMessage L) := w.manager.sent.drop (w.since k)

/-- What holds in all runs. -/
structure Orders (w : Watch L n) : Prop where
  since (k : Fin n) : w.since k ≤ w.manager.sent.length
  trace : Trace.Orders w.trace

variable {w : Watch L n} {e : Fin n × Clock}

theorem sent_extends (hw : w.Orders) : w.manager.sent <+: (w.onMain e).manager.sent := by
  have h : ∀ t : Trace L n, Relation.ReflTransGen (Trace.Step e.1) (w.announced e) t →
      w.manager.sent <+: t.sent := fun t ht => by
    induction ht with
    | refl =>
      unfold announced
      split
      · exact List.prefix_append _ _
      · exact List.prefix_rfl
    | tail _ hs ih => exact ih.trans hs.sent_extends
  exact h _ (onMain_steps hw.since)

theorem Orders.announced (hw : w.Orders) : Trace.Orders (w.announced e) := by
  unfold Watch.announced
  split
  · exact hw.trace.announce e.1 _
  · exact hw.trace

theorem Orders.onMain (hL : L.Sound) (hw : w.Orders) : (w.onMain e).Orders where
  since k := by
    have hlen := (sent_extends (e := e) hw).length_le
    show (if _ then _ else _ : Fin n → Nat) k ≤ _
    split
    · by_cases hk : k = e.1
      · rw [hk, Function.update_self]
        exact hlen
      · rw [Function.update_of_ne hk]
        exact (hw.since k).trans hlen
    · exact (hw.since k).trans hlen
  trace := hw.announced.steps hL (onMain_steps hw.since)

/-- Every box of node `k` counts each message as often as there are nodes that
sent it since node `k` entered waiting. -/
structure CountsSenders (w : Watch L n) (k : Fin n) : Prop where
  newRound (r : Nat) :
    (w.manager.nodes k).receivedNewRound.count r = (senders (w.heard k) (.newRound r)).card
  vote (h : L.Header) : (w.manager.nodes k).voteHeader.count h = (senders (w.heard k) (.vote h)).card
  commit (b : L.Blk) : (w.manager.nodes k).commit.count b = (senders (w.heard k) (.commit b)).card

theorem countsSenders_iff (hw : w.Orders) (k : Fin n) :
    w.CountsSenders k ↔ ∀ r, Once (w.heard k) (.newRound r) := by
  have hb := hw.trace.heard.boxes k
  have hsuf := (hw.trace.heard.suffix k).sublist
  constructor
  · exact fun h r => count_eq_card_iff.mp ((hb.count_newRound r).symm.trans (h.newRound r))
  · exact fun h => {
      newRound r := (hb.count_newRound r).trans (count_eq_card_iff.mpr (h r))
      vote hd := (hb.count_vote hd).trans (count_eq_card_iff.mpr ((hw.trace.votes.once hd).sublist hsuf))
      commit b := (hb.count_commit b).trans (count_eq_card_iff.mpr ((hw.trace.commits.once b).sublist hsuf)) }

/-- Where the poll acts on a quorum (the node leaves waiting for a new round,
leaves vote for commit, or leaves commit with a block), more than half of the
nodes sent this message since the node entered waiting. -/
structure ActsOnQuorum (w : Watch L n) (e : Fin n × Clock) : Prop where
  newRound : (w.manager.nodes e.1).nodeState = .waiting →
    ((w.onMain e).manager.nodes e.1).nodeState = .newRound →
    n / 2 < (senders ((w.onMain e).heard e.1) (.newRound ((w.onMain e).manager.nodes e.1).newBlockIndex)).card
  vote : (w.manager.nodes e.1).nodeState = .vote → ((w.onMain e).manager.nodes e.1).nodeState = .commit →
    n / 2 < (senders (w.heard e.1) (.vote ((w.onMain e).manager.nodes e.1).commitBlockHeader)).card
  commit : w.manager.EndsCommit e →
    ∃ b, w.manager.Takes e b ∧ n / 2 < (senders (w.heard e.1) (.commit b)).card

/-- A round that the polled node announces, it has not announced since any node
entered waiting. -/
def AnnouncesOnce (w : Watch L n) (e : Fin n × Clock) : Prop :=
  w.manager.Announces e →
    ∀ k, (e.1, .newRound ((w.manager.nodes e.1).blockChain.size + 1)) ∉ w.heard k

instance (w : Watch L n) : DecidablePred w.AnnouncesOnce := fun _ => inferInstanceAs (Decidable (_ → _))

/-- The invariant of the runs in which rounds are announced once. -/
structure Counted (w : Watch L n) : Prop where
  orders : w.Orders
  once (k : Fin n) (r : Nat) : Once (w.heard k) (.newRound r)

theorem once_announced (hw : w.Counted) (he : w.AnnouncesOnce e) (k : Fin n) (r : Nat) :
    Once ((w.announced e).heard k) (.newRound r) := by
  unfold announced
  split
  · rename_i ha
    refine (hw.once k r).append fun hr hm => he ha k ?_
    exact hm
  · exact hw.once k r

theorem Counted.onMain (hL : L.Sound) (hw : w.Counted) (he : w.AnnouncesOnce e) : (w.onMain e).Counted where
  orders := hw.orders.onMain hL
  once := by
    have h : ∀ t : Trace L n, Relation.ReflTransGen (Trace.Step e.1) (w.announced e) t →
        ∀ k r, Once (t.heard k) (.newRound r) := fun t ht => by
      induction ht with
      | refl => exact once_announced hw he
      | tail _ hs ih => exact hs.once_newRound ih
    exact h _ (onMain_steps hw.orders.since)

theorem Counted.actsOnQuorum (hw : w.Counted) (he : w.AnnouncesOnce e) : w.ActsOnQuorum e := by
  have hcount := (countsSenders_iff hw.orders e.1).mpr (hw.once e.1)
  have hstate : ∀ k, ((w.announced e).phases k).nodeState = (w.manager.nodes k).nodeState := fun k => by
    unfold announced
    split
    · exact Trace.nodeState_sends _ _ _ _
    · rfl
  constructor
  case newRound =>
    intro hs hs'
    have hsync : (w.manager.nodes e.1).nodeState ≠ .sync := by simp [hs]
    have hs1 : ((w.announced e).phases e.1).nodeState = .waiting := (hstate e.1).trans hs
    rcases onMain_step hw.orders.since hsync with h | h
    · have : ((w.onMain e).trace.phases e.1).nodeState = .newRound := hs'
      rw [h, hs1] at this
      cases this
    · obtain ⟨hq, hh⟩ := h.newRound_quorum hs1 hs'
      rw [(hw.orders.announced.heard.boxes e.1).count_newRound,
        count_eq_card_iff.mpr (once_announced hw he e.1 _), ← hh] at hq
      exact hq
  case vote =>
    intro hs hs'
    have hsync : (w.manager.nodes e.1).nodeState ≠ .sync := by simp [hs]
    have hann : w.announced e = w.trace := announced_of_ne (by simp [hs])
    rcases onMain_step hw.orders.since hsync with h | h <;> rw [hann] at h
    · have : ((w.onMain e).trace.phases e.1).nodeState = .commit := hs'
      rw [h] at this
      exact NodeState.noConfusion (hs.symm.trans this)
    · have hq := h.elect_quorum hs hs'
      rw [← hcount.vote]
      exact hq
  case commit =>
    intro he
    obtain ⟨b, hb⟩ := NodeManager.takes_of_endsCommit he
    refine ⟨b, hb, ?_⟩
    rw [← hcount.commit]
    exact hb.count

/-- A node that announces a round again is counted twice. -/
theorem announcesOnce_of_counts (hL : L.Sound) (hw : w.Counted) (h : ∀ k, (w.onMain e).CountsSenders k) :
    w.AnnouncesOnce e := by
  intro ha k hk
  have hs1 : ((w.announced e).phases e.1).nodeState = .waiting := by
    rw [announced, if_pos ha, Trace.nodeState_sends]
    exact ha.1
  have hsync : (w.manager.nodes e.1).nodeState ≠ .sync := by simp [ha.1]
  -- What node `k` heard is still heard after the poll, the announcement twice.
  have hpre : (w.announced e).heard k <+: (w.onMain e).heard k := by
    rcases onMain_step hw.orders.since hsync with h' | h'
    · rw [← h']
      exact List.prefix_rfl
    · exact h'.heard_extends hs1 k
  rw [announced, if_pos ha] at hpre
  generalize (w.manager.nodes e.1).blockChain.size + 1 = r at hk hpre
  have honce : (w.heard k ++ [(e.1, NodeMessage.newRound r)]).count (e.1, NodeMessage.newRound r) ≤ 1 :=
    ((countsSenders_iff (hw.orders.onMain hL) k).mp (h k) r).sublist hpre.sublist e.1
  rw [List.count_append, List.count_singleton_self] at honce
  have hpos := List.count_pos_iff.mpr hk
  omega

/-- Nodes just started, with empty chains. -/
def start (keyPair : Fin n → L.Account) (syncTime : Fin n → Nat) (newRoundMessageSent : Fin n → Bool)
    (currentRoundTime : Fin n → Int) : Watch L n where
  manager := .start keyPair syncTime newRoundMessageSent currentRoundTime

theorem Counted.start (keyPair : Fin n → L.Account) (syncTime : Fin n → Nat) (newRoundMessageSent : Fin n → Bool)
    (currentRoundTime : Fin n → Int) :
    (Watch.start keyPair syncTime newRoundMessageSent currentRoundTime : Watch L n).Counted where
  orders :=
    { since _ := Nat.le_refl 0
      trace :=
        { heard := ⟨fun _ => List.nil_suffix, fun _ => ⟨rfl, rfl, rfl, rfl⟩⟩
          made := ⟨fun _ _ h => by simp [Watch.start, NodeManager.start, trace, NodeManager.trace] at h, fun _ => .inl rfl⟩
          proposals := ⟨fun h => absurd h List.not_mem_nil, fun _ _ => rfl, fun _ h => absurd h List.not_mem_nil⟩
          votes := ⟨fun h => absurd h List.not_mem_nil, fun h => absurd h List.not_mem_nil,
            fun _ _ => Nat.zero_le _⟩
          commits := ⟨fun h => absurd h List.not_mem_nil, fun h => absurd h List.not_mem_nil,
            fun _ _ => Nat.zero_le _⟩ } }
  once _ _ _ := Nat.zero_le _

end Watch

/-- In a run, every poll acts on a quorum of nodes only and leaves every box
counting every node once, exactly if no poll announces a round that the node
has announced since any node entered waiting. -/
theorem quorum_iff (hL : L.Sound) (keyPair : Fin n → L.Account) (syncTime : Fin n → Nat)
    (newRoundMessageSent : Fin n → Bool) (currentRoundTime : Fin n → Int) (es : List (Fin n × Clock)) :
    Along Watch.onMain (fun w e => w.ActsOnQuorum e ∧ ∀ k, (w.onMain e).CountsSenders k)
        (.start keyPair syncTime newRoundMessageSent currentRoundTime) es ↔
      Along Watch.onMain Watch.AnnouncesOnce (.start keyPair syncTime newRoundMessageSent currentRoundTime) es := by
  refine along_iff_of_inv (I := Watch.Counted) (fun w e hw => ?_) (fun w e hw he => hw.onMain hL he)
    (.start keyPair syncTime newRoundMessageSent currentRoundTime)
  constructor
  · exact fun h => Watch.announcesOnce_of_counts hL hw h.2
  · intro he
    have hw' := hw.onMain hL he
    exact ⟨hw.actsOnQuorum he, fun k => (Watch.countsSenders_iff hw'.orders k).mpr (hw'.once k)⟩

/-- The first polls of two nodes that start a round together. -/
theorem quorum_iff_sample :
    Along Watch.onMain (fun w e => w.ActsOnQuorum e ∧ ∀ k, (w.onMain e).CountsSenders k)
      (.start (fun i => (i.val : Nat)) (fun _ => 30000) (fun _ => false) fun _ => 0 : Watch Core.sample 2)
      ([(0, 30), (1, 30), (0, 30), (1, 30), (0, 30), (0, 36), (1, 36), (0, 41), (1, 41), (0, 41), (1, 41),
        (0, 41), (1, 41)].map fun e => (e.1, ⟨e.2, 1000 * e.2⟩)) :=
  (quorum_iff Core.sample_sound _ _ _ _ _).mpr (by decide +kernel)

/-- Node 0 of three, alone, announces its first round in two block times and
starts it. -/
theorem quorum_of_one :
    let es : List (Fin 3 × Nat) := [(0, 30), (0, 30), (0, 60)]
    let w : Watch Core.sample 3 := run Watch.onMain
      (.start (fun i => (i.val : Nat)) (fun _ => 30000) (fun _ => false) fun _ => 0)
      (es.map fun e => (e.1, ⟨e.2, 1000 * e.2⟩))
    (es.map (·.2)).Pairwise (· ≤ ·) ∧ (w.manager.nodes 0).nodeState = .newRound ∧
      (w.manager.nodes 0).newBlockIndex = 1 ∧ senders (w.heard 0) (.newRound 1) = {0} := by
  decide +kernel

end Bryllite.BcpMono
