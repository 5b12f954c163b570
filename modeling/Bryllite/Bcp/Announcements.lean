import Bryllite.Bcp.NodeManager
import Mathlib.Data.Fintype.Basic

/-!
# The announcements that start a round (bcp.cpp)

`onMessageNewRound` keeps the number each node announces, but looks at how many have
announced one, not at which. So a waiting node starts its round on a majority for the
number after its own chain exactly if all the nodes that announced, when these come to
be a majority, have announced that number (`starts_iff`). Nodes whose chains differ
start a round on numbers of their own (`starts_diverged`).
-/

namespace Bryllite.Bcp

open Bryllite.Framework

variable {L : Lib} {n : Nat}

/-- The announcement an event brings, if it is one. -/
def Event.announcement : Event L n → List (Fin n × Nat)
  | .message sender (.newRound blockNumber) => [(sender, blockNumber)]
  | _ => []

theorem Event.announcement_cases (e : Event L n) :
    e.announcement = [] ∨ ∃ sender blockNumber, e = .message sender (.newRound blockNumber) := by
  cases e with
  | main => exact .inl rfl
  | message sender m =>
    cases m with
    | newRound blockNumber => exact .inr ⟨sender, blockNumber, rfl⟩
    | _ => exact .inl rfl

/-- The nodes that have announced something, -/
def announcers (heard : List (Fin n × Nat)) : Finset (Fin n) := (heard.map Prod.fst).toFinset

/-- and those that have announced `blockNumber`. -/
def announcersOf (heard : List (Fin n × Nat)) (blockNumber : Nat) : Finset (Fin n) :=
  (announcers heard).filter fun k => (k, blockNumber) ∈ heard

/-- A node, and what it has heard announced since it last entered waiting. -/
structure Listener (L : Lib) (n : Nat) where
  node : Node L n
  heard : List (Fin n × Nat) := []

namespace Node

/-- The node goes from another state to waiting. -/
def Enters (s s' : Node L n) : Prop := s.nodeState ≠ .waiting ∧ s'.nodeState = .waiting

instance (s s' : Node L n) : Decidable (s.Enters s') := inferInstanceAs (Decidable (_ ∧ _))

/-- Nothing is announced to the node, and it neither enters waiting nor starts a round. -/
structure Unmoved (s s' : Node L n) : Prop where
  newRoundMessages : s'.newRoundMessages = s.newRoundMessages
  nodeState : s'.nodeState = s.nodeState ∨ s'.nodeState ≠ .waiting ∧ (s.nodeState = .waiting → s'.nodeState ≠ .newRound)

variable {s : Node L n} {stamp : Nat}

theorem Unmoved.of_eq {s' : Node L n} (h : s'.nodeState = s.nodeState) (hm : s'.newRoundMessages = s.newRoundMessages) :
    s.Unmoved s' := ⟨hm, .inl h⟩

theorem Unmoved.of_kept {s' : Node L n} (h : s.Kept s') : s.Unmoved s' := .of_eq h.nodeState h.newRoundMessages

theorem Unmoved.not_enters {s' : Node L n} (h : s.Unmoved s') : ¬s.Enters s' := by
  rintro ⟨h1, h2⟩
  rcases h.nodeState with hs | hs
  · exact h1 (hs ▸ h2)
  · exact hs.1 h2

/-- The timer may take a node to waiting, where it forgets. -/
theorem onMain_unmoved (timestamp : Nat) : s.Unmoved (s.onMain timestamp stamp).1 ∨
    s.Enters (s.onMain timestamp stamp).1 ∧ (s.onMain timestamp stamp).1.newRoundMessages = ∅ := by
  have hstay : s.Unmoved s := .of_eq rfl rfl
  have hmove : ∀ state, state ≠ .waiting → state ≠ .newRound → s.Unmoved (s.setState stamp state).1 := fun state h h' =>
    ⟨(setState_keeps h).1, .inr (by rw [nodeState_setState]; exact ⟨h, fun _ => h'⟩)⟩
  have henter : s.nodeState ≠ .waiting →
      s.Enters (s.setState stamp .waiting).1 ∧ (s.setState stamp .waiting).1.newRoundMessages = ∅ := fun h =>
    ⟨⟨h, nodeState_setState⟩, (setState_waiting h).1⟩
  unfold onMain
  dsimp only
  split
  · exact .inl hstay
  · split
    · exact .inl (.of_eq rfl rfl)
    · exact .inl hstay
  · split
    · exact .inl (hmove _ (by simp) (by simp))
    · exact .inl hstay
  · split
    · exact .inl (hmove _ (by simp) (by simp))
    · exact .inl hstay
  · rename_i h
    split
    · exact .inr (henter (by simp [h]))
    · exact .inl hstay
  · rename_i h
    split
    · exact .inr (henter (by simp [h]))
    · exact .inl hstay

/-- A message that is no announcement. -/
theorem onMessage_unmoved {m : NodeMessage L} (hm : ∀ r, m ≠ .newRound r) (sender : Fin n) :
    s.Unmoved (s.onMessage stamp sender m).1 := by
  cases m with
  | newRound r => exact absurd rfl (hm r)
  | vote header =>
    obtain ⟨h1, h2⟩ := kept_recordVote s sender header
    show s.Unmoved (s.onMessageVote stamp sender header).1
    unfold onMessageVote
    dsimp only
    split
    · refine ⟨(setState_keeps (by simp)).1.trans h2, .inr ?_⟩
      rw [nodeState_setState]
      exact ⟨by simp, by simp⟩
    · exact .of_eq h1 h2
  | propose | blockReq | blockAck | commit => exact .of_kept (kept_onMessage hm (by simp) s stamp sender)

/-- An announcement of a node that has made one. -/
theorem onMessageNewRound_again {sender : Fin n} {blockNumber : Nat} (h : s.newRoundMessages.contains sender = true) :
    (s.onMessageNewRound stamp sender blockNumber).1 = s := by
  rw [onMessageNewRound, if_pos h]

/-- One that makes no majority, -/
theorem onMessageNewRound_records {sender : Fin n} {blockNumber : Nat}
    (h : s.newRoundMessages.contains sender = false)
    (hq : ¬n < (s.newRoundMessages.insert sender blockNumber).size * 2) :
    (s.onMessageNewRound stamp sender blockNumber).1 =
      { s with newRoundMessages := s.newRoundMessages.insert sender blockNumber } := by
  rw [onMessageNewRound, if_neg (by rw [h]; exact Bool.false_ne_true)]
  exact congrArg Prod.fst (if_neg hq)

/-- and one that does. -/
theorem onMessageNewRound_starts {sender : Fin n} {blockNumber : Nat}
    (h : s.newRoundMessages.contains sender = false)
    (hq : n < (s.newRoundMessages.insert sender blockNumber).size * 2) :
    (s.onMessageNewRound stamp sender blockNumber).1 =
      ({ s with newRoundMessages := s.newRoundMessages.insert sender blockNumber }.setState stamp .newRound).1 := by
  rw [onMessageNewRound, if_neg (by rw [h]; exact Bool.false_ne_true)]
  exact congrArg Prod.fst (if_pos hq)

end Node

namespace Listener

/-- An event at the node. -/
def step (w : Listener L n) (e : Nat × Event L n) : Listener L n where
  node := w.node.step e
  heard := if w.node.Enters (w.node.step e) then [] else w.heard ++ e.2.announcement

/-- If the event takes the node from waiting to a new round, this is on the number after
its chain, and more than half of the nodes have announced that number. -/
def StartsAgreed (w : Listener L n) (e : Nat × Event L n) : Prop :=
  w.node.nodeState = .waiting → (w.step e).node.nodeState = .newRound →
    (w.step e).node.currentBlockIndex = (w.step e).node.blockChain.length + 1 ∧
      n < (announcersOf (w.step e).heard ((w.step e).node.blockChain.length + 1)).card * 2

/-- If the event is an announcement after which more than half of the nodes have
announced something, and the node is waiting, all these have announced the number after
its chain. -/
def Agrees (w : Listener L n) (e : Nat × Event L n) : Prop :=
  e.2.announcement ≠ [] → w.node.nodeState = .waiting → n < (announcers (w.heard ++ e.2.announcement)).card * 2 →
    announcers (w.heard ++ e.2.announcement) ⊆
      announcersOf (w.heard ++ e.2.announcement) (w.node.blockChain.length + 1)

/-- The node has recorded the nodes that announced something, and while it is waiting
these are no majority. -/
structure Recorded (w : Listener L n) : Prop where
  mem_iff (k : Fin n) : (∃ v, w.node.newRoundMessages[k]? = some v) ↔ k ∈ announcers w.heard
  waiting : w.node.nodeState = .waiting → ¬n < (announcers w.heard).card * 2

variable {w : Listener L n}

theorem mem_announcers_append {heard : List (Fin n × Nat)} {sender k : Fin n} {blockNumber : Nat} :
    k ∈ announcers (heard ++ [(sender, blockNumber)]) ↔ k ∈ announcers heard ∨ sender = k := by
  simp only [announcers, List.map_append, List.map_cons, List.map_nil, List.mem_toFinset, List.mem_append,
    List.mem_singleton, eq_comm]

theorem announcersOf_subset (heard : List (Fin n × Nat)) (blockNumber : Nat) :
    announcersOf heard blockNumber ⊆ announcers heard := Finset.filter_subset _ _

/-! ## Events that are no announcements -/

/-- They move the node to no round. -/
theorem step_quiet {e : Nat × Event L n} (he : e.2.announcement = []) :
    w.node.Unmoved (w.node.step e) ∨
      w.node.Enters (w.node.step e) ∧ (w.node.step e).newRoundMessages = ∅ := by
  obtain ⟨stamp, e⟩ := e
  cases e with
  | main timestamp => exact Node.onMain_unmoved timestamp
  | message sender m => exact .inl (Node.onMessage_unmoved (fun r hr => by subst hr; cases he) sender)

theorem Recorded.step_quiet (hw : w.Recorded) {e : Nat × Event L n} (he : e.2.announcement = []) :
    (w.step e).Recorded := by
  rcases Listener.step_quiet (w := w) he with h | ⟨h, hm⟩
  · have hheard : (w.step e).heard = w.heard := by
      rw [step, if_neg h.not_enters, he, List.append_nil]
    refine ⟨fun k => ?_, fun hwait => ?_⟩
    · rw [hheard, show (w.step e).node.newRoundMessages = _ from h.newRoundMessages]
      exact hw.mem_iff k
    · rw [hheard]
      refine hw.waiting ?_
      rcases h.nodeState with hs | hs
      · exact hs ▸ hwait
      · exact absurd hwait hs.1
  · have hheard : (w.step e).heard = [] := if_pos h
    refine ⟨fun k => ?_, fun _ => ?_⟩
    · rw [hheard, show (w.step e).node.newRoundMessages = ∅ from hm]
      simp [announcers]
    · rw [hheard]
      exact Nat.not_lt_zero n

theorem startsAgreed_quiet {e : Nat × Event L n} (he : e.2.announcement = []) : w.StartsAgreed e := by
  intro hwait hnew
  rcases Listener.step_quiet (w := w) he with h | ⟨h, -⟩
  · rcases h.nodeState with hs | hs
    · exact absurd ((hs.trans hwait).symm.trans hnew) (by decide)
    · exact absurd hnew (hs.2 hwait)
  · exact absurd hwait h.1

/-! ## Announcements -/

variable {stamp : Nat} {sender : Fin n} {blockNumber : Nat}

theorem Recorded.contains_iff (hw : w.Recorded) :
    w.node.newRoundMessages.contains sender = true ↔ sender ∈ announcers w.heard := by
  rw [← hw.mem_iff, Std.TreeMap.contains_eq_isSome_getElem?, Option.isSome_iff_exists]

/-- The announcement is recorded. -/
theorem Recorded.mem_insert_iff (hw : w.Recorded) (k : Fin n) :
    (∃ v, (w.node.newRoundMessages.insert sender blockNumber)[k]? = some v) ↔
      k ∈ announcers (w.heard ++ [(sender, blockNumber)]) := by
  rw [mem_announcers_append, ← hw.mem_iff, getElem?_insert_of_mem]
  by_cases h : sender = k
  · simp [h]
  · simp [h]

theorem Recorded.size_insert (hw : w.Recorded) (sender : Fin n) (blockNumber : Nat) :
    (w.node.newRoundMessages.insert sender blockNumber).size = (announcers (w.heard ++ [(sender, blockNumber)])).card :=
  size_eq_card hw.mem_insert_iff

/-- What an announcement does to a listener: nothing new from a node that has made one;
otherwise it is recorded, and starts a round if it makes a majority. -/
theorem Recorded.announce (hw : w.Recorded) (stamp : Nat) (sender : Fin n) (blockNumber : Nat) :
    let w' := w.step (stamp, .message sender (.newRound blockNumber))
    let heard := w.heard ++ [(sender, blockNumber)]
    w'.heard = heard ∧
      (w'.node = w.node ∧ announcers heard = announcers w.heard ∨
        ¬n < (announcers heard).card * 2 ∧
          w'.node = { w.node with newRoundMessages := w.node.newRoundMessages.insert sender blockNumber } ∨
        n < (announcers heard).card * 2 ∧ (announcers heard).card = (announcers w.heard).card + 1 ∧
          w'.node = ({ w.node with
            newRoundMessages := w.node.newRoundMessages.insert sender blockNumber }.setState stamp .newRound).1) := by
  intro w' heard
  have hnode : w'.node = (w.node.onMessageNewRound stamp sender blockNumber).1 := rfl
  have hheard : ¬w.node.Enters w'.node → w'.heard = heard := fun h => if_neg h
  cases hc : w.node.newRoundMessages.contains sender with
  | true =>
    rw [Node.onMessageNewRound_again hc] at hnode
    refine ⟨hheard fun h => h.1 (hnode ▸ h.2), .inl ⟨hnode, ?_⟩⟩
    ext k
    rw [mem_announcers_append, or_iff_left_of_imp]
    rintro rfl
    exact hw.contains_iff.mp hc
  | false =>
    have hsize := hw.size_insert sender blockNumber
    by_cases hq : n < (announcers heard).card * 2
    · rw [Node.onMessageNewRound_starts hc (hsize ▸ hq)] at hnode
      refine ⟨hheard fun h => ?_, .inr (.inr ⟨hq, ?_, hnode⟩)⟩
      · have := h.2
        rw [hnode, Node.nodeState_setState] at this
        cases this
      · rw [← hsize, ← size_eq_card hw.mem_iff, Std.TreeMap.size_insert, if_neg]
        rw [hc]
        exact Bool.false_ne_true
    · rw [Node.onMessageNewRound_records hc (hsize ▸ hq)] at hnode
      exact ⟨hheard fun h => h.1 (by rw [hnode] at h; exact h.2), .inr (.inl ⟨hq, hnode⟩)⟩

theorem Recorded.step_announce (hw : w.Recorded) :
    (w.step (stamp, .message sender (.newRound blockNumber))).Recorded := by
  obtain ⟨hheard, h | h | h⟩ := hw.announce stamp sender blockNumber
  · obtain ⟨hnode, hsame⟩ := h
    refine ⟨fun k => ?_, fun hwait => ?_⟩
    · rw [hnode, hheard, hsame]
      exact hw.mem_iff k
    · rw [hheard, hsame]
      exact hw.waiting (hnode ▸ hwait)
  · obtain ⟨hq, hnode⟩ := h
    refine ⟨fun k => ?_, fun _ => by rw [hheard]; exact hq⟩
    rw [hnode, hheard]
    exact hw.mem_insert_iff k
  · obtain ⟨-, -, hnode⟩ := h
    refine ⟨fun k => ?_, fun hwait => ?_⟩
    · rw [hnode, hheard, (Node.setState_keeps (by simp)).1]
      exact hw.mem_insert_iff k
    · rw [hnode, Node.nodeState_setState] at hwait
      cases hwait

/-- The majority is just one: more than half agree exactly if all do. -/
theorem Recorded.agrees_iff (hw : w.Recorded) :
    w.StartsAgreed (stamp, .message sender (.newRound blockNumber)) ↔
      w.Agrees (stamp, .message sender (.newRound blockNumber)) := by
  obtain ⟨hheard, h | h | h⟩ := hw.announce stamp sender blockNumber
  · obtain ⟨hnode, hsame⟩ := h
    refine iff_of_true (fun hwait hnew => ?_) fun _ hwait hq => ?_
    · rw [hnode, hwait] at hnew
      cases hnew
    · exact absurd (hsame ▸ hq) (hw.waiting hwait)
  · obtain ⟨hq, hnode⟩ := h
    refine iff_of_true (fun hwait hnew => ?_) fun _ _ hq' => absurd hq' hq
    rw [hnode] at hnew
    exact absurd (hwait.symm.trans hnew) (by decide)
  · obtain ⟨hq, hcard, hnode⟩ := h
    have hstate : (w.step (stamp, .message sender (.newRound blockNumber))).node.nodeState = .newRound := by
      rw [hnode, Node.nodeState_setState]
    have hlast : w.node.nodeState = .waiting →
        (w.step (stamp, .message sender (.newRound blockNumber))).node.currentBlockIndex = w.node.blockChain.length + 1 ∧
          (w.step (stamp, .message sender (.newRound blockNumber))).node.blockChain = w.node.blockChain := fun hwait => by
      have hne : w.node.nodeState ≠ .newRound := hwait.trans_ne (by decide)
      rw [hnode, Node.setState, if_neg hne]
      exact ⟨rfl, rfl⟩
    constructor
    · intro hs _ hwait _
      obtain ⟨hindex, hchain⟩ := hlast hwait
      have hmaj := (hs hwait hstate).2
      have hless := hw.waiting hwait
      rw [hheard, hchain] at hmaj
      have hall := Finset.eq_of_subset_of_card_le
        (announcersOf_subset (w.heard ++ [(sender, blockNumber)]) (w.node.blockChain.length + 1)) (by omega)
      exact hall.ge
    · intro ha hwait _
      obtain ⟨hindex, hchain⟩ := hlast hwait
      have hall := ha (List.cons_ne_nil _ _) hwait hq
      rw [hchain, hheard]
      exact ⟨hindex, hq.trans_le (Nat.mul_le_mul_right 2 (Finset.card_le_card hall))⟩

/-- A node just started. -/
def start (keyPair : L.Account) (blockCommitCnt : Nat) : Listener L n := { node := .start keyPair blockCommitCnt }

theorem recorded_start (keyPair : L.Account) (blockCommitCnt : Nat) : (start (n := n) keyPair blockCommitCnt).Recorded :=
  ⟨fun k => by simp [start, Node.start, announcers], fun _ => Nat.not_lt_zero n⟩

end Listener

/-- In a run of a node, every start of a round is on the number after its chain, and a
majority has announced that number since the node entered waiting, exactly if, whenever
an announcement makes a majority at the waiting node, all the nodes that have announced
something have announced that number. -/
theorem starts_iff (keyPair : L.Account) (blockCommitCnt : Nat) (es : List (Nat × Event L n)) :
    Along Listener.step Listener.StartsAgreed (.start keyPair blockCommitCnt) es ↔
      Along Listener.step Listener.Agrees (.start keyPair blockCommitCnt) es := by
  refine along_iff_of_inv (I := Listener.Recorded) (fun w e hw => ?_) (fun w e hw _ => ?_)
    (Listener.recorded_start keyPair blockCommitCnt)
  · rcases e.2.announcement_cases with he | ⟨sender, blockNumber, he⟩
    · exact iff_of_true (Listener.startsAgreed_quiet he) fun h => absurd he h
    · obtain ⟨stamp, e⟩ := e
      subst he
      exact hw.agrees_iff
  · rcases e.2.announcement_cases with he | ⟨sender, blockNumber, he⟩
    · exact hw.step_quiet he
    · obtain ⟨stamp, e⟩ := e
      subst he
      exact hw.step_announce

/-- A node with no blocks starts round 1 on the announcements of 1 and of 2. Among nodes
polled in turn this happens when node 1 of three alone has appended the block of the
first window: in the next one nodes 0 and 1 announce 1 and 2, and all start a round, on
numbers that one node announced. -/
theorem starts_diverged :
    (¬ Along Listener.step Listener.StartsAgreed (.start (0 : Nat) 0 : Listener Lib.sample 3)
      [(0, .message 0 (.newRound 1)), (1, .message 1 (.newRound 2))]) ∧
    let w (es : List (Fin 3 × Nat)) : NodeManager Lib.sample 3 :=
      run NodeManager.onMain (.start (fun k => (k.val : Nat)) fun _ => 0) es
    let es := [(0, 0), (1, 0), (0, 5000), (1, 5000), (2, 5000), (0, 10000), (1, 10000), (0, 30000), (1, 30000),
      (2, 30000), (0, 30000)]
    (∀ k, ((w es).nodes k).nodeState = .waiting ∧ ((w es).nodes k).newRoundMessages.toList = [(0, 1)]) ∧
      (∀ k, ((w (es ++ [(1, 30000)])).nodes k).nodeState = .newRound ∧
        ((w (es ++ [(1, 30000)])).nodes k).newRoundMessages.toList = [(0, 1), (1, 2)]) ∧
      (List.finRange 3).map (fun k => ((w (es ++ [(1, 30000)])).nodes k).currentBlockIndex) = [1, 2, 1] := by
  refine ⟨fun h => ?_, by decide +kernel⟩
  exact absurd (h.2.1 (by decide +kernel) (by decide +kernel)).2 (by decide +kernel)

end Bryllite.Bcp
