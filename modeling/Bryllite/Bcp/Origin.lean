import Bryllite.Bcp.NodeManager

/-!
# Where the blocks come from (bcp.cpp)

A node signs the blocks it makes, and what the nodes send each other are these
blocks and their headers. Whatever the nodes do, a block on a chain is valid and
one of these, or `block()`, and so is each header that is recorded or elected
(`origins_run`).
-/

namespace Bryllite.Bcp

open Bryllite.Framework

variable {L : Lib} {n : Nat}

/-- A block that a node with this key pair makes for a new round. -/
def MadeBy (n : Nat) (keyPair : L.Account) (b : L.Blk) : Prop :=
  ∃ (s : Node L n) (stamp : Nat), s.keyPair = keyPair ∧
    b = L.sign keyPair (s.createBlockFor stamp (s.blockChain.length + 1))

/-- A block that one of the nodes makes, or `block()`. -/
def Made (keyPairs : Fin n → L.Account) (b : L.Blk) : Prop :=
  b = L.defaultBlock ∨ ∃ k, MadeBy n (keyPairs k) b

/-- The header of such a block, and a valid one. -/
structure MadeHeader (keyPairs : Fin n → L.Account) (header : L.Header) : Prop where
  valid : L.headerValid header = true
  made : ∃ b, Made keyPairs b ∧ b.header = header

/-- What comes with a message. -/
def NodeMessage.Original (keyPairs : Fin n → L.Account) : NodeMessage L → Prop
  | .newRound _ | .blockReq _ _ => True
  | .propose header | .vote header => ∃ b, Made keyPairs b ∧ b.header = header
  | .blockAck b | .commit b => Made keyPairs b

/-- What node `k` has, of its own and of the other nodes. -/
structure Node.Origins (keyPairs : Fin n → L.Account) (k : Fin n) (s : Node L n) : Prop where
  keyPair : s.keyPair = keyPairs k
  ne_null : s.nodeState ≠ .null
  nominee : s.blockNominee = L.defaultBlock ∨ MadeBy n (keyPairs k) s.blockNominee
  verify : Made keyPairs s.blockVerify
  chain {b : L.Blk} : b ∈ s.blockChain → L.valid b = true ∧ Made keyPairs b
  proposed {i : Fin n} {header : L.Header} : s.proposeMessages[i]? = some header → MadeHeader keyPairs header
  voted {i : Fin n} {header : L.Header} : s.voteMessages[i]? = some header → MadeHeader keyPairs header
  elected : s.nodeState = .commit → MadeHeader keyPairs s.votedHeader

namespace Node

variable {keyPairs : Fin n → L.Account} {k : Fin n} {s : Node L n} {stamp : Nat}

theorem made_nominee (hs : s.Origins keyPairs k) : Made keyPairs s.blockNominee :=
  hs.nominee.imp_right fun h => ⟨k, h⟩

theorem made_lowest (hs : s.Origins keyPairs k) : ∃ b, Made keyPairs b ∧ b.header = s.findLowestProposed := by
  unfold findLowestProposed
  cases h : (s.proposeMessages.toList.map Prod.snd).argmin fun h => L.getHex (L.getHeaderHash h) with
  | none => exact ⟨L.defaultBlock, .inl rfl, rfl⟩
  | some header =>
    obtain ⟨⟨i, _⟩, hi, rfl⟩ := List.mem_map.mp (List.argmin_mem h)
    have hi : s.proposeMessages[i]? = some _ := Std.TreeMap.mem_toList_iff_getElem?_eq_some.mp hi
    exact (hs.proposed hi).made

/-- The majority is for a recorded vote. -/
theorem exists_of_findMajorVoted {header : L.Header} (h : s.findMajorVoted = some header) :
    ∃ i : Fin n, s.voteMessages[i]? = some header := by
  obtain ⟨e, -, he⟩ := List.exists_of_findSome?_eq_some h
  split at he
  · obtain ⟨⟨i, _⟩, hi, rfl⟩ := List.mem_map.mp (List.mem_of_find?_eq_some he)
    exact ⟨i, Std.TreeMap.mem_toList_iff_getElem?_eq_some.mp hi⟩
  · cases he

/-- A node that enters a state, with a header elected if it is commit. -/
theorem Origins.setState (hs : s.Origins keyPairs k) {state : NodeState} (hnull : state ≠ .null)
    (h : state = .commit → MadeHeader keyPairs s.votedHeader) :
    (s.setState stamp state).1.Origins keyPairs k ∧
      ∀ x, (s.setState stamp state).2 = some x → x.message.Original keyPairs := by
  unfold Node.setState
  split
  · exact ⟨hs, fun x hx => by cases hx⟩
  · have hlow : ∃ b, Made keyPairs b ∧ b.header = s.findLowestProposed := made_lowest hs
    cases state with
    | null => exact absurd rfl hnull
    | waiting =>
      refine ⟨{ hs with
        ne_null := hnull
        proposed := fun {i header} hi => ?_
        voted := fun {i header} hi => ?_
        elected := NodeState.noConfusion }, fun x hx => by cases hx⟩
      · simp [onStateBegin] at hi
      · simp [onStateBegin] at hi
    | newRound =>
      refine ⟨{ hs with ne_null := hnull, nominee := .inr ?_, elected := NodeState.noConfusion },
        fun x hx => by cases hx⟩
      refine ⟨{ s with nodeState := .newRound, messageSent := fun _ => false }, stamp, hs.keyPair, ?_⟩
      rw [← hs.keyPair]
      rfl
    | propose =>
      refine ⟨{ hs with ne_null := hnull, elected := NodeState.noConfusion }, fun x hx => ?_⟩
      cases hx
      exact ⟨_, made_nominee hs, rfl⟩
    | vote =>
      refine ⟨{ hs with ne_null := hnull, elected := NodeState.noConfusion }, fun x hx => ?_⟩
      cases hx
      exact hlow
    | commit =>
      refine ⟨{ hs with ne_null := hnull, elected := h }, fun x hx => ?_⟩
      cases hx
      trivial

/-- A node that records a vote. -/
theorem Origins.recordVote (hs : s.Origins keyPairs k) {header : L.Header} (sender : Fin n)
    (h : ∃ b, Made keyPairs b ∧ b.header = header) : (s.recordVote sender header).Origins keyPairs k := by
  unfold Node.recordVote
  split
  · rename_i hv
    refine { hs with voted := fun {i header'} hi => ?_ }
    rw [Std.TreeMap.getElem?_insert] at hi
    split at hi
    · obtain rfl := Option.some.inj hi
      exact ⟨(Bool.and_eq_true_iff.mp hv).1, h⟩
    · exact hs.voted hi
  · exact hs

/-- A node that handles a message. -/
theorem Origins.onMessage (hs : s.Origins keyPairs k) (sender : Fin n) {m : NodeMessage L}
    (hm : m.Original keyPairs) : (s.onMessage stamp sender m).1.Origins keyPairs k ∧
      ∀ x, (s.onMessage stamp sender m).2 = some x → x.message.Original keyPairs := by
  cases m with
  | newRound blockNumber =>
    simp only [Node.onMessage, onMessageNewRound]
    split
    · exact ⟨hs, fun x hx => by cases hx⟩
    · have hs' : { s with newRoundMessages := s.newRoundMessages.insert sender blockNumber }.Origins keyPairs k :=
        { hs with }
      split
      · exact hs'.setState (by simp) (by simp)
      · exact ⟨hs', fun x hx => by cases hx⟩
  | propose header =>
    simp only [Node.onMessage, onMessagePropose]
    split
    · rename_i hv
      refine ⟨{ hs with proposed := fun {i header'} hi => ?_ }, fun x hx => by cases hx⟩
      rw [Std.TreeMap.getElem?_insert] at hi
      split at hi
      · obtain rfl := Option.some.inj hi
        exact ⟨(Bool.and_eq_true_iff.mp hv).1, hm⟩
      · exact hs.proposed hi
    · exact ⟨hs, fun x hx => by cases hx⟩
  | vote header =>
    have hs' : (s.recordVote sender header).Origins keyPairs k := hs.recordVote sender hm
    simp only [Node.onMessage, onMessageVote]
    split
    · rename_i h hmajor
      obtain ⟨i, hi⟩ := exists_of_findMajorVoted hmajor
      have hs'' : { s.recordVote sender header with votedHeader := h }.Origins keyPairs k :=
        { hs' with elected := fun _ => hs'.voted hi }
      exact hs''.setState (by simp) fun _ => hs'.voted hi
    · exact ⟨hs', fun x hx => by cases hx⟩
  | blockReq blockNumber blockHash =>
    simp only [Node.onMessage, onMessageBlockReq]
    split
    · exact ⟨hs, fun x hx => by cases hx⟩
    · split
      · exact ⟨hs, fun x hx => by cases hx⟩
      · refine ⟨hs, fun x hx => ?_⟩
        cases hx
        exact made_nominee hs
  | blockAck b =>
    have hs' : { s with blockVerify := b }.Origins keyPairs k := { hs with verify := hm }
    simp only [Node.onMessage, onMessageBlockAck]
    split
    · refine ⟨hs', fun x hx => ?_⟩
      cases hx
      exact hm
    · exact ⟨hs', fun x hx => by cases hx⟩
  | commit b =>
    simp only [Node.onMessage, onMessageCommit]
    split
    · rename_i hv
      split
      · refine ⟨{ hs with chain := fun {b'} hb => ?_ }, fun x hx => by cases hx⟩
        rcases List.mem_append.mp hb with hb | hb
        · exact hs.chain hb
        · rw [List.mem_singleton.mp hb]
          exact ⟨(Bool.and_eq_true_iff.mp hv).1, hm⟩
      · exact ⟨{ hs with }, fun x hx => by cases hx⟩
    · exact ⟨hs, fun x hx => by cases hx⟩

/-- A node that is polled. -/
theorem Origins.onMain (hs : s.Origins keyPairs k) (timestamp : Nat) :
    (s.onMain timestamp stamp).1.Origins keyPairs k ∧
      ∀ x, (s.onMain timestamp stamp).2 = some x → x.message.Original keyPairs := by
  have hquiet : s.Origins keyPairs k ∧ ∀ x, (none : Option (Send L n)) = some x → x.message.Original keyPairs :=
    ⟨hs, fun x hx => by cases hx⟩
  unfold Node.onMain
  dsimp only
  split
  · exact hquiet
  · split
    · refine ⟨{ hs with }, fun x hx => ?_⟩
      cases hx
      trivial
    · exact hquiet
  all_goals
    split
    · exact hs.setState (by simp) (by simp)
    · exact hquiet

theorem origins_start (keyPairs : Fin n → L.Account) (blockCommitCnt : Nat) :
    (start (keyPairs k) blockCommitCnt : Node L n).Origins keyPairs k where
  keyPair := rfl
  ne_null := NodeState.noConfusion
  nominee := .inl rfl
  verify := .inl rfl
  chain h := by cases h
  proposed h := by simp [start] at h
  voted h := by simp [start] at h
  elected h := by cases h

end Node

theorem keeps_origins (keyPairs : Fin n → L.Account) :
    NodeManager.Keeps (Node.Origins keyPairs) (NodeMessage.Original (L := L) keyPairs) := by
  intro k s stamp event hs he
  cases event with
  | main timestamp => exact hs.onMain timestamp
  | message sender m => exact hs.onMessage sender (he sender m rfl)

/-- In every run of the nodes, whatever their clocks and the order of the
polls: each block of a chain is valid and was made and signed by one of the
nodes, unless it is `block()`; so were the blocks of the headers that are
recorded or elected; and a node makes its nominee itself. -/
theorem origins_run (keyPairs : Fin n → L.Account) (blockCommitCnt : Fin n → Nat) (es : List (Fin n × Nat))
    (k : Fin n) : ((run NodeManager.onMain (.start keyPairs blockCommitCnt) es).nodes k).Origins keyPairs k :=
  (keeps_origins keyPairs).run (fun _ => Node.origins_start _ _) es k

end Bryllite.Bcp
