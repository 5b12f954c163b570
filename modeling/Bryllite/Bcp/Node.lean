import Bryllite.Core
import Bryllite.Framework.Count
import Mathlib.Data.List.MinMax

/-!
# A node (bcp.cpp)

The class `node` of `tests/dev/bcp.cpp`: its state, and what a call of `onMain`
or of a message handler does to it. All that a handler sends, it sends last and
in one call of `sendall` or `sendto`; so a handler is a function to the new
state and what is sent (`Send`), and who delivers it is left to the
`NodeManager`.
-/

namespace Bryllite.Bcp

open Std (TreeMap)

/-- What `bcp.cpp` uses of `bryllite-core`, beside `Core`. -/
structure Lib extends Core where
  /-- `block_header::valid`. -/
  headerValid : Header → Bool
  /-- `uint256::GetHex`. -/
  getHex : Hash → HashString
  getHex_injective : Function.Injective getHex
  /-- The random transactions of a block made at `stamp`. -/
  randomTransactions (stamp : Nat) : List Transaction

/-- The small instance, with hashes as their own hex strings. -/
def Lib.sample : Lib where
  toCore := Core.sample
  headerValid _ := true
  getHex := id
  getHex_injective := fun _ _ h => h
  randomTransactions _ := []

/-- `node_state`. -/
inductive NodeState where
  | null
  | waiting
  | newRound
  | propose
  | vote
  | commit
deriving DecidableEq

/-- The messages between the nodes. -/
inductive NodeMessage (L : Lib) where
  | newRound (blockNumber : Nat)
  | propose (header : L.Header)
  | vote (header : L.Header)
  | blockReq (blockNumber : Nat) (blockHash : L.Hash)
  | blockAck (blockData : L.Blk)
  | commit (b : L.Blk)

/-- What a handler sends: a message by `sendall`, or to one node by `sendto`. -/
inductive Send (L : Lib) (n : Nat) where
  | sendall (m : NodeMessage L)
  | sendto (k : Fin n) (m : NodeMessage L)

/-- `get_current_time_sec`, of a timestamp in milliseconds. -/
def getCurrentTimeSec (timestamp : Nat) : Nat := timestamp / 1000 % 30

/-- `node`, one of `n`. The maps from nodes have their numbers as keys. -/
structure Node (L : Lib) (n : Nat) where
  keyPair : L.Account
  nodeState : NodeState := .null
  blockChain : List L.Blk := []
  newRoundMessages : TreeMap (Fin n) Nat := ∅
  proposeMessages : TreeMap (Fin n) L.Header := ∅
  voteMessages : TreeMap (Fin n) L.Header := ∅
  voteMessagesCnt : TreeMap L.Hash Nat := ∅
  currentBlockIndex : Nat := 2 ^ 64 - 1
  blockNominee : L.Blk := L.defaultBlock
  votedHeader : L.Header := L.defaultHeader
  blockVerify : L.Blk := L.defaultBlock
  /-- Not set before the node first enters commit. -/
  blockCommitCnt : Nat
  messageSent : NodeState → Bool := fun _ => false

namespace Node

variable {L : Lib} {n : Nat}

/-- `get_block`, or `block()` where there is none. -/
def getBlock (blockNumber : Nat) (s : Node L n) : L.Blk :=
  (s.blockChain.find? fun b => L.blockIndex b.header = blockNumber).getD L.defaultBlock

/-- `get_block_hash`. -/
def getBlockHash (blockNumber : Nat) (s : Node L n) : L.Hash :=
  if blockNumber = 0 then L.nullHash else L.getHeaderHash (s.getBlock blockNumber).header

/-- `create_block_for`, at `stamp`. Where `append_transaction` returns false,
the block is as before. -/
def createBlockFor (stamp blockHeight : Nat) (s : Node L n) : L.Blk :=
  let hashPrevBlock := s.getBlockHash (blockHeight - 1)
  let blockReward : UInt64 := 100
  let txReward := L.newTransaction stamp s.keyPair (L.address s.keyPair) (L.address s.keyPair) blockReward
  (txReward :: L.randomTransactions stamp).foldl (fun b tx => (L.appendTransaction b tx).getD b)
    (L.newBlock stamp blockHeight hashPrevBlock)

/-- `find_lowest_proposed`: of the proposed headers, in the order of the nodes,
the first whose hash has the lowest hex string. -/
def findLowestProposed (s : Node L n) : L.Header :=
  ((s.proposeMessages.toList.map Prod.snd).argmin fun h => L.getHex (L.getHeaderHash h)).getD L.defaultHeader

/-- `find_major_voted`: the counted hashes in their order, each with the votes
in the order of the nodes. -/
def findMajorVoted (s : Node L n) : Option L.Header :=
  s.voteMessagesCnt.toList.findSome? fun e =>
    if n < e.2 * 2 then (s.voteMessages.toList.map Prod.snd).find? fun h => e.1 = L.getHeaderHash h else none

/-- `on_state_begin`, at `stamp`. -/
def onStateBegin (stamp : Nat) (state : NodeState) (s : Node L n) : Node L n × Option (Send L n) :=
  let s := { s with messageSent := fun _ => false }
  match state with
  | .null => (s, none)
  | .waiting => ({ s with newRoundMessages := ∅, proposeMessages := ∅, voteMessages := ∅ }, none)
  | .newRound =>
    let currentBlockIndex := s.blockChain.length + 1
    ({ s with
        currentBlockIndex := currentBlockIndex
        blockNominee := L.sign s.keyPair (s.createBlockFor stamp currentBlockIndex) }, none)
  | .propose =>
    if !s.messageSent .propose then
      ({ s with messageSent := Function.update s.messageSent .propose true },
        some (.sendall (.propose s.blockNominee.header)))
    else (s, none)
  | .vote => (s, some (.sendall (.vote s.findLowestProposed)))
  | .commit =>
    ({ s with blockCommitCnt := 0 },
      some (.sendall (.blockReq s.currentBlockIndex (L.getHeaderHash s.votedHeader))))

/-- `set_state`; `on_state_end` does nothing. -/
def setState (stamp : Nat) (state : NodeState) (s : Node L n) : Node L n × Option (Send L n) :=
  if s.nodeState = state then (s, none) else { s with nodeState := state }.onStateBegin stamp state

/-- `onMain`, at the time `timestamp`. -/
def onMain (timestamp stamp : Nat) (s : Node L n) : Node L n × Option (Send L n) :=
  let sec := getCurrentTimeSec timestamp
  match s.nodeState with
  | .null => (s, none)
  | .waiting =>
    if !s.messageSent .waiting && sec < 1 then
      ({ s with messageSent := Function.update s.messageSent .waiting true },
        some (.sendall (.newRound (s.blockChain.length + 1))))
    else (s, none)
  | .newRound => if 5 ≤ sec then s.setState stamp .propose else (s, none)
  | .propose => if 10 ≤ sec then s.setState stamp .vote else (s, none)
  | .vote => if 20 ≤ sec || sec ≤ 1 then s.setState stamp .waiting else (s, none)
  | .commit => if sec ≤ 1 then s.setState stamp .waiting else (s, none)

/-! ## Messages -/

/-- `onMessageNewRound`. -/
def onMessageNewRound (stamp : Nat) (sender : Fin n) (blockNumber : Nat) (s : Node L n) :
    Node L n × Option (Send L n) :=
  if s.newRoundMessages.contains sender then (s, none)
  else
    let s := { s with newRoundMessages := s.newRoundMessages.insert sender blockNumber }
    if n < s.newRoundMessages.size * 2 then s.setState stamp .newRound else (s, none)

/-- `onMessagePropose`. -/
def onMessagePropose (sender : Fin n) (header : L.Header) (s : Node L n) : Node L n × Option (Send L n) :=
  if L.headerValid header && !s.proposeMessages.contains sender then
    ({ s with proposeMessages := s.proposeMessages.insert sender header }, none)
  else (s, none)

/-- The part of `onMessageVote` in which a valid vote is kept and counted, if
the sender has none. -/
def recordVote (sender : Fin n) (header : L.Header) (s : Node L n) : Node L n :=
  if L.headerValid header && !s.voteMessages.contains sender then
    let hash := L.getHeaderHash header
    { s with
      voteMessages := s.voteMessages.insert sender header
      voteMessagesCnt :=
        if s.voteMessagesCnt.contains hash then
          s.voteMessagesCnt.insert hash (s.voteMessagesCnt.getD hash 0 + 1)
        else s.voteMessagesCnt.insert hash 1 }
  else s

/-- `onMessageVote`. -/
def onMessageVote (stamp : Nat) (sender : Fin n) (header : L.Header) (s : Node L n) :
    Node L n × Option (Send L n) :=
  let s := s.recordVote sender header
  match s.findMajorVoted with
  | some h => { s with votedHeader := h }.setState stamp .commit
  | none => (s, none)

/-- `onMessageBlockReq`. -/
def onMessageBlockReq (sender : Fin n) (blockNumber : Nat) (blockHash : L.Hash) (s : Node L n) :
    Node L n × Option (Send L n) :=
  if blockNumber ≠ s.currentBlockIndex then (s, none)
  else if blockHash ≠ L.getHeaderHash s.blockNominee.header then (s, none)
  else (s, some (.sendto sender (.blockAck s.blockNominee)))

/-- `onMessageBlockAck`. -/
def onMessageBlockAck (blockData : L.Blk) (s : Node L n) : Node L n × Option (Send L n) :=
  let s := { s with blockVerify := blockData }
  if L.valid s.blockVerify then (s, some (.sendall (.commit s.blockVerify))) else (s, none)

/-- `onMessageCommit`. -/
def onMessageCommit (b : L.Blk) (s : Node L n) : Node L n × Option (Send L n) :=
  if L.valid b && L.getHeaderHash s.blockVerify.header = L.getHeaderHash b.header then
    let s := { s with blockCommitCnt := s.blockCommitCnt + 1 }
    if n < s.blockCommitCnt * 2 then ({ s with blockChain := s.blockChain ++ [b] }, none) else (s, none)
  else (s, none)

/-- `onMessage`. -/
def onMessage (stamp : Nat) (sender : Fin n) (m : NodeMessage L) (s : Node L n) : Node L n × Option (Send L n) :=
  match m with
  | .newRound blockNumber => s.onMessageNewRound stamp sender blockNumber
  | .propose header => s.onMessagePropose sender header
  | .vote header => s.onMessageVote stamp sender header
  | .blockReq blockNumber blockHash => s.onMessageBlockReq sender blockNumber blockHash
  | .blockAck blockData => s.onMessageBlockAck blockData
  | .commit b => s.onMessageCommit b

/-- A node with its key pair, in waiting, as `initialize` leaves it. -/
def start (keyPair : L.Account) (blockCommitCnt : Nat) : Node L n where
  keyPair := keyPair
  nodeState := .waiting
  blockCommitCnt := blockCommitCnt

end Node

/-! ## The events of one node -/

/-- What a node meets: a call of `onMain` at a time, or a message of a node. -/
inductive Event (L : Lib) (n : Nat) where
  | main (timestamp : Nat)
  | message (sender : Fin n) (m : NodeMessage L)

variable {L : Lib} {n : Nat}

/-- What an event at `stamp` does, and what the node sends. -/
def Node.handle (e : Nat × Event L n) (s : Node L n) : Node L n × Option (Send L n) :=
  match e.2 with
  | .main timestamp => s.onMain timestamp e.1
  | .message sender m => s.onMessage e.1 sender m

/-- The node after an event. -/
def Node.step (s : Node L n) (e : Nat × Event L n) : Node L n := (s.handle e).1

/-! ## What changes the state of a node, and what it has received -/

namespace Node

/-- The state of the node, its new-round messages and its votes are as before. -/
structure Kept (s s' : Node L n) : Prop where
  nodeState : s'.nodeState = s.nodeState
  newRoundMessages : s'.newRoundMessages = s.newRoundMessages
  voteMessages : s'.voteMessages = s.voteMessages
  voteMessagesCnt : s'.voteMessagesCnt = s.voteMessagesCnt

section SetState

variable {s : Node L n} {stamp : Nat} {state : NodeState}

@[simp] theorem nodeState_setState : (s.setState stamp state).1.nodeState = state := by
  unfold setState
  split
  · assumption
  · cases state with
    | propose => rfl
    | _ => rfl

/-- A node that enters another state than waiting keeps what it has received. -/
theorem setState_keeps (h : state ≠ .waiting) :
    (s.setState stamp state).1.newRoundMessages = s.newRoundMessages ∧
    (s.setState stamp state).1.voteMessages = s.voteMessages ∧
    (s.setState stamp state).1.voteMessagesCnt = s.voteMessagesCnt := by
  unfold setState
  split
  · exact ⟨rfl, rfl, rfl⟩
  · cases state with
    | waiting => exact absurd rfl h
    | propose => exact ⟨rfl, rfl, rfl⟩
    | _ => exact ⟨rfl, rfl, rfl⟩

/-- A node that enters waiting keeps the counts of the votes alone. -/
theorem setState_waiting (h : s.nodeState ≠ .waiting) :
    (s.setState stamp .waiting).1.newRoundMessages = ∅ ∧ (s.setState stamp .waiting).1.voteMessages = ∅ ∧
    (s.setState stamp .waiting).1.voteMessagesCnt = s.voteMessagesCnt := by
  rw [setState, if_neg h]
  exact ⟨rfl, rfl, rfl⟩

end SetState

theorem kept_recordVote (s : Node L n) (sender : Fin n) (header : L.Header) :
    (s.recordVote sender header).nodeState = s.nodeState ∧
      (s.recordVote sender header).newRoundMessages = s.newRoundMessages := by
  unfold recordVote
  split <;> exact ⟨rfl, rfl⟩

/-- A message that is neither a new-round message nor a vote. -/
theorem kept_onMessage {m : NodeMessage L} (h1 : ∀ r, m ≠ .newRound r) (h2 : ∀ h, m ≠ .vote h) (s : Node L n)
    (stamp : Nat) (sender : Fin n) : s.Kept (s.onMessage stamp sender m).1 := by
  cases m with
  | newRound r => exact absurd rfl (h1 r)
  | vote h => exact absurd rfl (h2 h)
  | propose header =>
    simp only [onMessage, onMessagePropose]
    split <;> exact ⟨rfl, rfl, rfl, rfl⟩
  | blockReq i hash =>
    simp only [onMessage, onMessageBlockReq]
    split
    · exact ⟨rfl, rfl, rfl, rfl⟩
    · split <;> exact ⟨rfl, rfl, rfl, rfl⟩
  | blockAck b =>
    simp only [onMessage, onMessageBlockAck]
    split <;> exact ⟨rfl, rfl, rfl, rfl⟩
  | commit b =>
    simp only [onMessage, onMessageCommit]
    split
    · split <;> exact ⟨rfl, rfl, rfl, rfl⟩
    · exact ⟨rfl, rfl, rfl, rfl⟩

end Node

end Bryllite.Bcp
