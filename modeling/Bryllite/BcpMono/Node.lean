import Bryllite.BcpMono.BlockChain
import Bryllite.BcpMono.Vector

/-!
# A node (bcp_mono)

`node.hpp` and `node.cpp`: the state of a node, and what it does with the
messages to which it sends nothing. The lists of what it received are filled
in every state, and emptied when it enters waiting.
-/

namespace Bryllite.BcpMono

/-- `node_state`. -/
inductive NodeState where
  | null
  | sync
  | waiting
  | newRound
  | propose
  | vote
  | commit
deriving DecidableEq

/-! `bcp_timeout`, in seconds of a block time. -/

def bcpTimeoutPop : Nat := 5
def bcpTimeoutPropose : Nat := 10
def bcpTimeoutVote : Nat := 20
def bcpTimeoutCommit : Nat := 30
def bcpBlockTime : Nat := bcpTimeoutCommit

/-- What a node reads of its clocks: the seconds of the ntp timer, and the
milliseconds of `bryllite::timestamp`. -/
structure Clock where
  ntp : Nat
  timestamp : Nat
deriving DecidableEq

/-- `get_current_round_time`, the seconds in the round, -/
def getCurrentRoundTime (clock : Clock) : Nat := clock.ntp % bcpBlockTime

/-- and the round. -/
def getCurrentRound (clock : Clock) : Nat := clock.ntp / bcpBlockTime

/-- `node`. -/
structure Node (L : Core) where
  keyPair : L.Account
  blockChain : BlockChain L := {}
  nodeState : NodeState := .null
  syncTime : Nat := 0
  syncTargetBlockHeight : List Nat := []
  receivedNewRound : List Nat := []
  newRoundMessageSent : Bool
  currentRoundTime : Int
  newBlockIndex : Nat := 0
  newBlock : L.Blk := L.defaultBlock
  userBlockHeader : List L.Header := []
  proposeHeader : List L.Header := []
  voteHeader : List L.Header := []
  commitBlockHeader : L.Header := L.defaultHeader
  commitBlock : L.Blk := L.defaultBlock
  commit : List L.Blk := []

/-- The messages between the nodes; no node sends `node_message_block_req` or
`node_message_block_ack`, and no node does anything with them. -/
inductive NodeMessage (L : Core) where
  | blockHeightReq (blockHeight : Nat)
  | blockHeightAck (blockHeight : Nat)
  | newRound (newBlockIndex : Nat)
  | propose (header : L.Header)
  | vote (header : L.Header)
  | commit (b : L.Blk)
  | commitBlockReq (header : L.Header)
  | commitBlockAck (b : L.Blk)
deriving DecidableEq

namespace Node

variable {L : Core}

/-- `append_block`; where it returns false, the node is as before. -/
def appendBlock (b : L.Blk) (s : Node L) : Node L :=
  { s with blockChain := (s.blockChain.appendBlock (L.blockIndex b.header) b true).getD s.blockChain }

/-- `get_block_hash`. -/
def getBlockHash (s : Node L) (blockIndex : Nat) : Option L.Hash :=
  (s.blockChain.getBlock blockIndex).map fun b => L.getHeaderHash b.header

/-- `create_block_for`, at `stamp`; `none` where it returns false. -/
def createBlockFor (stamp blockIndex : Nat) (s : Node L) : Option L.Blk :=
  let blockReward : UInt64 := 100
  let build (hashPrevBlock : L.Hash) : Option L.Blk :=
    L.appendTransaction (L.newBlock stamp blockIndex hashPrevBlock)
      (L.newTransaction stamp s.keyPair (L.address s.keyPair) (L.address s.keyPair) blockReward)
  if 1 < blockIndex then (s.getBlockHash (blockIndex - 1)).bind build else build L.nullHash

/-- A block that a node makes and signs is built for its index, after the block
the node holds before it. -/
theorem createBlockFor_prev {stamp blockIndex : Nat} {s : Node L} {b : L.Blk}
    (h : s.createBlockFor stamp blockIndex = some b) :
    ∃ p, L.Built stamp blockIndex p (L.sign s.keyPair b) ∧ (1 < blockIndex →
      ∃ b', s.blockChain.getBlock (blockIndex - 1) = some b' ∧ p = L.getHeaderHash b'.header) := by
  unfold createBlockFor at h
  dsimp only at h
  split at h
  · obtain ⟨p, hp, h⟩ := Option.bind_eq_some_iff.mp h
    obtain ⟨b', hb', hp⟩ := Option.map_eq_some_iff.mp hp
    exact ⟨p, ⟨_, _, b, h, rfl⟩, fun _ => ⟨b', hb', hp.symm⟩⟩
  · rename_i hi
    exact ⟨_, ⟨_, _, b, h, rfl⟩, fun hi' => absurd hi' hi⟩

theorem createBlockFor_built {stamp blockIndex : Nat} {s : Node L} {b : L.Blk}
    (h : s.createBlockFor stamp blockIndex = some b) :
    ∃ p, L.Built stamp blockIndex p (L.sign s.keyPair b) := by
  obtain ⟨p, hp, -⟩ := createBlockFor_prev h
  exact ⟨p, hp⟩

/-- The part of `on_state_waiting_begin` in which the lists are emptied. -/
def clear (s : Node L) : Node L :=
  { s with
    receivedNewRound := []
    userBlockHeader := []
    proposeHeader := []
    voteHeader := []
    commit := [] }

/-- `start`: the node with its key pair, in sync since `syncTime`. Nothing sets
`_new_round_message_sent` and `_current_round_time` before they are read. -/
def start (keyPair : L.Account) (syncTime : Nat) (newRoundMessageSent : Bool) (currentRoundTime : Int) :
    Node L where
  keyPair := keyPair
  nodeState := .sync
  syncTime := syncTime
  newRoundMessageSent := newRoundMessageSent
  currentRoundTime := currentRoundTime

/-- What a node does with a message to which it sends nothing. -/
def onMessage : NodeMessage L → Node L → Node L
  | .blockHeightAck blockHeight, s =>
    { s with syncTargetBlockHeight := s.syncTargetBlockHeight ++ [blockHeight] }
  | .newRound newBlockIndex, s => { s with receivedNewRound := s.receivedNewRound ++ [newBlockIndex] }
  | .propose header, s => { s with proposeHeader := s.proposeHeader ++ [header] }
  | .vote header, s => { s with voteHeader := s.voteHeader ++ [header] }
  | .commit b, s => { s with commit := s.commit ++ [b] }
  | .blockHeightReq _, s | .commitBlockReq _, s | .commitBlockAck _, s => s

end Node

end Bryllite.BcpMono
