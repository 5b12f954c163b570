import Bryllite.Framework.Network
import Bryllite.Framework.Run
import Bryllite.NodeServerMono.BcpServer
import Bryllite.NodeServerMono.BlockChain

/-!
# The nodes and their messages (node-server-mono)

`node_server.cpp` and `node_manager.cpp`: what a node does with the messages
of its peers and when its server calls it back. A node is its number among
the `n` nodes of the manager, which is its `peer_id`. All messages are
delivered at once, in the order of the nodes; a message whose receiver sends
nothing changes the receiver alone.

Beside the nodes, the manager keeps what was broadcast and what blocks were
built, and by whom. Neither is read by any node.
-/

namespace Bryllite.NodeServerMono

open Bryllite.Framework

/-- `node_server`. -/
structure NodeServer (L : Core) where
  nodeAccount : L.Account
  blockChain : BlockChain L := {}
  bcpServer : BcpServer L := ({} : BcpServer L).start

/-- The messages between the nodes. -/
inductive NodeMessage (L : Core) where
  | blockReq (blockIndex : Nat)
  | blockAck (b : L.Blk)
  | newRound (newBlockIndex : Nat)
  | propose (header : L.Header)
  | vote (header : L.Header)
  | commit (b : L.Blk)
  | verifyBlock (b : L.Blk)
deriving DecidableEq

variable {L : Core}

namespace NodeServer

/-- The coinbase of a block. -/
def blockReward : UInt64 := 100

/-- `create_block_for`, at `stamp`; `none` where it returns false. It is called
for positive indices only. -/
def createBlockFor (stamp blockIndex : Nat) (s : NodeServer L) : Option L.Blk :=
  if s.blockChain.blockExists blockIndex then none
  else
    let prevBlockHash := s.blockChain.getBlockHash (blockIndex - 1)
    let newBlock := L.newBlock stamp blockIndex prevBlockHash
    let txCoinbase := L.newCoinbase stamp s.nodeAccount (L.address s.nodeAccount) blockReward
    L.appendTransaction newBlock txCoinbase

/-- A block that a node makes and signs is built for its index. -/
theorem createBlockFor_built {stamp blockIndex : Nat} {s : NodeServer L} {b : L.Blk}
    (h : s.createBlockFor stamp blockIndex = some b) :
    L.Built stamp blockIndex (s.blockChain.getBlockHash (blockIndex - 1)) (L.sign s.nodeAccount b) := by
  unfold createBlockFor at h
  split at h
  · cases h
  · exact ⟨_, _, b, h, rfl⟩

/-- The node, with its server changed by `f`. -/
def mapServer (f : BcpServer L → BcpServer L) (s : NodeServer L) : NodeServer L :=
  { s with bcpServer := f s.bcpServer }

/-! ### Messages to which a node sends nothing -/

def onPeerMessageBlockAck (b : L.Blk) (s : NodeServer L) : NodeServer L :=
  { s with blockChain := s.blockChain.append b }

def onPeerMessageNewRound (sender : Int) (newBlockIndex : Nat) : NodeServer L → NodeServer L :=
  mapServer fun s => (s.appendNewRoundMessageFor sender newBlockIndex).getD s

def onPeerMessagePropose (sender : Int) (header : L.Header) : NodeServer L → NodeServer L :=
  mapServer fun s => (s.appendProposedBlockHeaderFor sender header).getD s

def onPeerMessageVote (sender : Int) (header : L.Header) : NodeServer L → NodeServer L :=
  mapServer fun s => (s.voteBlockHeaderFor sender header).getD s

def onPeerMessageCommit (allPeerCount : Nat) (sender : Int) (b : L.Blk) : NodeServer L → NodeServer L :=
  mapServer fun s => (s.addVerifiedBlock allPeerCount sender b).getD s

/-- What a node does itself with a message of `sender`. -/
def onPeerMessage (allPeerCount : Nat) (sender : Int) : NodeMessage L → NodeServer L → NodeServer L
  | .blockAck b => onPeerMessageBlockAck b
  | .newRound newBlockIndex => onPeerMessageNewRound sender newBlockIndex
  | .propose header => onPeerMessagePropose sender header
  | .vote header => onPeerMessageVote sender header
  | .commit b => onPeerMessageCommit allPeerCount sender b
  | .blockReq _ | .verifyBlock _ => id

end NodeServer

/-- `node_manager`: the nodes, what was broadcast, and what was built. -/
structure NodeManager (L : Core) (n : Nat) where
  nodeServers : Fin n → NodeServer L
  sent : List (Fin n × NodeMessage L) := []
  built : List (Fin n × L.Blk) := []

namespace NodeManager

variable {n : Nat}

/-- `peer_id` of the node with number `i`. -/
abbrev peerId (i : Fin n) : Int := (i.val : Int)

/-- `start`: nodes with these accounts and empty chains. -/
def start (accounts : Fin n → L.Account) : NodeManager L n where
  nodeServers i := { nodeAccount := accounts i }

/-- The server of node `i`. -/
def server (w : NodeManager L n) (i : Fin n) : BcpServer L := (w.nodeServers i).bcpServer

/-- The chain of node `i`. -/
def chain (w : NodeManager L n) (i : Fin n) : BlockChain L := (w.nodeServers i).blockChain

/-- The nodes, with node `i` changed by `f`. -/
def modify (i : Fin n) (f : NodeServer L → NodeServer L) (w : NodeManager L n) : NodeManager L n :=
  { w with nodeServers := Function.update w.nodeServers i (f (w.nodeServers i)) }

/-- `sendall` by node `i` of a message to which nodes send nothing. -/
def sendallLocal (i : Fin n) (m : NodeMessage L) (w : NodeManager L n) : NodeManager L n :=
  { w with
    nodeServers := broadcast (NodeServer.onPeerMessage n (peerId i) m) w.nodeServers
    sent := w.sent ++ [(i, m)] }

/-- `onPeerMessageBlockReq` at node `i`: the answer goes to `sender` alone. -/
def onPeerMessageBlockReq (i sender : Fin n) (blockIndex : Nat) (w : NodeManager L n) : NodeManager L n :=
  match (w.chain i).getBlock blockIndex with
  | some b => w.modify sender (NodeServer.onPeerMessage n (peerId i) (.blockAck b))
  | none => w

/-- `onPeerMessageVerifyBlock` at node `i`: the node commits to the elected
block if it verifies. -/
def onPeerMessageVerifyBlock (i : Fin n) (blockToVerify : L.Blk) (w : NodeManager L n) : NodeManager L n :=
  match (w.server i).getElectedBlockHeader n with
  | none => w
  | some electedHeader =>
    if electedHeader ≠ blockToVerify.header then w
    else if !L.verify blockToVerify then w
    else w.sendallLocal i (.commit blockToVerify)

/-- `onPeerMessage` at node `i`. -/
def onPeerMessage (i sender : Fin n) (m : NodeMessage L) (w : NodeManager L n) : NodeManager L n :=
  match m with
  | .blockReq blockIndex => w.onPeerMessageBlockReq i sender blockIndex
  | .verifyBlock b => w.onPeerMessageVerifyBlock i b
  | m => w.modify i (NodeServer.onPeerMessage n (peerId sender) m)

/-- `sendall` by node `i`. -/
def sendall (i : Fin n) (m : NodeMessage L) (w : NodeManager L n) : NodeManager L n :=
  (List.finRange n).foldl (fun w k => w.onPeerMessage k i m) { w with sent := w.sent ++ [(i, m)] }

/-! ## The callbacks of node `i` -/

section Callback

variable (i : Fin n)

def onBcpNewRoundReady (w : NodeManager L n) : NodeManager L n :=
  w.sendall i (.newRound ((w.chain i).height + 1))

/-- The block is built at a stamp of its own: the number of blocks before it. -/
def onBcpNewRoundStartFor (blockRound : Nat) (w : NodeManager L n) : NodeManager L n :=
  match (w.nodeServers i).createBlockFor w.built.length blockRound with
  | none => w
  | some newBlock =>
    let account := (w.nodeServers i).nodeAccount
    let newBlock := L.sign account newBlock
    let w := w.modify i (.mapServer (.setCandidateBlock newBlock))
    let w := w.modify i (.mapServer fun s =>
      (s.appendUserBlockHeaderFor (L.address account) newBlock.header).getD s)
    { w with built := w.built ++ [(i, newBlock)] }

def onBcpStepProposeStartFor (w : NodeManager L n) : NodeManager L n :=
  match (w.server i).selectUserBlockHeader with
  | none => w
  | some (_, userHeader) =>
    let w := w.modify i (.mapServer fun s =>
      s.setCandidateBlock { s.candidateBlock with header := userHeader })
    w.sendall i (.propose userHeader)

def onBcpStepVoteStartFor (w : NodeManager L n) : NodeManager L n :=
  match (w.server i).selectProposedBlockHeader with
  | none => w
  | some voteHeader =>
    let w := w.modify i (.mapServer (.setMyVote voteHeader))
    w.sendall i (.vote voteHeader)

def onBcpStepCommitStartFor (_electedHeader : L.Header) (myVotes : Bool) (w : NodeManager L n) :
    NodeManager L n :=
  if myVotes then w.sendall i (.verifyBlock (w.server i).candidateBlock) else w

def onBcpNewBlockCommitFor (commitBlock : L.Blk) (w : NodeManager L n) : NodeManager L n :=
  w.modify i fun s =>
    { s with blockChain := s.blockChain.append commitBlock
             bcpServer := s.bcpServer.clearIntermediateData }

def onBcpConsensusFail (w : NodeManager L n) : NodeManager L n :=
  w.modify i (.mapServer .clearIntermediateData)

/-- The callbacks of node `i`. -/
def callback : Iface L (NodeManager L n) where
  server w := w.server i
  modify f := modify i (.mapServer f)
  onBcpNewRoundReady := onBcpNewRoundReady i
  onBcpNewRoundStartFor := onBcpNewRoundStartFor i
  onBcpStepProposeStartFor := onBcpStepProposeStartFor i
  onBcpStepVoteStartFor := onBcpStepVoteStartFor i
  onBcpStepCommitStartFor := onBcpStepCommitStartFor i
  onBcpNewBlockCommitFor := onBcpNewBlockCommitFor i
  onBcpConsensusFail := onBcpConsensusFail i
  allPeerCount := n

end Callback

/-- A call of `process` at a node, when the clock reads the given time. -/
def main (w : NodeManager L n) (e : Fin n × Nat) : NodeManager L n := process (callback e.1) e.2 w

end NodeManager

end Bryllite.NodeServerMono
