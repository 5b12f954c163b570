import Bryllite.BcpMono.Node
import Bryllite.Framework.Network

/-!
# The nodes (bcp_mono)

`node_manager.cpp`, and the part of `node.cpp` in which nodes send: what a call
of `onMain` at a node does, and the messages it answers. A node is its number
among the `n` nodes of the manager. All messages are delivered at once, in the
order of the nodes; a message whose receiver sends nothing changes the receiver
alone.

Beside the nodes, the manager keeps what was broadcast and what blocks were
built, and by whom. Neither is read by any node.
-/

namespace Bryllite.BcpMono

open Bryllite.Framework

/-- `node_manager`: the nodes, what was broadcast, and what was built. -/
structure NodeManager (L : Core) (n : Nat) where
  nodes : Fin n → Node L
  sent : List (Fin n × NodeMessage L) := []
  built : List (Fin n × L.Blk) := []

namespace NodeManager

variable {L : Core} {n : Nat}

/-- Nodes just started, with empty chains. -/
def start (keyPair : Fin n → L.Account) (syncTime : Fin n → Nat) (newRoundMessageSent : Fin n → Bool)
    (currentRoundTime : Fin n → Int) : NodeManager L n where
  nodes i := .start (keyPair i) (syncTime i) (newRoundMessageSent i) (currentRoundTime i)

/-- The nodes, with node `i` changed by `f`. -/
def modify (i : Fin n) (f : Node L → Node L) (w : NodeManager L n) : NodeManager L n :=
  { w with nodes := Function.update w.nodes i (f (w.nodes i)) }

/-! ## Messages -/

/-- `sendall` by node `i` of a message to which nodes send nothing. -/
def sendallLocal (i : Fin n) (m : NodeMessage L) (w : NodeManager L n) : NodeManager L n :=
  { w with
    nodes := broadcast (Node.onMessage m) w.nodes
    sent := w.sent ++ [(i, m)] }

/-- `request_commit`. -/
def requestCommit (i : Fin n) (b : L.Blk) (w : NodeManager L n) : NodeManager L n :=
  w.sendallLocal i (.commit b)

/-- `onMessageBlockHeightReq` at node `i`. -/
def onMessageBlockHeightReq (i sender : Fin n) (w : NodeManager L n) : NodeManager L n :=
  w.modify sender (Node.onMessage (.blockHeightAck (w.nodes i).blockChain.size))

/-- `onMessageCommitBlockAck` at node `i`. -/
def onMessageCommitBlockAck (i : Fin n) (b : L.Blk) (w : NodeManager L n) : NodeManager L n :=
  let w := w.modify i fun s => { s with commitBlock := b }
  if L.valid b && b.header = (w.nodes i).commitBlockHeader && L.merkleRootHash b = L.hashMerkleRoot b.header
  then w.requestCommit i b
  else w

/-- `onMessageCommitBlockReq` at node `i`. -/
def onMessageCommitBlockReq (i sender : Fin n) (header : L.Header) (w : NodeManager L n) :
    NodeManager L n :=
  if header = (w.nodes i).newBlock.header then w.onMessageCommitBlockAck sender (w.nodes i).newBlock
  else w

/-- `onMessage` at node `i`. -/
def onMessage (i sender : Fin n) (m : NodeMessage L) (w : NodeManager L n) : NodeManager L n :=
  match m with
  | .blockHeightReq _ => w.onMessageBlockHeightReq i sender
  | .commitBlockReq header => w.onMessageCommitBlockReq i sender header
  | .commitBlockAck b => w.onMessageCommitBlockAck i b
  | m => w.modify i (Node.onMessage m)

/-- `sendall` by node `i`. -/
def sendall (i : Fin n) (m : NodeMessage L) (w : NodeManager L n) : NodeManager L n :=
  (List.finRange n).foldl (fun w k => w.onMessage k i m) { w with sent := w.sent ++ [(i, m)] }

/-! ## Node `i`, at `clock` -/

section Main

variable (i : Fin n) (clock : Clock)

/-- `request_block_sync`. -/
def requestBlockSync (w : NodeManager L n) : NodeManager L n :=
  (w.modify i fun s => { s with syncTargetBlockHeight := [] }).sendall i
    (.blockHeightReq (w.nodes i).blockChain.size)

/-- `request_new_round`: once a round, in its first seconds. -/
def requestNewRound (newBlockIndex : Nat) (w : NodeManager L n) : NodeManager L n :=
  let w := w.modify i fun s =>
    if s.currentRoundTime < getCurrentRound clock then
      { s with currentRoundTime := getCurrentRound clock, newRoundMessageSent := false }
    else s
  if !(w.nodes i).newRoundMessageSent && decide (getCurrentRoundTime clock < bcpTimeoutPop) then
    (w.modify i fun s => { s with newRoundMessageSent := true }).sendall i (.newRound newBlockIndex)
  else w

def onStateSyncBegin (w : NodeManager L n) : NodeManager L n :=
  w.modify i fun s => { s with syncTime := clock.timestamp }

def onStateWaitingBegin (w : NodeManager L n) : NodeManager L n := w.modify i .clear

/-- The block is built at a stamp of its own: the number of blocks before it. -/
def onStateNewRoundBegin (w : NodeManager L n) : NodeManager L n :=
  let s := w.nodes i
  match s.createBlockFor w.built.length s.newBlockIndex with
  | none => w
  | some b =>
    let newBlock := L.sign s.keyPair b
    let w := w.modify i fun s =>
      { s with newBlock := newBlock, userBlockHeader := s.userBlockHeader ++ [newBlock.header] }
    { w with built := w.built ++ [(i, newBlock)] }

def onStateProposeBegin (w : NodeManager L n) : NodeManager L n :=
  match lowValue L.headerLt (w.nodes i).userBlockHeader with
  | none => w
  | some h => w.sendall i (.propose h)

def onStateVoteBegin (w : NodeManager L n) : NodeManager L n :=
  match lowValue L.headerLt (w.nodes i).proposeHeader with
  | none => w
  | some h => w.sendall i (.vote h)

def onStateCommitBegin (w : NodeManager L n) : NodeManager L n :=
  w.sendall i (.commitBlockReq (w.nodes i).commitBlockHeader)

/-- `on_state_begin`. -/
def onStateBegin (w : NodeManager L n) : NodeState → NodeManager L n
  | .null => w
  | .sync => w.onStateSyncBegin i clock
  | .waiting => w.onStateWaitingBegin i
  | .newRound => w.onStateNewRoundBegin i
  | .propose => w.onStateProposeBegin i
  | .vote => w.onStateVoteBegin i
  | .commit => w.onStateCommitBegin i

/-- `set_state`; no `on_state_*_end` does anything. -/
def setState (state : NodeState) (w : NodeManager L n) : NodeManager L n :=
  if (w.nodes i).nodeState = state then w
  else (w.modify i fun s => { s with nodeState := state }).onStateBegin i clock state

def onStateSyncMain (w : NodeManager L n) : NodeManager L n :=
  let w := w.setState i clock .waiting
  if (w.nodes i).syncTime + 1000 < clock.timestamp then
    (w.modify i fun s => { s with syncTime := clock.timestamp }).requestBlockSync i
  else match getValueIfCountExceeds (w.nodes i).syncTargetBlockHeight (n / 2) with
    | some blockHeight =>
      if blockHeight ≤ (w.nodes i).blockChain.size then w.setState i clock .waiting else w
    | none => w

def onStateWaitingMain (w : NodeManager L n) : NodeManager L n :=
  let newBlockIndex := (w.nodes i).blockChain.size + 1
  let w := w.requestNewRound i clock newBlockIndex
  match getValueIfCountExceeds (w.nodes i).receivedNewRound (n / 2) with
  | some blockIndex =>
    if newBlockIndex = blockIndex then
      (w.modify i fun s => { s with newBlockIndex := blockIndex }).setState i clock .newRound
    else if newBlockIndex < blockIndex then w.setState i clock .sync
    else w
  | none => w

def onStateNewRoundMain (w : NodeManager L n) : NodeManager L n :=
  if bcpTimeoutPop < getCurrentRoundTime clock then w.setState i clock .propose else w

def onStateProposeMain (w : NodeManager L n) : NodeManager L n :=
  if bcpTimeoutPropose < getCurrentRoundTime clock then w.setState i clock .vote else w

def onStateVoteMain (w : NodeManager L n) : NodeManager L n :=
  if bcpTimeoutVote < getCurrentRoundTime clock then w.setState i clock .waiting
  else match getValueIfCountExceeds (w.nodes i).voteHeader (n / 2) with
    | some h => (w.modify i fun s => { s with commitBlockHeader := h }).setState i clock .commit
    | none => w

def onStateCommitMain (w : NodeManager L n) : NodeManager L n :=
  if getCurrentRoundTime clock ≤ 1 then w.setState i clock .waiting
  else match getValueIfCountExceeds (w.nodes i).commit (n / 2) with
    | some b => (w.modify i (Node.appendBlock b)).setState i clock .waiting
    | none => w

end Main

/-- A call of `onMain` at a node, at a clock: `on_state_main`. -/
def onMain (w : NodeManager L n) (e : Fin n × Clock) : NodeManager L n :=
  match (w.nodes e.1).nodeState with
  | .null => w
  | .sync => w.onStateSyncMain e.1 e.2
  | .waiting => w.onStateWaitingMain e.1 e.2
  | .newRound => w.onStateNewRoundMain e.1 e.2
  | .propose => w.onStateProposeMain e.1 e.2
  | .vote => w.onStateVoteMain e.1 e.2
  | .commit => w.onStateCommitMain e.1 e.2

end NodeManager

end Bryllite.BcpMono
