import Bryllite.Core
import Bryllite.Framework.Count
import Mathlib.Data.List.MinMax

/-!
# The consensus server (node-server-mono)

`bcp_server.hpp` and `bcp_server.cpp`: the state of one `bcp_server`, the
functions the node calls with what its peers send, and `process`, which looks
at the clock and calls back into the node. `process` is written over any state
`σ` that holds a server (`Iface`), as its callbacks act on more than the
server. What a poll does depends on the server and the clock alone: `poll` is
that decision, `Iface.perform` carries it out, and `process_eq` is that
`process` does so.
-/

namespace Bryllite.NodeServerMono

open Std (TreeMap)
open Bryllite.Framework

/-- `bcp_step`. -/
inductive BcpStep where
  | null
  | waiting
  | proofOfParticipation
  | propose
  | vote
  | commit
deriving DecidableEq

/-! `bcp_timeout`, in seconds of a block time. -/

def bcpTimeoutProofOfParticipation : Nat := 5
def bcpTimeoutPropose : Nat := 10
def bcpTimeoutVote : Nat := 15
def bcpTimeoutCommit : Nat := 20
def bcpBlockTime : Nat := bcpTimeoutCommit

/-- `invalid_block_index`. -/
def invalidBlockIndex : Nat := 0

/-- `bcp_server`. A round is current only in name: nothing sets
`_current_round` but the constructor and `clear_intermediate_data`. -/
structure BcpServer (L : Core) where
  timeContext : Nat := 0
  currentStep : BcpStep := .null
  newRoundMessages : TreeMap Int Nat := ∅
  newRoundVotes : TreeMap Nat Nat := ∅
  currentRound : Nat := invalidBlockIndex
  candidateBlock : L.Blk := L.defaultBlock
  userBlockHeaders : TreeMap L.Address L.Header := ∅
  proposedBlockHeaders : TreeMap Int L.Header := ∅
  myVoteHeader : L.Header := L.defaultHeader
  voteBox : TreeMap Int L.Header := ∅
  voteHeaders : TreeMap L.Hash L.Header := ∅
  voteCounts : TreeMap L.Hash Nat := ∅
  verifiedBlocks : TreeMap Int L.Blk := ∅
  commitBlock : L.Blk := L.defaultBlock

namespace BcpServer

variable {L : Core}

/-- `clear_intermediate_data`. -/
def clearIntermediateData (s : BcpServer L) : BcpServer L :=
  { s with
    newRoundMessages := ∅
    newRoundVotes := ∅
    currentRound := invalidBlockIndex
    userBlockHeaders := ∅
    proposedBlockHeaders := ∅
    voteBox := ∅
    voteHeaders := ∅
    voteCounts := ∅
    verifiedBlocks := ∅ }

/-- `start`, once the timer is synchronised. -/
def start (s : BcpServer L) : BcpServer L := { s with currentStep := .waiting }

/-- `current_step( step )`. -/
def setCurrentStep (step : BcpStep) (s : BcpServer L) : BcpServer L := { s with currentStep := step }

/-- `s` at another step and time context. -/
def setClock (timeContext : Nat) (step : BcpStep) (s : BcpServer L) : BcpServer L :=
  { s with timeContext := timeContext, currentStep := step }

/-- `candidate_block( b )`. -/
def setCandidateBlock (b : L.Blk) (s : BcpServer L) : BcpServer L := { s with candidateBlock := b }

/-- `set_my_vote`. -/
def setMyVote (voteHeader : L.Header) (s : BcpServer L) : BcpServer L :=
  { s with myVoteHeader := voteHeader }

/-- `append_new_round_message_for`; like the other functions that add what a
peer sent, `none` where it returns false, the server unchanged. -/
def appendNewRoundMessageFor (peerId : Int) (roundIdx : Nat) (s : BcpServer L) : Option (BcpServer L) :=
  if s.newRoundMessages.contains peerId then none
  else some { s with
    newRoundMessages := s.newRoundMessages.insert peerId roundIdx
    newRoundVotes :=
      if s.newRoundVotes.contains roundIdx
      then s.newRoundVotes.insert roundIdx (s.newRoundVotes.getD roundIdx 0 + 1)
      else s.newRoundVotes.insert roundIdx 1 }

/-- `new_round_start_for`: the first round that as many peers as there are
announced. -/
def newRoundStartFor (allPeerCount : Nat) (s : BcpServer L) : Option Nat :=
  (s.newRoundVotes.toList.find? fun e => allPeerCount ≤ e.2 && invalidBlockIndex < e.1).map (·.1)

/-- `append_user_block_header_for`. -/
def appendUserBlockHeaderFor (address : L.Address) (header : L.Header) (s : BcpServer L) :
    Option (BcpServer L) :=
  if s.userBlockHeaders.contains address then none
  else some { s with userBlockHeaders := s.userBlockHeaders.insert address header }

/-- The loop of `select_user_block_header` and `select_proposed_block_header`:
the first of the entries with the lowest hash string. -/
def selectLowest {κ : Type} (entries : List (κ × L.Header)) : Option (κ × L.Header) :=
  entries.foldl (fun selected e => match selected with
    | none => some e
    | some cur => if L.getHashString e.2 < L.getHashString cur.2 then some e else some cur) none

theorem selectLowest_eq_argmin {κ : Type} (entries : List (κ × L.Header)) :
    selectLowest entries = entries.argmin fun e => L.getHashString e.2 := by
  refine List.foldl_ext _ _ _ fun o e _ => ?_
  cases o <;> rfl

/-- The selected entry is one of the entries. -/
theorem selectLowest_mem {κ : Type} {entries : List (κ × L.Header)} {e : κ × L.Header}
    (h : selectLowest entries = some e) : e ∈ entries :=
  List.argmin_mem (selectLowest_eq_argmin entries ▸ h)

/-- `select_user_block_header`. -/
def selectUserBlockHeader (s : BcpServer L) : Option (L.Address × L.Header) :=
  selectLowest s.userBlockHeaders.toList

/-- `append_proposed_block_header_for`. -/
def appendProposedBlockHeaderFor (peerId : Int) (proposedHeader : L.Header) (s : BcpServer L) :
    Option (BcpServer L) :=
  if s.proposedBlockHeaders.contains peerId then none
  else some { s with proposedBlockHeaders := s.proposedBlockHeaders.insert peerId proposedHeader }

/-- `select_proposed_block_header`. -/
def selectProposedBlockHeader (s : BcpServer L) : Option L.Header :=
  (selectLowest s.proposedBlockHeaders.toList).map (·.2)

/-- `vote_block_header_for`. -/
def voteBlockHeaderFor (peerId : Int) (voteHeader : L.Header) (s : BcpServer L) : Option (BcpServer L) :=
  if s.voteBox.contains peerId then none
  else
    let hash := L.getHeaderHash voteHeader
    some { s with
      voteBox := s.voteBox.insert peerId voteHeader
      voteHeaders :=
        if s.voteHeaders.contains hash then s.voteHeaders else s.voteHeaders.insert hash voteHeader
      voteCounts :=
        if s.voteCounts.contains hash then s.voteCounts.insert hash (s.voteCounts.getD hash 0 + 1)
        else s.voteCounts.insert hash 1 }

/-- The votes that elect, or commits that decide, among `allPeerCount` peers. -/
def qualifyVotes (allPeerCount : Nat) : Nat := allPeerCount / 2 + 1

/-- `get_elected_block_header`. A counted hash always has its header, so the
`operator[]` of the source inserts nothing (`Tally.header`). -/
def getElectedBlockHeader (allPeerCount : Nat) (s : BcpServer L) : Option L.Header :=
  (s.voteCounts.toList.find? fun e => qualifyVotes allPeerCount ≤ e.2).map
    fun e => s.voteHeaders.getD e.1 L.defaultHeader

/-- `add_verified_block`. -/
def addVerifiedBlock (allPeerCount : Nat) (peerId : Int) (verifiedBlock : L.Blk) (s : BcpServer L) :
    Option (BcpServer L) :=
  if s.verifiedBlocks.contains peerId then none
  else if s.getElectedBlockHeader allPeerCount = some verifiedBlock.header then
    some { s with
      verifiedBlocks := s.verifiedBlocks.insert peerId verifiedBlock
      commitBlock := verifiedBlock }
  else none

/-- `find_commit_block`. -/
def findCommitBlock (allPeerCount : Nat) (s : BcpServer L) : Option L.Blk :=
  if qualifyVotes allPeerCount ≤ s.verifiedBlocks.size then some s.commitBlock else none

/-- The round that starts is a valid index. -/
theorem newRoundStartFor_pos {allPeerCount r : Nat} {s : BcpServer L}
    (h : s.newRoundStartFor allPeerCount = some r) : 0 < r := by
  obtain ⟨e, he, rfl⟩ := Option.map_eq_some_iff.mp h
  have := List.find?_some he
  simp only [Bool.and_eq_true, decide_eq_true_eq] at this
  exact this.2

/-! ### What recording a message changes

A message is refused and the server unchanged, or its sender had sent none and
the server is as given. -/

section Record

variable (s : BcpServer L)

theorem newRound_cases (p : Int) (r : Nat) :
    (s.appendNewRoundMessageFor p r).getD s = s ∨
      s.newRoundMessages[p]? = none ∧ (s.appendNewRoundMessageFor p r).getD s = { s with
        newRoundMessages := s.newRoundMessages.insert p r
        newRoundVotes :=
          if s.newRoundVotes.contains r then s.newRoundVotes.insert r (s.newRoundVotes.getD r 0 + 1)
          else s.newRoundVotes.insert r 1 } := by
  unfold appendNewRoundMessageFor
  split
  · exact .inl rfl
  · exact .inr ⟨by simpa using ‹¬_›, rfl⟩

theorem userHeader_cases (a : L.Address) (h : L.Header) :
    (s.appendUserBlockHeaderFor a h).getD s = s ∨
      s.userBlockHeaders[a]? = none ∧ (s.appendUserBlockHeaderFor a h).getD s =
        { s with userBlockHeaders := s.userBlockHeaders.insert a h } := by
  unfold appendUserBlockHeaderFor
  split
  · exact .inl rfl
  · exact .inr ⟨by simpa using ‹¬_›, rfl⟩

theorem propose_cases (p : Int) (h : L.Header) :
    (s.appendProposedBlockHeaderFor p h).getD s = s ∨
      s.proposedBlockHeaders[p]? = none ∧ (s.appendProposedBlockHeaderFor p h).getD s =
        { s with proposedBlockHeaders := s.proposedBlockHeaders.insert p h } := by
  unfold appendProposedBlockHeaderFor
  split
  · exact .inl rfl
  · exact .inr ⟨by simpa using ‹¬_›, rfl⟩

theorem vote_cases (p : Int) (v : L.Header) :
    (s.voteBlockHeaderFor p v).getD s = s ∨
      s.voteBox[p]? = none ∧ (s.voteBlockHeaderFor p v).getD s = { s with
        voteBox := s.voteBox.insert p v
        voteHeaders :=
          if s.voteHeaders.contains (L.getHeaderHash v) then s.voteHeaders
          else s.voteHeaders.insert (L.getHeaderHash v) v
        voteCounts :=
          if s.voteCounts.contains (L.getHeaderHash v)
          then s.voteCounts.insert (L.getHeaderHash v) (s.voteCounts.getD (L.getHeaderHash v) 0 + 1)
          else s.voteCounts.insert (L.getHeaderHash v) 1 } := by
  unfold voteBlockHeaderFor
  split
  · exact .inl rfl
  · exact .inr ⟨by simpa using ‹¬_›, rfl⟩

theorem verified_cases (n : Nat) (p : Int) (b : L.Blk) :
    (s.addVerifiedBlock n p b).getD s = s ∨
      s.verifiedBlocks[p]? = none ∧ s.getElectedBlockHeader n = some b.header ∧
        (s.addVerifiedBlock n p b).getD s =
          { s with verifiedBlocks := s.verifiedBlocks.insert p b, commitBlock := b } := by
  unfold addVerifiedBlock
  split
  · exact .inl rfl
  · split
    · exact .inr ⟨by simpa using ‹¬_›, ‹_›, rfl⟩
    · exact .inl rfl

end Record

end BcpServer

/-! ## Polls -/

/-- `iface_bcp_server`, over a state `σ` that holds the server: what the node
does when the server calls back. -/
structure Iface (L : Core) (σ : Type) where
  server : σ → BcpServer L
  modify : (BcpServer L → BcpServer L) → σ → σ
  onBcpNewRoundReady : σ → σ
  onBcpNewRoundStartFor : Nat → σ → σ
  onBcpStepProposeStartFor : σ → σ
  onBcpStepVoteStartFor : σ → σ
  onBcpStepCommitStartFor : L.Header → Bool → σ → σ
  onBcpNewBlockCommitFor : L.Blk → σ → σ
  onBcpConsensusFail : σ → σ
  allPeerCount : Nat

/-- `timeline( time_context )`: the seconds of the clock in its block time. -/
def timeline (timestamp : Nat) : Nat := timestamp % bcpBlockTime

/-- The block time of the clock. -/
def timeContext (timestamp : Nat) : Nat := timestamp / bcpBlockTime

variable {L : Core} {σ : Type}

/-- `process`, when the clock reads `timestamp`. -/
def process (cb : Iface L σ) (timestamp : Nat) (w : σ) : σ :=
  let s := cb.server w
  match s.currentStep with
  | .null => w
  | .waiting =>
    if timeline timestamp < bcpTimeoutProofOfParticipation then
      if s.timeContext < timeContext timestamp then
        cb.onBcpNewRoundReady (cb.modify (fun s => { s with timeContext := timeContext timestamp }) w)
      else match s.newRoundStartFor cb.allPeerCount with
        | some newRoundIdx =>
          cb.modify (.setCurrentStep .proofOfParticipation) (cb.onBcpNewRoundStartFor newRoundIdx w)
        | none => w
    else w
  | .proofOfParticipation =>
    if bcpTimeoutProofOfParticipation < timeline timestamp then
      cb.modify (.setCurrentStep .propose) (cb.onBcpStepProposeStartFor w)
    else w
  | .propose =>
    if bcpTimeoutPropose < timeline timestamp then
      cb.modify (.setCurrentStep .vote) (cb.onBcpStepVoteStartFor w)
    else w
  | .vote =>
    if bcpTimeoutVote < timeline timestamp then
      cb.modify (.setCurrentStep .waiting) (cb.onBcpConsensusFail w)
    else match s.getElectedBlockHeader cb.allPeerCount with
      | some electedHeader =>
        cb.modify (.setCurrentStep .commit)
          (cb.onBcpStepCommitStartFor electedHeader (electedHeader = s.candidateBlock.header) w)
      | none => w
  | .commit =>
    if timeline timestamp < bcpTimeoutProofOfParticipation then
      cb.modify (.setCurrentStep .waiting) (cb.onBcpConsensusFail w)
    else match s.findCommitBlock cb.allPeerCount with
      | some commitBlock => cb.modify (.setCurrentStep .waiting) (cb.onBcpNewBlockCommitFor commitBlock w)
      | none => w

/-- What a poll does. -/
inductive Action (L : Core) where
  | idle
  | newRoundReady
  | newRoundStart (round : Nat)
  | proposeStart
  | voteStart
  | commitStart (electedHeader : L.Header)
  | newBlockCommit (commitBlock : L.Blk)
  | consensusFail

/-- What a poll at `timestamp` does, from the state of the server. -/
def poll (allPeerCount timestamp : Nat) (s : BcpServer L) : Action L :=
  match s.currentStep with
  | .null => .idle
  | .waiting =>
    if timeline timestamp < bcpTimeoutProofOfParticipation then
      if s.timeContext < timeContext timestamp then .newRoundReady
      else match s.newRoundStartFor allPeerCount with
        | some r => .newRoundStart r
        | none => .idle
    else .idle
  | .proofOfParticipation =>
    if bcpTimeoutProofOfParticipation < timeline timestamp then .proposeStart else .idle
  | .propose => if bcpTimeoutPropose < timeline timestamp then .voteStart else .idle
  | .vote =>
    if bcpTimeoutVote < timeline timestamp then .consensusFail
    else match s.getElectedBlockHeader allPeerCount with
      | some h => .commitStart h
      | none => .idle
  | .commit =>
    if timeline timestamp < bcpTimeoutProofOfParticipation then .consensusFail
    else match s.findCommitBlock allPeerCount with
      | some b => .newBlockCommit b
      | none => .idle

/-- The step an action leads to. -/
def Action.nextStep (step : BcpStep) : Action L → BcpStep
  | .idle | .newRoundReady => step
  | .newRoundStart _ => .proofOfParticipation
  | .proposeStart => .propose
  | .voteStart => .vote
  | .commitStart _ => .commit
  | .newBlockCommit _ | .consensusFail => .waiting

/-- The callback of an action, and the step it leads to. -/
def Iface.perform (cb : Iface L σ) (timestamp : Nat) (w : σ) : Action L → σ
  | .idle => w
  | .newRoundReady =>
    cb.onBcpNewRoundReady (cb.modify (fun s => { s with timeContext := timeContext timestamp }) w)
  | .newRoundStart r => cb.modify (.setCurrentStep .proofOfParticipation) (cb.onBcpNewRoundStartFor r w)
  | .proposeStart => cb.modify (.setCurrentStep .propose) (cb.onBcpStepProposeStartFor w)
  | .voteStart => cb.modify (.setCurrentStep .vote) (cb.onBcpStepVoteStartFor w)
  | .commitStart h => cb.modify (.setCurrentStep .commit)
      (cb.onBcpStepCommitStartFor h (h = (cb.server w).candidateBlock.header) w)
  | .newBlockCommit b => cb.modify (.setCurrentStep .waiting) (cb.onBcpNewBlockCommitFor b w)
  | .consensusFail => cb.modify (.setCurrentStep .waiting) (cb.onBcpConsensusFail w)

theorem process_eq (cb : Iface L σ) (timestamp : Nat) (w : σ) :
    process cb timestamp w = cb.perform timestamp w (poll cb.allPeerCount timestamp (cb.server w)) := by
  dsimp only [process, poll]
  cases (cb.server w).currentStep with
  | null => rfl
  | waiting =>
    dsimp only
    split
    · split
      · rfl
      · cases (cb.server w).newRoundStartFor cb.allPeerCount <;> rfl
    · rfl
  | proofOfParticipation => dsimp only; split <;> rfl
  | propose => dsimp only; split <;> rfl
  | vote =>
    dsimp only
    split
    · rfl
    · cases (cb.server w).getElectedBlockHeader cb.allPeerCount <;> rfl
  | commit =>
    dsimp only
    split
    · rfl
    · cases (cb.server w).findCommitBlock cb.allPeerCount <;> rfl

/-! ### The state a poll's action is taken in -/

section Poll

variable {n t : Nat} {s : BcpServer L}

theorem poll_newRoundReady (h : poll n t s = .newRoundReady) :
    s.currentStep = .waiting ∧ timeline t < bcpTimeoutProofOfParticipation ∧
      s.timeContext < timeContext t := by
  unfold poll at h
  repeat' split at h
  all_goals cases h
  exact ⟨by assumption, by assumption, by assumption⟩

theorem poll_newRoundStart {r : Nat} (h : poll n t s = .newRoundStart r) :
    s.currentStep = .waiting ∧ timeline t < bcpTimeoutProofOfParticipation ∧
      timeContext t ≤ s.timeContext ∧ s.newRoundStartFor n = some r := by
  unfold poll at h
  repeat' split at h
  all_goals cases h
  rename_i hs ht hc _ hr
  exact ⟨hs, ht, Nat.le_of_not_lt hc, hr⟩

theorem poll_proposeStart (h : poll n t s = .proposeStart) :
    s.currentStep = .proofOfParticipation ∧ bcpTimeoutProofOfParticipation < timeline t := by
  unfold poll at h
  repeat' split at h
  all_goals cases h
  exact ⟨by assumption, by assumption⟩

theorem poll_voteStart (h : poll n t s = .voteStart) :
    s.currentStep = .propose ∧ bcpTimeoutPropose < timeline t := by
  unfold poll at h
  repeat' split at h
  all_goals cases h
  exact ⟨by assumption, by assumption⟩

theorem poll_commitStart {e : L.Header} (h : poll n t s = .commitStart e) :
    s.currentStep = .vote ∧ timeline t ≤ bcpTimeoutVote ∧ s.getElectedBlockHeader n = some e := by
  unfold poll at h
  repeat' split at h
  all_goals cases h
  rename_i hs ht _ he
  exact ⟨hs, Nat.le_of_not_lt ht, he⟩

theorem poll_newBlockCommit {b : L.Blk} (h : poll n t s = .newBlockCommit b) :
    s.currentStep = .commit ∧ bcpTimeoutProofOfParticipation ≤ timeline t ∧
      s.findCommitBlock n = some b := by
  unfold poll at h
  repeat' split at h
  all_goals cases h
  rename_i hs ht _ hb
  exact ⟨hs, Nat.le_of_not_lt ht, hb⟩

/-- A poll that finds nothing to do in a round is early in its step. -/
theorem poll_idle (h : poll n t s = .idle) :
    match s.currentStep with
    | .null | .waiting => True
    | .proofOfParticipation => timeline t ≤ bcpTimeoutProofOfParticipation
    | .propose => timeline t ≤ bcpTimeoutPropose
    | .vote => timeline t ≤ bcpTimeoutVote
    | .commit => bcpTimeoutProofOfParticipation ≤ timeline t := by
  unfold poll at h
  repeat' split at h
  all_goals cases h
  all_goals first | trivial | exact Nat.le_of_not_lt ‹_›

/-- A round is abandoned late in the vote step or early in the commit step. -/
theorem poll_consensusFail : poll n t s = .consensusFail ↔
    s.currentStep = .vote ∧ bcpTimeoutVote < timeline t ∨
      s.currentStep = .commit ∧ timeline t < bcpTimeoutProofOfParticipation := by
  constructor
  · intro h
    unfold poll at h
    repeat' split at h
    all_goals cases h
    · exact .inl ⟨by assumption, by assumption⟩
    · exact .inr ⟨by assumption, by assumption⟩
  · rintro (⟨hs, ht⟩ | ⟨hs, ht⟩) <;> simp only [poll, hs, ht, if_true]

/-- A waiting server is taken out of waiting by the start of a round alone. -/
theorem poll_leaves_waiting (hw : s.currentStep = .waiting) (h : (poll n t s).nextStep s.currentStep ≠ .waiting) :
    ∃ r, poll n t s = .newRoundStart r := by
  cases hp : poll n t s with
  | newRoundStart r => exact ⟨r, rfl⟩
  | idle | newRoundReady => exact absurd (by rw [hp]; exact hw) h
  | proposeStart => exact absurd (hw.symm.trans (poll_proposeStart hp).1) (by decide)
  | voteStart => exact absurd (hw.symm.trans (poll_voteStart hp).1) (by decide)
  | commitStart e => exact absurd (hw.symm.trans (poll_commitStart hp).1) (by decide)
  | newBlockCommit b => exact absurd (hw.symm.trans (poll_newBlockCommit hp).1) (by decide)
  | consensusFail => exact absurd (by rw [hp]; rfl) h

end Poll

end Bryllite.NodeServerMono
