import Bryllite.BcpMono.Agreement
import Mathlib.Logic.Relation

/-!
# The rounds of the nodes, and what they heard in them (bcp_mono)

`Trace` keeps of each node what its rounds depend on (`Phase`), and beside it
what was broadcast since the node last entered waiting (`heard`). `Step` says
what a node does to it; a poll is at most two steps after the announcement the
node may make (`Watch.onMain_steps`).
-/

namespace Bryllite.BcpMono

open Bryllite.Framework

variable {L : Core} {n : Nat}

/-- What the rounds of a node depend on, beside its clocks. -/
@[ext]
structure Phase (L : Core) where
  blockChain : BlockChain L
  nodeState : NodeState
  receivedNewRound : List Nat
  newBlockIndex : Nat
  newBlock : L.Blk
  userBlockHeader : List L.Header
  proposeHeader : List L.Header
  voteHeader : List L.Header
  commitBlockHeader : L.Header
  commit : List L.Blk

namespace Phase

/-- `Node.onMessage`. -/
def onMessage : NodeMessage L → Phase L → Phase L
  | .newRound r, p => { p with receivedNewRound := p.receivedNewRound ++ [r] }
  | .propose h, p => { p with proposeHeader := p.proposeHeader ++ [h] }
  | .vote h, p => { p with voteHeader := p.voteHeader ++ [h] }
  | .commit b, p => { p with commit := p.commit ++ [b] }
  | _, p => p

/-- `Node.appendBlock`. -/
def appendBlock (b : L.Blk) (p : Phase L) : Phase L :=
  { p with blockChain := (p.blockChain.appendBlock (L.blockIndex b.header) b true).getD p.blockChain }

/-- A node enters waiting, after it has appended the block `o` if there is one. -/
def leave (o : Option L.Blk) (p : Phase L) : Phase L :=
  { (o.elim p fun b => p.appendBlock b) with
    nodeState := .waiting
    receivedNewRound := []
    userBlockHeader := []
    proposeHeader := []
    voteHeader := []
    commit := [] }

/-- The node starts the round `r`, with the block `o` if it built one. -/
def newRound (r : Nat) (o : Option L.Blk) (p : Phase L) : Phase L :=
  { p with
    nodeState := .newRound
    newBlockIndex := r
    newBlock := o.getD p.newBlock
    userBlockHeader := p.userBlockHeader ++ o.toList.map Block.header }

variable (m : NodeMessage L) (p : Phase L)

@[simp] theorem blockChain_onMessage : (p.onMessage m).blockChain = p.blockChain := by cases m <;> rfl

@[simp] theorem nodeState_onMessage : (p.onMessage m).nodeState = p.nodeState := by cases m <;> rfl

@[simp] theorem newBlock_onMessage : (p.onMessage m).newBlock = p.newBlock := by cases m <;> rfl

@[simp] theorem userBlockHeader_onMessage : (p.onMessage m).userBlockHeader = p.userBlockHeader := by
  cases m <;> rfl

@[simp] theorem commitBlockHeader_onMessage : (p.onMessage m).commitBlockHeader = p.commitBlockHeader := by
  cases m <;> rfl

/-- What the messages `ms` leave as it is. -/
theorem foldl_onMessage {α : Type} (get : Phase L → α) (h : ∀ m p, get (onMessage m p) = get p)
    (ms : List (NodeMessage L)) (p : Phase L) : get (ms.foldl (fun p m => p.onMessage m) p) = get p := by
  induction ms generalizing p with
  | nil => rfl
  | cons m ms ih => rw [List.foldl_cons, ih, h]

theorem foldl_commit (bs : List L.Blk) (p : Phase L) :
    (bs.map NodeMessage.commit).foldl (fun p m => p.onMessage m) p = { p with commit := p.commit ++ bs } := by
  induction bs generalizing p with
  | nil => simp
  | cons b bs ih =>
    rw [List.map_cons, List.foldl_cons, ih]
    simp [onMessage]

end Phase

/-- The phase a node is in. -/
def Node.phase (s : Node L) : Phase L where
  blockChain := s.blockChain
  nodeState := s.nodeState
  receivedNewRound := s.receivedNewRound
  newBlockIndex := s.newBlockIndex
  newBlock := s.newBlock
  userBlockHeader := s.userBlockHeader
  proposeHeader := s.proposeHeader
  voteHeader := s.voteHeader
  commitBlockHeader := s.commitBlockHeader
  commit := s.commit

theorem Node.phase_onMessage (m : NodeMessage L) (s : Node L) : (s.onMessage m).phase = s.phase.onMessage m := by
  cases m <;> rfl

/-- The phases of the nodes, what was broadcast since each last entered
waiting, and what was broadcast and built at all. -/
@[ext]
structure Trace (L : Core) (n : Nat) where
  phases : Fin n → Phase L
  heard : Fin n → List (Fin n × NodeMessage L)
  sent : List (Fin n × NodeMessage L)
  built : List (Fin n × L.Blk)

namespace Trace

/-- Node `i` broadcasts the messages `ms`. -/
def sends (i : Fin n) (ms : List (NodeMessage L)) (t : Trace L n) : Trace L n where
  phases k := ms.foldl (fun p m => p.onMessage m) (t.phases k)
  heard k := t.heard k ++ ms.map (i, ·)
  sent := t.sent ++ ms.map (i, ·)
  built := t.built

/-- The phase of node `i` is changed by `f`. -/
def modify (i : Fin n) (f : Phase L → Phase L) (t : Trace L n) : Trace L n :=
  { t with phases := Function.update t.phases i (f (t.phases i)) }

/-- Node `i` starts the round `r`. -/
def newRound (i : Fin n) (r : Nat) (o : Option L.Blk) (t : Trace L n) : Trace L n :=
  { t.modify i (.newRound r o) with built := t.built ++ o.toList.map (i, ·) }

/-- Node `i` enters waiting. -/
def leave (i : Fin n) (o : Option L.Blk) (t : Trace L n) : Trace L n :=
  { t.modify i (.leave o) with heard := Function.update t.heard i [] }

/-- The blocks that a node which asks for this header broadcasts a commit for. -/
def acked (t : Trace L n) (header : L.Header) : List L.Blk :=
  ((List.finRange n).filter fun k => header = (t.phases k).newBlock.header ∧
    L.valid (t.phases k).newBlock = true ∧
    L.merkleRootHash (t.phases k).newBlock = L.hashMerkleRoot header).map fun k => (t.phases k).newBlock

/-- What a step of node `i` is. -/
inductive Step (i : Fin n) (t : Trace L n) : Trace L n → Prop
  | ask (height : Nat) : Step i t (t.sends i [.blockHeightReq height])
  | sync (hs : (t.phases i).nodeState = .waiting) :
    Step i t (t.modify i fun p => { p with nodeState := .sync })
  | newRound {r : Nat} (o : Option L.Blk) (hs : (t.phases i).nodeState = .waiting)
    (hq : getValueIfCountExceeds (t.phases i).receivedNewRound (n / 2) = some r)
    (hr : r = (t.phases i).blockChain.size + 1)
    (ho : ∀ b ∈ o, ∃ prev, L.Built t.built.length r prev b ∧ (1 < r →
      ∃ b', (t.phases i).blockChain.getBlock (r - 1) = some b' ∧ prev = L.getHeaderHash b'.header)) :
    Step i t (t.newRound i r o)
  | propose (hs : (t.phases i).nodeState = .newRound) :
    Step i t ((t.modify i fun p => { p with nodeState := .propose }).sends i
      ((lowValue L.headerLt (t.phases i).userBlockHeader).toList.map .propose))
  | vote (hs : (t.phases i).nodeState = .propose) :
    Step i t ((t.modify i fun p => { p with nodeState := .vote }).sends i
      ((lowValue L.headerLt (t.phases i).proposeHeader).toList.map .vote))
  | elect {h : L.Header} (hs : (t.phases i).nodeState = .vote)
    (hq : getValueIfCountExceeds (t.phases i).voteHeader (n / 2) = some h) :
    Step i t ((t.modify i fun p => { p with commitBlockHeader := h, nodeState := .commit }).sends i
      (.commitBlockReq h :: (t.acked h).map .commit))
  | clear (hs : (t.phases i).nodeState = .sync ∨ (t.phases i).nodeState = .vote ∨
      (t.phases i).nodeState = .commit) : Step i t (t.leave i none)
  | take {b : L.Blk} (hs : (t.phases i).nodeState = .commit)
    (hq : getValueIfCountExceeds (t.phases i).commit (n / 2) = some b) : Step i t (t.leave i (some b))

variable {t t' : Trace L n} {i : Fin n}

theorem sends_nil : t.sends i [] = t :=
  Trace.ext rfl (funext fun _ => List.append_nil _) (List.append_nil _) rfl

@[simp] theorem sent_sends (t : Trace L n) (i : Fin n) (ms : List (NodeMessage L)) :
    (t.sends i ms).sent = t.sent ++ ms.map (i, ·) := rfl

@[simp] theorem heard_sends (t : Trace L n) (i k : Fin n) (ms : List (NodeMessage L)) :
    (t.sends i ms).heard k = t.heard k ++ ms.map (i, ·) := rfl

section Sends

variable (t : Trace L n) (i k : Fin n) (ms : List (NodeMessage L))

@[simp] theorem blockChain_sends : ((t.sends i ms).phases k).blockChain = (t.phases k).blockChain :=
  Phase.foldl_onMessage Phase.blockChain Phase.blockChain_onMessage _ _

@[simp] theorem nodeState_sends : ((t.sends i ms).phases k).nodeState = (t.phases k).nodeState :=
  Phase.foldl_onMessage Phase.nodeState Phase.nodeState_onMessage _ _

@[simp] theorem newBlock_sends : ((t.sends i ms).phases k).newBlock = (t.phases k).newBlock :=
  Phase.foldl_onMessage Phase.newBlock Phase.newBlock_onMessage _ _

@[simp] theorem userBlockHeader_sends :
    ((t.sends i ms).phases k).userBlockHeader = (t.phases k).userBlockHeader :=
  Phase.foldl_onMessage Phase.userBlockHeader Phase.userBlockHeader_onMessage _ _

@[simp] theorem commitBlockHeader_sends :
    ((t.sends i ms).phases k).commitBlockHeader = (t.phases k).commitBlockHeader :=
  Phase.foldl_onMessage Phase.commitBlockHeader Phase.commitBlockHeader_onMessage _ _

end Sends

@[simp] theorem phases_modify_self (f : Phase L → Phase L) : (t.modify i f).phases i = f (t.phases i) :=
  Function.update_self ..

@[simp] theorem phases_modify_of_ne {k : Fin n} (hk : k ≠ i) (f : Phase L → Phase L) :
    (t.modify i f).phases k = t.phases k :=
  Function.update_of_ne hk ..

end Trace

/-! ## The polls -/

/-- The nodes, and how much had been broadcast when each last entered waiting. -/
structure Watch (L : Core) (n : Nat) where
  manager : NodeManager L n
  since : Fin n → Nat := fun _ => 0

/-- `NodeManager.onMain`. -/
def Watch.onMain (w : Watch L n) (e : Fin n × Clock) : Watch L n where
  manager := w.manager.onMain e
  since :=
    if (w.manager.nodes e.1).nodeState ≠ .waiting ∧ ((w.manager.onMain e).nodes e.1).nodeState = .waiting then
      Function.update w.since e.1 w.manager.sent.length
    else w.since

namespace NodeManager

/-- The node polled announces its next round. -/
def Announces (w : NodeManager L n) (e : Fin n × Clock) : Prop :=
  let s := w.nodes e.1
  s.nodeState = .waiting ∧ (s.currentRoundTime < getCurrentRound e.2 ∨ s.newRoundMessageSent = false) ∧
    getCurrentRoundTime e.2 < bcpTimeoutPop

instance (w : NodeManager L n) : DecidablePred w.Announces := fun _ => inferInstanceAs (Decidable (_ ∧ _ ∧ _))

/-- The trace of the nodes, where `since k` was sent before node `k` last entered waiting. -/
def trace (since : Fin n → Nat) (w : NodeManager L n) : Trace L n where
  phases k := (w.nodes k).phase
  heard k := w.sent.drop (since k)
  sent := w.sent
  built := w.built

variable {w w' : NodeManager L n} {i : Fin n} {clock : Clock} {since : Fin n → Nat}

theorem trace_congr (hp : ∀ k, (w'.nodes k).phase = (w.nodes k).phase) (hs : w'.sent = w.sent)
    (hb : w'.built = w.built) : w'.trace since = w.trace since := by
  simp only [trace, hp, hs, hb]

theorem trace_modify {f : Node L → Node L} {g : Phase L → Phase L}
    (h : (f (w.nodes i)).phase = g (w.nodes i).phase) :
    (w.modify i f).trace since = (w.trace since).modify i g := by
  refine Trace.ext (funext fun k => ?_) rfl rfl rfl
  by_cases hk : k = i
  · subst hk
    rw [Trace.phases_modify_self]
    exact (congrArg Node.phase (nodes_modify_self f)).trans h
  · rw [Trace.phases_modify_of_ne hk]
    exact congrArg Node.phase (nodes_modify_of_ne hk f)

/-- A change of a node that its phase does not show. -/
theorem trace_modify_same {f : Node L → Node L} (h : (f (w.nodes i)).phase = (w.nodes i).phase) :
    (w.modify i f).trace since = w.trace since := by
  refine trace_congr (fun k => ?_) rfl rfl
  exact forall_modify (P := fun k s => s.phase = (w.nodes k).phase) h (fun _ => rfl) k

theorem trace_sendallLocal (hsince : ∀ k, since k ≤ w.sent.length) (m : NodeMessage L) :
    (w.sendallLocal i m).trace since = (w.trace since).sends i [m] := by
  refine Trace.ext (funext fun k => ?_) (funext fun k => ?_) rfl rfl
  · exact (congrArg Node.phase (nodes_sendallLocal m k)).trans (Node.phase_onMessage m _)
  · exact List.drop_append_of_le_length (hsince k)

/-- The heights that are sent to node `i` do not show. -/
theorem foldl_onMessageBlockHeightReq (l : List (Fin n)) (w : NodeManager L n) :
    let w' := l.foldl (fun w k => w.onMessageBlockHeightReq k i) w
    (∀ k, (w'.nodes k).phase = (w.nodes k).phase) ∧ w'.sent = w.sent ∧ w'.built = w.built := by
  induction l generalizing w with
  | nil => exact ⟨fun _ => rfl, rfl, rfl⟩
  | cons k l ih =>
    obtain ⟨h1, h2, h3⟩ := ih (w.onMessageBlockHeightReq k i)
    refine ⟨fun j => (h1 j).trans ?_, h2, h3⟩
    exact forall_modify (P := fun k s => s.phase = (w.nodes k).phase) rfl (fun _ => rfl) j

theorem trace_requestBlockSync (i : Fin n) (hsince : ∀ k, since k ≤ w.sent.length) :
    ∃ height, (w.requestBlockSync i).trace since = (w.trace since).sends i [.blockHeightReq height] := by
  refine ⟨(w.nodes i).blockChain.size, ?_⟩
  unfold requestBlockSync
  have hm : (w.modify i fun s => { s with syncTargetBlockHeight := [] }).trace since = w.trace since :=
    trace_modify_same rfl
  generalize hw1 : (w.modify i fun s => { s with syncTargetBlockHeight := [] }) = w1 at hm
  have hsent : w1.sent = w.sent := by rw [← hw1]; rfl
  obtain ⟨h1, h2, h3⟩ := foldl_onMessageBlockHeightReq (i := i) (List.finRange n)
    { w1 with sent := w1.sent ++ [(i, .blockHeightReq (w.nodes i).blockChain.size)] }
  rw [← hm]
  refine (trace_congr h1 h2 h3).trans (Trace.ext rfl (funext fun k => ?_) rfl rfl)
  exact List.drop_append_of_le_length (hsent ▸ hsince k)

/-- What a node that enters waiting, after it appended a block or not, leaves behind. -/
theorem trace_setState_waiting (clock : Clock) (since : Fin n → Nat)
    (hs : (w.nodes i).nodeState ≠ .waiting) {f : Node L → Node L} {o : Option L.Blk}
    (hf : ({ (f (w.nodes i)).clear with nodeState := .waiting } : Node L).phase = (w.nodes i).phase.leave o)
    (hstate : (f (w.nodes i)).nodeState = (w.nodes i).nodeState) :
    ((w.modify i f).setState i clock .waiting).trace (Function.update since i w.sent.length) =
      (w.trace since).leave i o := by
  have hne : ((w.modify i f).nodes i).nodeState ≠ .waiting := by
    rw [nodes_modify_self, hstate]
    exact hs
  rw [setState_waiting hne, NodeManager.modify_modify]
  refine (trace_modify hf).trans (Trace.ext rfl (funext fun k => ?_) rfl rfl)
  show w.sent.drop (Function.update since i w.sent.length k) =
    Function.update (fun k => w.sent.drop (since k)) i [] k
  by_cases hk : k = i
  · subst hk
    rw [Function.update_self, Function.update_self, List.drop_length]
  · rw [Function.update_of_ne hk, Function.update_of_ne hk]

theorem trace_setState_newRound (clock : Clock) (since : Fin n → Nat)
    (hs : (w.nodes i).nodeState ≠ .newRound) (r : Nat) :
    ∃ o : Option L.Blk, (∀ b ∈ o, ∃ prev, L.Built w.built.length r prev b ∧ (1 < r →
        ∃ b', (w.nodes i).blockChain.getBlock (r - 1) = some b' ∧ prev = L.getHeaderHash b'.header)) ∧
      ((w.modify i fun s => { s with newBlockIndex := r }).setState i clock .newRound).trace since =
        (w.trace since).newRound i r o := by
  have hne : ((w.modify i fun s => { s with newBlockIndex := r }).nodes i).nodeState ≠ .newRound := by
    rw [nodes_modify_self]
    exact hs
  rw [setState, if_neg hne, NodeManager.modify_modify]
  have hnode : (w.modify i ((fun s => { s with nodeState := .newRound }) ∘
      fun s => { s with newBlockIndex := r })).nodes i =
        { w.nodes i with newBlockIndex := r, nodeState := .newRound } :=
    nodes_modify_self _
  show ∃ o, _ ∧ (onStateNewRoundBegin i (w.modify i _)).trace since = _
  unfold onStateNewRoundBegin
  dsimp only
  rw [hnode]
  dsimp only
  split
  · refine ⟨none, ⟨fun b hb => ?_, (trace_modify ?_).trans (Trace.ext rfl rfl rfl (List.append_nil _).symm)⟩⟩
    · cases hb
    · exact Phase.ext rfl rfl rfl rfl rfl (List.append_nil _).symm rfl rfl rfl rfl
  · rename_i b hb
    obtain ⟨p, hp, hprev⟩ := Node.createBlockFor_prev hb
    refine ⟨some (L.sign (w.nodes i).keyPair b), ⟨fun b' hb' => ?_, ?_⟩⟩
    · obtain rfl := Option.some.inj hb'
      exact ⟨p, hp, hprev⟩
    · rw [NodeManager.modify_modify]
      have hm : ∀ f, (f (w.nodes i)).phase = (w.nodes i).phase.newRound r (some (L.sign (w.nodes i).keyPair b)) →
          ((w.modify i f).trace since).phases =
            ((w.trace since).newRound i r (some (L.sign (w.nodes i).keyPair b))).phases :=
        fun f hf => by rw [trace_modify hf]; rfl
      exact Trace.ext (hm _ rfl) rfl rfl rfl

theorem trace_setState_sync (hs : (w.nodes i).nodeState ≠ .sync) :
    (w.setState i clock .sync).trace since = (w.trace since).modify i fun p => { p with nodeState := .sync } := by
  rw [setState, if_neg hs]
  show (onStateSyncBegin i clock (w.modify i _)).trace since = _
  rw [onStateSyncBegin, NodeManager.modify_modify]
  exact trace_modify rfl

theorem trace_setState_propose (clock : Clock) (hsince : ∀ k, since k ≤ w.sent.length)
    (hs : (w.nodes i).nodeState ≠ .propose) :
    (w.setState i clock .propose).trace since =
      ((w.trace since).modify i fun p => { p with nodeState := .propose }).sends i
        ((lowValue L.headerLt (w.nodes i).userBlockHeader).toList.map .propose) := by
  rw [setState, if_neg hs]
  show (onStateProposeBegin i (w.modify i _)).trace since = _
  have hm : (w.modify i fun s => { s with nodeState := .propose }).trace since =
      (w.trace since).modify i fun p => { p with nodeState := .propose } := trace_modify rfl
  unfold onStateProposeBegin
  rw [nodes_modify_self]
  split
  · rename_i hl
    rw [hl, hm, Option.toList_none, List.map_nil, Trace.sends_nil]
  · rename_i hl
    rw [hl, sendall_propose]
    refine (trace_sendallLocal ?_ _).trans ?_
    · exact hsince
    · rw [hm]
      rfl

theorem trace_setState_vote (clock : Clock) (hsince : ∀ k, since k ≤ w.sent.length)
    (hs : (w.nodes i).nodeState ≠ .vote) :
    (w.setState i clock .vote).trace since =
      ((w.trace since).modify i fun p => { p with nodeState := .vote }).sends i
        ((lowValue L.headerLt (w.nodes i).proposeHeader).toList.map .vote) := by
  rw [setState, if_neg hs]
  show (onStateVoteBegin i (w.modify i _)).trace since = _
  have hm : (w.modify i fun s => { s with nodeState := .vote }).trace since =
      (w.trace since).modify i fun p => { p with nodeState := .vote } := trace_modify rfl
  unfold onStateVoteBegin
  rw [nodes_modify_self]
  split
  · rename_i hl
    rw [hl, hm, Option.toList_none, List.map_nil, Trace.sends_nil]
  · rename_i hl
    rw [hl, sendall_vote]
    refine (trace_sendallLocal ?_ _).trans ?_
    · exact hsince
    · rw [hm]
      rfl

theorem trace_setState_commit (clock : Clock) (hsince : ∀ k, since k ≤ w.sent.length)
    (hs : (w.nodes i).nodeState ≠ .commit) (h : L.Header) :
    ((w.modify i fun s => { s with commitBlockHeader := h }).setState i clock .commit).trace since =
      ((w.trace since).modify i fun p => { p with commitBlockHeader := h, nodeState := .commit }).sends i
        (.commitBlockReq h :: ((w.trace since).acked h).map .commit) := by
  rw [setState_commit hs]
  have hm : (w.modify i fun s => { s with commitBlockHeader := h, nodeState := .commit }).trace since =
      (w.trace since).modify i fun p => { p with commitBlockHeader := h, nodeState := .commit } := trace_modify rfl
  have hack : (w.modify i fun s => { s with commitBlockHeader := h, nodeState := .commit }).acked h
      (List.finRange n) = (w.trace since).acked h :=
    acked_congr (forall_modify (P := fun k s => s.newBlock = (w.nodes k).newBlock) rfl fun _ => rfl) _
  have hhead : ((w.modify i fun s => { s with commitBlockHeader := h, nodeState := .commit }).nodes i).commitBlockHeader
      = h := by rw [nodes_modify_self]
  rw [← hm]
  generalize hw1 : (w.modify i fun s => { s with commitBlockHeader := h, nodeState := .commit }) = w1 at hack hhead
  have hsent : w1.sent = w.sent := by rw [← hw1]; rfl
  obtain ⟨hn, hb, hs'⟩ := foldl_commitBlockReq (List.finRange n)
    { w1 with sent := w1.sent ++ [(i, .commitBlockReq h)] } hhead
  have hack' : NodeManager.acked { w1 with sent := w1.sent ++ [(i, .commitBlockReq h)] } h (List.finRange n) =
      (w.trace since).acked h := hack
  rw [hack'] at hn hs'
  have hsent' : (w1.sendall i (.commitBlockReq h)).sent =
      w1.sent ++ (NodeMessage.commitBlockReq h :: ((w.trace since).acked h).map .commit).map (i, ·) := by
    refine hs'.trans ?_
    rw [List.map_cons, List.map_map, List.append_assoc]
    rfl
  refine Trace.ext (funext fun k => ?_) (funext fun k => ?_) hsent' hb
  · obtain ⟨b, hk⟩ := hn k
    refine (congrArg Node.phase hk).trans ?_
    show _ = List.foldl _ ((w1.nodes k).phase) _
    rw [List.foldl_cons, Phase.foldl_commit]
    rfl
  · show (w1.sendall i (.commitBlockReq h)).sent.drop (since k) = _
    rw [hsent']
    exact List.drop_append_of_le_length (hsent ▸ hsince k)

/-- A node that may announce its next round. -/
theorem trace_requestNewRound (hsince : ∀ k, since k ≤ w.sent.length) (hs : (w.nodes i).nodeState = .waiting)
    (r : Nat) : (w.requestNewRound i clock r).trace since =
      if w.Announces (i, clock) then (w.trace since).sends i [.newRound r] else w.trace since := by
  unfold requestNewRound
  dsimp only
  have h1 : (w.modify i fun s =>
      if s.currentRoundTime < getCurrentRound clock then
        { s with currentRoundTime := getCurrentRound clock, newRoundMessageSent := false }
      else s).trace since = w.trace since := by
    refine trace_modify_same ?_
    split <;> rfl
  have hann : (!((w.modify i fun s =>
      if s.currentRoundTime < getCurrentRound clock then
        { s with currentRoundTime := getCurrentRound clock, newRoundMessageSent := false }
      else s).nodes i).newRoundMessageSent && decide (getCurrentRoundTime clock < bcpTimeoutPop)) = true ↔
        w.Announces (i, clock) := by
    rw [nodes_modify_self, Bool.and_eq_true, Bool.not_eq_true', decide_eq_true_eq, Announces]
    dsimp only
    by_cases hc : (w.nodes i).currentRoundTime < getCurrentRound clock <;> simp [hs, hc]
  simp only [hann]
  split
  · rw [sendall_newRound]
    refine (trace_sendallLocal ?_ _).trans ?_
    · exact hsince
    · rw [trace_modify_same rfl, h1]
  · exact h1

theorem phase_clear (s : Node L) : ({ (id s).clear with nodeState := .waiting } : Node L).phase = s.phase.leave none :=
  rfl

theorem phase_appendBlock (b : L.Blk) (s : Node L) :
    ({ (s.appendBlock b).clear with nodeState := .waiting } : Node L).phase = s.phase.leave (some b) :=
  rfl

theorem modify_id : w.modify i id = w := by
  rw [modify, id, Function.update_eq_self]

/-- A waiting node, after its announcement. -/
theorem trace_waitingMain {t : Trace L n} (hs : (w.nodes i).nodeState = .waiting)
    (ht : (w.requestNewRound i clock ((w.nodes i).blockChain.size + 1)).trace since = t) :
    (w.onStateWaitingMain i clock).trace since = t ∨
      Trace.Step i t ((w.onStateWaitingMain i clock).trace since) := by
  have hk := Agree.kept_requestNewRound w i clock ((w.nodes i).blockChain.size + 1)
  have hs' := (hk.node i).nodeState.trans hs
  have hc := (hk.node i).blockChain
  unfold onStateWaitingMain
  dsimp only
  generalize w.requestNewRound i clock ((w.nodes i).blockChain.size + 1) = w' at ht hs' hc
  subst ht
  split
  · rename_i r hr
    split
    · rename_i hi
      have hne : (w'.nodes i).nodeState ≠ .newRound := by simp [hs']
      obtain ⟨o, ho, h⟩ := trace_setState_newRound clock since hne r
      rw [h]
      exact .inr (.newRound o hs' hr (hi.symm.trans (by rw [← hc]; rfl)) ho)
    · split
      · rw [trace_setState_sync (by simp [hs'])]
        exact .inr (.sync hs')
      · exact .inl rfl
  · exact .inl rfl

end NodeManager

namespace Watch

variable {w : Watch L n} {e : Fin n × Clock} {t : Trace L n}

/-- The trace of the nodes. -/
def trace (w : Watch L n) : Trace L n := w.manager.trace w.since

/-- The trace after the announcement that the poll makes, if it makes one. -/
def announced (w : Watch L n) (e : Fin n × Clock) : Trace L n :=
  if w.manager.Announces e then
    w.trace.sends e.1 [.newRound ((w.manager.nodes e.1).blockChain.size + 1)]
  else w.trace

theorem announced_of_ne (hs : (w.manager.nodes e.1).nodeState ≠ .waiting) : w.announced e = w.trace :=
  if_neg fun h => hs h.1

theorem trace_onMain (h : (w.manager.onMain e).trace w.since = t)
    (hs : (w.manager.nodes e.1).nodeState = .waiting ∨ (t.phases e.1).nodeState ≠ .waiting) :
    (w.onMain e).trace = t := by
  have hst : ((w.manager.onMain e).nodes e.1).nodeState = (t.phases e.1).nodeState := by rw [← h]; rfl
  unfold Watch.trace Watch.onMain
  dsimp only
  rw [if_neg]
  · exact h
  · rw [hst]
    rintro ⟨h1, h2⟩
    exact hs.elim h1 fun h => h h2

theorem trace_onMain_of_waiting (hs : (w.manager.nodes e.1).nodeState ≠ .waiting)
    (h : (w.manager.onMain e).trace (Function.update w.since e.1 w.manager.sent.length) = t)
    (ht : (t.phases e.1).nodeState = .waiting) : (w.onMain e).trace = t := by
  have hst : ((w.manager.onMain e).nodes e.1).nodeState = (t.phases e.1).nodeState := by rw [← h]; rfl
  unfold Watch.trace Watch.onMain
  dsimp only
  rw [if_pos ⟨hs, hst.trans ht⟩]
  exact h

theorem trace_onMain_of_stays (h : w.manager.onMain e = w.manager)
    (hs : (w.manager.nodes e.1).nodeState ≠ .waiting) :
    (w.onMain e).trace = w.announced e ∨ Trace.Step e.1 (w.announced e) (w.onMain e).trace :=
  .inl ((trace_onMain (congrArg _ h) (.inr hs)).trans (announced_of_ne hs).symm)

/-- A node that is not in sync: at most one step. -/
theorem onMain_step (hw : ∀ k, w.since k ≤ w.manager.sent.length)
    (hs : (w.manager.nodes e.1).nodeState ≠ .sync) :
    (w.onMain e).trace = w.announced e ∨ Trace.Step e.1 (w.announced e) (w.onMain e).trace := by
  obtain ⟨i, clock⟩ := e
  dsimp only at hs
  cases hst : (w.manager.nodes i).nodeState with
  | sync => exact absurd hst hs
  | null =>
    have h : w.manager.onMain (i, clock) = w.manager := by simp only [NodeManager.onMain, hst]
    exact trace_onMain_of_stays h (by simp [hst])
  | waiting =>
    have h : w.manager.onMain (i, clock) = w.manager.onStateWaitingMain i clock := by
      simp only [NodeManager.onMain, hst]
    rw [trace_onMain rfl (.inl hst), h]
    exact NodeManager.trace_waitingMain hst (NodeManager.trace_requestNewRound hw hst _)
  | newRound =>
    have h : w.manager.onMain (i, clock) = w.manager.onStateNewRoundMain i clock := by
      simp only [NodeManager.onMain, hst]
    unfold NodeManager.onStateNewRoundMain at h
    split at h
    · have ht := NodeManager.trace_setState_propose clock hw (by simp [hst] : (w.manager.nodes i).nodeState ≠ _)
      rw [announced_of_ne (by simp [hst]), trace_onMain ((congrArg _ h).trans ht) (.inr (by simp))]
      exact .inr (.propose hst)
    · exact trace_onMain_of_stays h (by simp [hst])
  | propose =>
    have h : w.manager.onMain (i, clock) = w.manager.onStateProposeMain i clock := by
      simp only [NodeManager.onMain, hst]
    unfold NodeManager.onStateProposeMain at h
    split at h
    · have ht := NodeManager.trace_setState_vote clock hw (by simp [hst] : (w.manager.nodes i).nodeState ≠ _)
      rw [announced_of_ne (by simp [hst]), trace_onMain ((congrArg _ h).trans ht) (.inr (by simp))]
      exact .inr (.vote hst)
    · exact trace_onMain_of_stays h (by simp [hst])
  | vote =>
    have h : w.manager.onMain (i, clock) = w.manager.onStateVoteMain i clock := by
      simp only [NodeManager.onMain, hst]
    have hne : (w.manager.nodes i).nodeState ≠ .waiting := by simp [hst]
    unfold NodeManager.onStateVoteMain at h
    split at h
    · have ht := NodeManager.trace_setState_waiting clock w.since hne (NodeManager.phase_clear _) rfl
      rw [NodeManager.modify_id, ← h] at ht
      rw [announced_of_ne hne, trace_onMain_of_waiting hne ht (by simp [Trace.leave, Phase.leave])]
      exact .inr (.clear (.inr (.inl hst)))
    · split at h
      · rename_i v hq
        have ht := NodeManager.trace_setState_commit clock hw (by simp [hst] : (w.manager.nodes i).nodeState ≠ _) v
        rw [announced_of_ne hne, trace_onMain ((congrArg _ h).trans ht) (.inr (by simp))]
        exact .inr (.elect hst hq)
      · exact trace_onMain_of_stays h hne
  | commit =>
    have h : w.manager.onMain (i, clock) = w.manager.onStateCommitMain i clock := by
      simp only [NodeManager.onMain, hst]
    have hne : (w.manager.nodes i).nodeState ≠ .waiting := by simp [hst]
    unfold NodeManager.onStateCommitMain at h
    split at h
    · have ht := NodeManager.trace_setState_waiting clock w.since hne (NodeManager.phase_clear _) rfl
      rw [NodeManager.modify_id, ← h] at ht
      rw [announced_of_ne hne, trace_onMain_of_waiting hne ht (by simp [Trace.leave, Phase.leave])]
      exact .inr (.clear (.inr (.inr hst)))
    · split at h
      · rename_i b hq
        have ht := NodeManager.trace_setState_waiting clock w.since hne (NodeManager.phase_appendBlock b _) rfl
        rw [← h] at ht
        rw [announced_of_ne hne, trace_onMain_of_waiting hne ht (by simp [Trace.leave, Phase.leave])]
        exact .inr (.take hst hq)
      · exact trace_onMain_of_stays h hne

/-- A node in sync enters waiting, and may ask for the heights of the others. -/
theorem onMain_sync (hw : ∀ k, w.since k ≤ w.manager.sent.length)
    (hs : (w.manager.nodes e.1).nodeState = .sync) :
    (w.onMain e).trace = w.trace.leave e.1 none ∨
      ∃ height, (w.onMain e).trace = (w.trace.leave e.1 none).sends e.1 [.blockHeightReq height] := by
  obtain ⟨i, clock⟩ := e
  have h : w.manager.onMain (i, clock) = w.manager.onStateSyncMain i clock := by
    simp only [NodeManager.onMain, hs]
  have hne : (w.manager.nodes i).nodeState ≠ .waiting := by simp [hs]
  have ht := NodeManager.trace_setState_waiting clock w.since hne (NodeManager.phase_clear _) rfl
  rw [NodeManager.modify_id] at ht
  have hsent : (w.manager.setState i clock .waiting).sent = w.manager.sent := by
    rw [NodeManager.setState_waiting hne]
    rfl
  have hsince : ∀ k, Function.update w.since i w.manager.sent.length k ≤ w.manager.sent.length := fun k => by
    by_cases hk : k = i
    · rw [hk, Function.update_self]
    · rw [Function.update_of_ne hk]
      exact hw k
  have hwait : (((w.manager.setState i clock .waiting).nodes i)).nodeState = .waiting := by
    rw [NodeManager.setState_waiting hne, NodeManager.nodes_modify_self]
  unfold NodeManager.onStateSyncMain at h
  dsimp only at h
  generalize w.manager.setState i clock .waiting = w' at h ht hsent hwait
  have hstay : w.manager.onMain (i, clock) = w' → (w.onMain (i, clock)).trace = w.trace.leave i none := fun h =>
    trace_onMain_of_waiting hne ((congrArg _ h).trans ht) (by simp [Trace.leave, Phase.leave])
  split at h
  · have hmod : (w'.modify i fun s => { s with syncTime := clock.timestamp }).trace
        (Function.update w.since i w.manager.sent.length) = w.trace.leave i none :=
      (NodeManager.trace_modify_same rfl).trans ht
    have hle : ∀ k, Function.update w.since i w.manager.sent.length k ≤
        (w'.modify i fun s => { s with syncTime := clock.timestamp }).sent.length :=
      fun k => (hsince k).trans_eq (congrArg List.length hsent.symm)
    obtain ⟨height, hreq⟩ := NodeManager.trace_requestBlockSync i hle
    refine .inr ⟨height, trace_onMain_of_waiting hne ?_ (by simp [Trace.leave, Phase.leave])⟩
    rw [h]
    exact hreq.trans (congrArg _ hmod)
  · split at h
    · split at h
      · rw [NodeManager.setState, if_pos hwait] at h
        exact .inl (hstay h)
      · exact .inl (hstay h)
    · exact .inl (hstay h)

/-- A poll is steps of the node polled, after its announcement. -/
theorem onMain_steps (hw : ∀ k, w.since k ≤ w.manager.sent.length) :
    Relation.ReflTransGen (Trace.Step e.1) (w.announced e) (w.onMain e).trace := by
  by_cases hs : (w.manager.nodes e.1).nodeState = .sync
  · have hsync : Trace.Step e.1 w.trace (w.trace.leave e.1 none) := .clear (.inl hs)
    rw [announced_of_ne (by simp [hs])]
    rcases onMain_sync hw hs with h | ⟨height, h⟩ <;> rw [h]
    · exact .single hsync
    · exact .tail (.single hsync) (.ask height)
  · rcases onMain_step hw hs with h | h
    · rw [h]
    · exact .single h

end Watch

end Bryllite.BcpMono
