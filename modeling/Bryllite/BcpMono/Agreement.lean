import Bryllite.BcpMono.Delivery
import Bryllite.Framework.Commits
import Bryllite.Framework.Indexed
import Bryllite.Framework.Run

/-!
# Agreement of the nodes (bcp_mono)

The nodes refine those of `Framework.Commits` (`NodeManager.view`), if every
header a node elects and every block it finds committed has its next index,
and no node gives up an index for which it sent a commit (`InTurn`). So no two
nodes hold different blocks under one index (`agreement_of_inTurn`). A node
may give up in the first second of a block time, and then they do
(`agreement_commit_timeout`).
-/

namespace Bryllite.BcpMono

open Bryllite.Framework

variable {L : Core} {n : Nat}

/-- The index a block carries. -/
def blockIndex (b : L.Blk) : Nat := L.blockIndex b.header

/-- A node, as one of the nodes of `Framework.Commits`. -/
def Node.view (s : Node L) : Commits.Node L.Blk where
  committed := s.nodeState = .commit
  box := s.commit
  decided := entries L.defaultBlock s.blockChain.blocks

namespace NodeManager

/-- The nodes, as those of `Framework.Commits`. -/
def view (w : NodeManager L n) : Commits.State (Fin n) L.Blk where
  nodes k := (w.nodes k).view
  log := w.commits

/-- What the node elects or finds committed in the poll has the index after its
last block, and where it gives up its commit, it sent none for that index. -/
def InTurn (w : NodeManager L n) (e : Fin n × Clock) : Prop :=
  let s := w.nodes e.1
  match s.nodeState with
  | .vote => getCurrentRoundTime e.2 ≤ bcpTimeoutVote →
    ∀ h ∈ getValueIfCountExceeds s.voteHeader (n / 2), L.blockIndex h = s.blockChain.size + 1
  | .commit =>
    if getCurrentRoundTime e.2 ≤ 1 then
      ∀ c ∈ w.commits, c.1 = e.1 → L.blockIndex c.2.header ≤ s.blockChain.size
    else ∀ b ∈ getValueIfCountExceeds s.commit (n / 2), L.blockIndex b.header = s.blockChain.size + 1
  | _ => True

instance (w : NodeManager L n) : DecidablePred (InTurn w) := fun e => by
  unfold InTurn
  dsimp only
  split <;> infer_instance

variable {w w' : NodeManager L n} {i : Fin n} {clock : Clock}

theorem view_kept (h : w.Kept w') : w'.view = w.view := by
  refine Commits.State.ext (funext fun k => ?_) h.commits
  have hk := h.node k
  exact Commits.Node.ext (by simp only [view, Node.view, hk.nodeState]) hk.commit
    (congrArg (fun c : BlockChain L => entries L.defaultBlock c.blocks) hk.blockChain)

theorem view_modify (f : Node L → Node L) : (w.modify i f).view =
    { nodes := Function.update w.view.nodes i (f (w.nodes i)).view, log := w.view.log } := by
  refine Commits.State.ext (funext fun k => ?_) rfl
  show ((w.modify i f).nodes k).view = Function.update w.view.nodes i (f (w.nodes i)).view k
  by_cases hk : k = i
  · subst hk
    rw [Function.update_self, nodes_modify_self]
  · rw [Function.update_of_ne hk, nodes_modify_of_ne hk]
    rfl

/-- A node that enters waiting. -/
theorem setState_waiting (hs : (w.nodes i).nodeState ≠ .waiting) : w.setState i clock .waiting =
    w.modify i fun s => { s.clear with nodeState := .waiting } := by
  rw [setState, if_neg hs]
  exact modify_modify _ _

/-- A node that has elected `h` and enters commit. -/
theorem setState_commit (hs : (w.nodes i).nodeState ≠ .commit) (h : L.Header) :
    (w.modify i fun s => { s with commitBlockHeader := h }).setState i clock .commit =
      (w.modify i fun s => { s with commitBlockHeader := h, nodeState := .commit }).sendall i
        (.commitBlockReq h) := by
  have hne : ((w.modify i fun s => { s with commitBlockHeader := h }).nodes i).nodeState ≠ .commit := by
    rw [nodes_modify_self]
    exact hs
  rw [setState, if_neg hne, modify_modify]
  show sendall i (.commitBlockReq (Node.commitBlockHeader (NodeManager.nodes (w.modify i _) i))) _ = _
  rw [nodes_modify_self]
  rfl

theorem height_view (w : NodeManager L n) (k : Fin n) : w.view.height k = (w.nodes k).blockChain.size :=
  length_entries _ _

end NodeManager

open NodeManager (InTurn)

/-- What agreement rests on. -/
structure Agree (w : NodeManager L n) : Prop where
  commits : Commits.Inv blockIndex w.view
  contiguous (k : Fin n) : Contiguous (w.nodes k).blockChain.blocks
  built (st : Nat) (e : Fin n × L.Blk) : w.built[st]? = some e → ∃ r p, L.Built st r p e.2
  newBlock (k : Fin n) : (w.nodes k).newBlock = L.defaultBlock ∨ (k, (w.nodes k).newBlock) ∈ w.built

namespace Agree

variable {w w' : NodeManager L n} {i : Fin n} {clock : Clock}

theorem kept (hw : Agree w) (h : w.Kept w') : Agree w' where
  commits := by rw [NodeManager.view_kept h]; exact hw.commits
  contiguous k := by rw [(h.node k).blockChain]; exact hw.contiguous k
  built := by rw [h.built]; exact hw.built
  newBlock k := by rw [(h.node k).newBlock, h.built]; exact hw.newBlock k

/-- A change of a node that builds no block. -/
theorem modify (hw : Agree w) {f : Node L → Node L} (hv : Commits.Inv blockIndex (w.modify i f).view)
    (hc : Contiguous (f (w.nodes i)).blockChain.blocks)
    (hn : (f (w.nodes i)).newBlock = (w.nodes i).newBlock) : Agree (w.modify i f) where
  commits := hv
  contiguous := NodeManager.forall_modify (P := fun _ s => Contiguous s.blockChain.blocks) hc hw.contiguous
  built := hw.built
  newBlock := NodeManager.forall_modify
    (P := fun k s => s.newBlock = L.defaultBlock ∨ (k, s.newBlock) ∈ w.built) (hn ▸ hw.newBlock i)
    hw.newBlock

/-- A change of state, between states other than commit. -/
theorem nodeState (hw : Agree w) {state : NodeState} (hs : (w.nodes i).nodeState ≠ .commit)
    (hs' : state ≠ .commit) : Agree (w.modify i fun s => { s with nodeState := state }) := by
  refine hw.modify ?_ (hw.contiguous i) rfl
  have hv : (w.modify i fun s => { s with nodeState := state }).view = w.view := by
    rw [NodeManager.view_modify]
    refine Commits.State.ext ?_ rfl
    refine (congrArg (Function.update w.view.nodes i) ?_).trans (Function.update_eq_self i _)
    exact Commits.Node.ext (by simp [NodeManager.view, Node.view, hs, hs']) rfl rfl
  rw [hv]
  exact hw.commits

/-- Where a node is not committed, it has decided the indices of its commits. -/
theorem commits_le (hw : Agree w) (hs : (w.nodes i).nodeState ≠ .commit) :
    ∀ b, (i, b) ∈ w.commits → blockIndex b ≤ (w.nodes i).blockChain.size := by
  intro b hb
  rw [← NodeManager.height_view]
  rcases hw.commits.log hb with h | ⟨h, -⟩
  · exact h
  · exact absurd (of_decide_eq_true h) hs

/-- The node goes to waiting, with the chain it has. -/
theorem waiting (hw : Agree w) (hs : (w.nodes i).nodeState ≠ .waiting)
    (h : ∀ b, (i, b) ∈ w.commits → blockIndex b ≤ (w.nodes i).blockChain.size) :
    Agree (w.setState i clock .waiting) := by
  rw [NodeManager.setState_waiting hs]
  refine hw.modify ?_ (hw.contiguous i) rfl
  have hv : (w.modify i fun s => { s.clear with nodeState := .waiting }).view = w.view.leave i none := by
    rw [NodeManager.view_modify]
    refine Commits.State.ext (congrArg (Function.update w.view.nodes i) ?_) rfl
    exact Commits.Node.ext rfl rfl (List.append_nil _).symm
  rw [hv]
  refine hw.commits.step (.clear i fun b hb => ?_)
  rw [NodeManager.height_view]
  exact h b hb

/-- The node appends a block with the next index and goes to waiting. -/
theorem append (hw : Agree w) (hs : (w.nodes i).nodeState = .commit) {b : L.Blk}
    (hb : n / 2 < (w.nodes i).commit.count b)
    (hi : L.blockIndex b.header = (w.nodes i).blockChain.size + 1) :
    Agree ((w.modify i (Node.appendBlock b)).setState i clock .waiting) := by
  have hne : ((w.modify i (Node.appendBlock b)).nodes i).nodeState ≠ .waiting := by
    rw [NodeManager.nodes_modify_self, show ((w.nodes i).appendBlock b).nodeState = .commit from hs]
    exact NodeState.noConfusion
  -- The index after the last block is free, so the block is appended.
  have hblocks : ((w.nodes i).appendBlock b).blockChain.blocks =
      (w.nodes i).blockChain.blocks.insert ((w.nodes i).blockChain.size + 1) b := by
    have hfree : (w.nodes i).blockChain.getBlock (L.blockIndex b.header) = none :=
      hi ▸ (hw.contiguous i).next
    obtain ⟨c, hc⟩ := Option.isSome_iff_exists.mp
      (BlockChain.appendBlock_isSome hfree : ((w.nodes i).blockChain.appendBlock _ b true).isSome)
    rw [Node.appendBlock, hc, Option.getD_some, ← hi]
    exact (BlockChain.appendBlock_eq_some hc).2
  obtain ⟨h1, h2⟩ := (hw.contiguous i).insert (d := L.defaultBlock) b
  rw [NodeManager.setState_waiting hne, NodeManager.modify_modify]
  refine hw.modify ?_ (hblocks ▸ h1) rfl
  have hv : (w.modify i ((fun s => { s.clear with nodeState := .waiting }) ∘ Node.appendBlock b)).view =
      w.view.leave i (some b) := by
    rw [NodeManager.view_modify]
    refine Commits.State.ext (congrArg (Function.update w.view.nodes i) ?_) rfl
    exact Commits.Node.ext rfl rfl ((congrArg (entries L.defaultBlock) hblocks).trans h2)
  rw [hv]
  refine hw.commits.step (.decide i b ?_ ?_)
  · rw [Fintype.card_fin]
    exact hb
  · rw [NodeManager.height_view]
    exact hi

/-- A node builds a block. -/
theorem build (hw : Agree w) {b : L.Blk} {r : Nat} {p : L.Hash} (hb : L.Built w.built.length r p b)
    {f : Node L → Node L} (hv : (f (w.nodes i)).view = (w.nodes i).view)
    (hc : (f (w.nodes i)).blockChain = (w.nodes i).blockChain) (hn : (f (w.nodes i)).newBlock = b) :
    Agree { w.modify i f with built := w.built ++ [(i, b)] } where
  commits := by
    have h : NodeManager.view { w.modify i f with built := w.built ++ [(i, b)] } = w.view := by
      refine (NodeManager.view_modify f).trans (Commits.State.ext ?_ rfl)
      rw [hv]
      exact Function.update_eq_self i _
    rw [h]
    exact hw.commits
  contiguous := NodeManager.forall_modify (P := fun _ s => Contiguous s.blockChain.blocks)
    (hc ▸ hw.contiguous i) hw.contiguous
  built st e h := by
    rw [List.getElem?_append] at h
    split at h
    · exact hw.built st e h
    · rename_i hst
      rw [List.getElem?_singleton] at h
      split at h
      · -- The stamp of the new block is the number of blocks before it.
        obtain rfl : st = w.built.length := by omega
        rw [← Option.some.inj h]
        exact ⟨r, p, hb⟩
      · cases h
  newBlock := NodeManager.forall_modify
    (P := fun k s => s.newBlock = L.defaultBlock ∨ (k, s.newBlock) ∈ w.built ++ [(i, b)])
    (.inr (hn ▸ List.mem_append_right _ List.mem_cons_self))
    fun k => (hw.newBlock k).imp_right (List.mem_append_left _)

/-- The node starts a new round, and builds a block if it can. -/
theorem newRound (hw : Agree w) (hs : (w.nodes i).nodeState ≠ .commit)
    (hs' : (w.nodes i).nodeState ≠ .newRound) : Agree (w.setState i clock .newRound) := by
  rw [NodeManager.setState, if_neg hs']
  have hw' : Agree (w.modify i fun s => { s with nodeState := .newRound }) :=
    hw.nodeState hs NodeState.noConfusion
  generalize w.modify i _ = w' at hw'
  show Agree (w'.onStateNewRoundBegin i)
  unfold NodeManager.onStateNewRoundBegin
  dsimp only
  cases hb : (w'.nodes i).createBlockFor w'.built.length (w'.nodes i).newBlockIndex with
  | none => exact hw'
  | some b =>
    obtain ⟨p, hbuilt⟩ := Node.createBlockFor_built hb
    exact hw'.build hbuilt rfl rfl rfl

/-- The node enters another state than waiting, new round and commit. -/
theorem setState (hw : Agree w) (hs : (w.nodes i).nodeState ≠ .commit) {state : NodeState}
    (hne : (w.nodes i).nodeState ≠ state) (h1 : state ≠ .waiting) (h2 : state ≠ .newRound)
    (h3 : state ≠ .commit) : Agree (w.setState i clock state) := by
  rw [NodeManager.setState, if_neg hne]
  have hw' := hw.nodeState hs h3
  generalize w.modify i _ = w' at hw'
  cases state with
  | null => exact hw'
  | sync =>
    have hk : w'.Kept (w'.modify i fun s => { s with syncTime := clock.timestamp }) :=
      .modify ⟨rfl, rfl, rfl, rfl⟩
    exact hw'.kept hk
  | propose =>
    show Agree (w'.onStateProposeBegin i)
    unfold NodeManager.onStateProposeBegin
    split
    · exact hw'
    · rw [NodeManager.sendall_propose]
      exact hw'.kept (.sendallLocal (by simp))
  | vote =>
    show Agree (w'.onStateVoteBegin i)
    unfold NodeManager.onStateVoteBegin
    split
    · exact hw'
    · rw [NodeManager.sendall_vote]
      exact hw'.kept (.sendallLocal (by simp))
  | waiting => exact absurd rfl h1
  | newRound => exact absurd rfl h2
  | commit => exact absurd rfl h3

/-- At most one node has built a block with an elected header. -/
theorem acked_toList (hL : L.Sound) (hw : Agree w) {h : L.Header} (hi : 0 < L.blockIndex h) :
    ∃ o : Option L.Blk, w.acked h (List.finRange n) = o.toList ∧ ∀ b, o = some b → b.header = h := by
  have hmem : ∀ k, w.Acks h k → ∃ st : Nat, w.built[st]? = some (k, (w.nodes k).newBlock) := by
    intro k hk
    refine List.getElem?_of_mem ((hw.newBlock k).resolve_left fun hd => ?_)
    rw [hk.1, hd, show L.defaultBlock.header = L.defaultHeader from rfl, hL.blockIndex_default] at hi
    exact absurd hi (Nat.lt_irrefl 0)
  have huniq : ∀ k k', w.Acks h k → w.Acks h k' → k = k' := by
    intro k k' hk hk'
    obtain ⟨st, hst⟩ := hmem k hk
    obtain ⟨st', hst'⟩ := hmem k' hk'
    obtain ⟨_, _, hb⟩ := hw.built st _ hst
    obtain ⟨_, _, hb'⟩ := hw.built st' _ hst'
    obtain rfl := hL.distinct hb hb' (hk.1.symm.trans hk'.1)
    exact congrArg Prod.fst (Option.some.inj (hst.symm.trans hst'))
  unfold NodeManager.acked
  have hnd := (List.nodup_finRange n).filter fun k => w.Acks h k
  have hall : ∀ k ∈ (List.finRange n).filter fun k => w.Acks h k, w.Acks h k := fun k hk => by
    simpa using (List.mem_filter.mp hk).2
  match (List.finRange n).filter fun k => w.Acks h k, hnd, hall with
  | [], _, _ => exact ⟨none, rfl, fun b hb => by cases hb⟩
  | [k], _, hall =>
    refine ⟨some (w.nodes k).newBlock, rfl, fun b hb => ?_⟩
    rw [← Option.some.inj hb]
    exact (hall k List.mem_cons_self).1.symm
  | k :: k' :: l, hnd, hall =>
    have hkk := huniq k k' (hall k List.mem_cons_self) (hall k' (List.mem_cons_of_mem _ List.mem_cons_self))
    rw [hkk] at hnd
    exact absurd List.mem_cons_self (List.nodup_cons.mp hnd).1

/-- The node elects a header with its next index, and goes to commit. -/
theorem elect (hL : L.Sound) (hw : Agree w) (hs : (w.nodes i).nodeState ≠ .commit) {h : L.Header}
    (hi : L.blockIndex h = (w.nodes i).blockChain.size + 1) :
    Agree ((w.modify i fun s => { s with commitBlockHeader := h }).setState i clock .commit) := by
  rw [NodeManager.setState_commit hs]
  -- The nodes before node `i` asks for the block.
  obtain ⟨w1, hw1⟩ : ∃ w1,
      w.modify i (fun s => { s with commitBlockHeader := h, nodeState := .commit }) = w1 := ⟨_, rfl⟩
  have hhead : (w1.nodes i).commitBlockHeader = h := by
    rw [← hw1, NodeManager.nodes_modify_self]
  have hnode : ∀ k, (w1.nodes k).blockChain = (w.nodes k).blockChain ∧
      (w1.nodes k).newBlock = (w.nodes k).newBlock ∧ (w1.nodes k).commit = (w.nodes k).commit ∧
      (w1.nodes k).nodeState = if k = i then .commit else (w.nodes k).nodeState := by
    intro k
    rw [← hw1]
    by_cases hk : k = i
    · subst hk
      rw [NodeManager.nodes_modify_self, if_pos rfl]
      exact ⟨rfl, rfl, rfl, rfl⟩
    · rw [NodeManager.nodes_modify_of_ne hk, if_neg hk]
      exact ⟨rfl, rfl, rfl, rfl⟩
  obtain ⟨hn, hb, hc⟩ := NodeManager.sendall_commitBlockReq hhead
  obtain ⟨o, ho, hoh⟩ := hw.acked_toList hL (h := h) (by omega)
  rw [NodeManager.acked_congr fun k => (hnode k).2.1, ho] at hn hc
  have hbuilt : (w1.sendall i (.commitBlockReq h)).built = w.built := hb.trans (by rw [← hw1]; rfl)
  have hcommits : (w1.sendall i (.commitBlockReq h)).commits = w.commits ++ o.toList.map (i, ·) :=
    hc.trans (by rw [← hw1]; rfl)
  rw [hw1]
  generalize w1.sendall i (.commitBlockReq h) = w2 at hn hbuilt hcommits
  have hv : w2.view = w.view.commit i o := by
    refine Commits.State.ext (funext fun k => ?_) hcommits
    obtain ⟨b, hb⟩ := hn k
    obtain ⟨h1, -, h3, h4⟩ := hnode k
    show (w2.nodes k).view = _
    rw [hb]
    refine Commits.Node.ext ?_ ?_ ?_
    · show decide ((w1.nodes k).nodeState = .commit) =
        if k = i then true else decide ((w.nodes k).nodeState = .commit)
      rw [h4]
      split <;> rfl
    · show (w1.nodes k).commit ++ o.toList = (w.nodes k).commit ++ o.toList
      rw [h3]
    · show entries _ (w1.nodes k).blockChain.blocks = entries _ (w.nodes k).blockChain.blocks
      rw [h1]
  refine ⟨?_, fun k => ?_, ?_, fun k => ?_⟩
  · rw [hv]
    refine hw.commits.step (.commit i o (decide_eq_false hs) fun b hb => ?_)
    rw [NodeManager.height_view, ← hi, blockIndex, hoh b hb]
  · obtain ⟨b, hb⟩ := hn k
    rw [hb]
    show Contiguous (w1.nodes k).blockChain.blocks
    rw [(hnode k).1]
    exact hw.contiguous k
  · rw [hbuilt]
    exact hw.built
  · obtain ⟨b, hb⟩ := hn k
    rw [hb, hbuilt]
    show (w1.nodes k).newBlock = _ ∨ (k, (w1.nodes k).newBlock) ∈ _
    rw [(hnode k).2.1]
    exact hw.newBlock k

/-! ### Polls -/

theorem syncMain (hw : Agree w) (hs : (w.nodes i).nodeState = .sync) :
    Agree (w.onStateSyncMain i clock) := by
  have hw' : Agree (w.setState i clock .waiting) :=
    hw.waiting (by simp [hs]) (hw.commits_le (by simp [hs]))
  have hwait : ((w.setState i clock .waiting).nodes i).nodeState = .waiting := by
    rw [NodeManager.setState_waiting (by simp [hs]), NodeManager.nodes_modify_self]
  unfold NodeManager.onStateSyncMain
  generalize w.setState i clock .waiting = w' at hw' hwait
  dsimp only
  split
  · have h1 : w'.Kept (w'.modify i fun s => { s with syncTime := clock.timestamp }) :=
      .modify ⟨rfl, rfl, rfl, rfl⟩
    refine (hw'.kept h1).kept (.trans (.modify ?_) (.sendall_blockHeightReq _))
    exact ⟨rfl, rfl, rfl, rfl⟩
  · split
    · split
      · rw [NodeManager.setState, if_pos hwait]
        exact hw'
      · exact hw'
    · exact hw'

theorem kept_requestNewRound (w : NodeManager L n) (i : Fin n) (clock : Clock) (r : Nat) :
    w.Kept (w.requestNewRound i clock r) := by
  unfold NodeManager.requestNewRound
  have h1 : w.Kept (w.modify i fun s =>
      if s.currentRoundTime < getCurrentRound clock then
        { s with currentRoundTime := getCurrentRound clock, newRoundMessageSent := false }
      else s) := by
    refine .modify ?_
    split
    · exact ⟨rfl, rfl, rfl, rfl⟩
    · exact .refl _
  generalize w.modify i _ = w' at h1
  dsimp only
  split
  · rw [NodeManager.sendall_newRound]
    refine h1.trans (.trans (.modify ?_) (.sendallLocal (by simp)))
    exact ⟨rfl, rfl, rfl, rfl⟩
  · exact h1

theorem waitingMain (hw : Agree w) (hs : (w.nodes i).nodeState = .waiting) :
    Agree (w.onStateWaitingMain i clock) := by
  unfold NodeManager.onStateWaitingMain
  dsimp only
  have hk := kept_requestNewRound w i clock ((w.nodes i).blockChain.size + 1)
  have hw' := hw.kept hk
  have hs' := (hk.node i).nodeState.trans hs
  generalize w.requestNewRound i clock ((w.nodes i).blockChain.size + 1) = w' at hw' hs'
  split
  · split
    · rename_i r _ _
      have h1 : w'.Kept (w'.modify i fun s => { s with newBlockIndex := r }) := .modify ⟨rfl, rfl, rfl, rfl⟩
      exact (hw'.kept h1).newRound (by simp [hs']) (by simp [hs'])
    · split
      · exact hw'.setState (by simp [hs']) (by simp [hs']) (by simp) (by simp) (by simp)
      · exact hw'
  · exact hw'

/-- A poll in turn keeps the invariant. -/
theorem onMain (hL : L.Sound) (hw : Agree w) (hi : InTurn w (i, clock)) : Agree (w.onMain (i, clock)) := by
  unfold NodeManager.onMain
  unfold InTurn at hi
  dsimp only at hi ⊢
  cases hs : (w.nodes i).nodeState with
  | null => exact hw
  | sync => exact hw.syncMain hs
  | waiting => exact hw.waitingMain hs
  | newRound =>
    show Agree (w.onStateNewRoundMain i clock)
    unfold NodeManager.onStateNewRoundMain
    split
    · exact hw.setState (by simp [hs]) (by simp [hs]) (by simp) (by simp) (by simp)
    · exact hw
  | propose =>
    show Agree (w.onStateProposeMain i clock)
    unfold NodeManager.onStateProposeMain
    split
    · exact hw.setState (by simp [hs]) (by simp [hs]) (by simp) (by simp) (by simp)
    · exact hw
  | vote =>
    simp only [hs] at hi
    show Agree (w.onStateVoteMain i clock)
    unfold NodeManager.onStateVoteMain
    split
    · exact hw.waiting (by simp [hs]) (hw.commits_le (by simp [hs]))
    · rename_i ht
      split
      · rename_i h hh
        exact hw.elect hL (by simp [hs]) (hi (Nat.le_of_not_lt ht) h hh)
      · exact hw
  | commit =>
    simp only [hs] at hi
    show Agree (w.onStateCommitMain i clock)
    unfold NodeManager.onStateCommitMain
    split
    · rename_i ht
      rw [if_pos ht] at hi
      exact hw.waiting (by simp [hs]) fun b hb => hi (i, b) hb rfl
    · rename_i ht
      rw [if_neg ht] at hi
      split
      · rename_i b hb
        exact hw.append hs (getValueIfCountExceeds_count hb).2 (hi b hb)
      · exact hw

theorem start (keyPair : Fin n → L.Account) (syncTime : Fin n → Nat) (newRoundMessageSent : Fin n → Bool)
    (currentRoundTime : Fin n → Int) : Agree (NodeManager.start keyPair syncTime newRoundMessageSent
      currentRoundTime : NodeManager L n) where
  commits := Commits.Inv.init (fun _ => rfl) (fun _ => rfl) rfl
  contiguous _ := Contiguous.empty
  built _ _ h := by simp [NodeManager.start] at h
  newBlock _ := .inl rfl

end Agree

/-- In a run whose polls are all in turn, no two nodes hold different blocks
under one index. -/
theorem agreement_of_inTurn (hL : L.Sound) (keyPair : Fin n → L.Account) (syncTime : Fin n → Nat)
    (newRoundMessageSent : Fin n → Bool) (currentRoundTime : Fin n → Int) {es : List (Fin n × Clock)}
    (h : Along NodeManager.onMain InTurn
      (.start keyPair syncTime newRoundMessageSent currentRoundTime) es) :
    let w := run NodeManager.onMain (.start keyPair syncTime newRoundMessageSent currentRoundTime) es
    ∀ j k r b b', (w.nodes j).blockChain.getBlock r = some b → (w.nodes k).blockChain.getBlock r = some b' →
      b = b' := by
  intro w j k r b b' hb hb'
  have hw : Agree w := run_inv (fun _ _ hw hi => hw.onMain hL hi)
    (Agree.start keyPair syncTime newRoundMessageSent currentRoundTime) h
  exact hw.commits.agree ((hw.contiguous j).getElem?_entries hb).2 ((hw.contiguous k).getElem?_entries hb').2

/-- Two rounds of two nodes: both hold the block of node 1, and then that of
the second round. -/
theorem agreement_of_inTurn_sample :
    let round (t : Nat) : List (Fin 2 × Clock) := [(0, t), (1, t), (0, t), (0, t + 6), (1, t + 6),
      (0, t + 11), (1, t + 11), (0, t + 11), (1, t + 11), (0, t + 11), (1, t + 11)].map
        fun e => (e.1, ⟨e.2, 1000 * e.2⟩)
    let w : NodeManager Core.sample 2 := run NodeManager.onMain
      (.start (fun i => (i.val : Nat)) (fun _ => 30000) (fun _ => false) fun _ => 0)
      ([(0, ⟨30, 30000⟩), (1, ⟨30, 30000⟩)] ++ round 30 ++ round 60)
    (w.nodes 0).blockChain.size = 2 ∧ ∀ r b b', (w.nodes 0).blockChain.getBlock r = some b →
      (w.nodes 1).blockChain.getBlock r = some b' → b = b' :=
  ⟨by decide +kernel, agreement_of_inTurn Core.sample_sound _ _ _ _ (by decide +kernel) 0 1⟩

/-- Nodes 0 and 1 of three give up, at the start of the next block time, the
block they committed to and node 2 has appended, and decide another. -/
theorem agreement_commit_timeout :
    let es : List (Fin 3 × Nat) := [(0, 30), (1, 30), (2, 30), (0, 30), (1, 30), (2, 30), (0, 30), (0, 36),
      (1, 36), (2, 36), (0, 41), (1, 41), (2, 41), (0, 41), (1, 41), (2, 41), (2, 41), (0, 60), (1, 60),
      (0, 60), (1, 60), (0, 60), (0, 66), (1, 66), (0, 71), (1, 71), (0, 71), (1, 71), (0, 71)]
    let w : NodeManager Core.sample 3 := run NodeManager.onMain
      (.start (fun i => (i.val : Nat)) (fun _ => 30000) (fun _ => false) fun _ => 0)
      (es.map fun e => (e.1, ⟨e.2, 1000 * e.2⟩))
    let b (stamp : Nat) : Core.sample.Blk :=
      ⟨(⟨1, 0, stamp⟩ : SampleHeader), [(⟨1, 1, 100, false⟩ : SampleTransaction)]⟩
    (es.map (·.2)).Pairwise (· ≤ ·) ∧ (w.nodes 0).blockChain.getBlock 1 = some (b 3) ∧
      (w.nodes 2).blockChain.getBlock 1 = some (b 0) ∧ b 3 ≠ b 0 := by
  decide +kernel

end Bryllite.BcpMono
