import Bryllite.BcpMono.NodeManager
import Mathlib.Data.List.FinRange

/-!
# What the broadcasts do (bcp_mono)

A broadcast whose receivers send nothing is a change of every node. A node
that asks for the block it elected is sent the block of every node that built
one with this header, and broadcasts a commit for each (`acked`).
-/

namespace Bryllite.BcpMono

open Bryllite.Framework

variable {L : Core} {n : Nat}

/-- What a node keeps in most of what happens: its chain, the block it built,
the commits it received, and its state. -/
structure Node.Kept (s s' : Node L) : Prop where
  blockChain : s'.blockChain = s.blockChain
  newBlock : s'.newBlock = s.newBlock
  commit : s'.commit = s.commit
  nodeState : s'.nodeState = s.nodeState

theorem Node.Kept.refl (s : Node L) : s.Kept s := ⟨rfl, rfl, rfl, rfl⟩

theorem Node.Kept.trans {s s' s'' : Node L} (h : s.Kept s') (h' : s'.Kept s'') : s.Kept s'' :=
  ⟨h'.blockChain.trans h.blockChain, h'.newBlock.trans h.newBlock, h'.commit.trans h.commit,
    h'.nodeState.trans h.nodeState⟩

namespace NodeManager

/-- The commits that were broadcast. -/
def commits (w : NodeManager L n) : List (Fin n × L.Blk) :=
  w.sent.filterMap fun e => match e.2 with
    | .commit b => some (e.1, b)
    | _ => none

theorem commits_of_sent {w w' : NodeManager L n} {i : Fin n} {m : NodeMessage L}
    (h : w'.sent = w.sent ++ [(i, m)]) (hm : ∀ b, m ≠ .commit b) : w'.commits = w.commits := by
  rw [commits, h, List.filterMap_append]
  cases m with
  | commit b => exact absurd rfl (hm b)
  | _ => exact List.append_nil _

theorem commits_of_sent_commits {w w' : NodeManager L n} {i : Fin n} {bs : List L.Blk}
    (h : w'.sent = w.sent ++ bs.map fun b => (i, .commit b)) : w'.commits = w.commits ++ bs.map (i, ·) := by
  rw [commits, h, List.filterMap_append, List.filterMap_map, ← List.filterMap_eq_map]
  rfl

/-- All nodes keep what `Node.Kept` says, nothing is built, and no commit is sent. -/
structure Kept (w w' : NodeManager L n) : Prop where
  node (k : Fin n) : (w.nodes k).Kept (w'.nodes k)
  built : w'.built = w.built
  commits : w'.commits = w.commits

variable {w w' w'' : NodeManager L n} {i : Fin n}

theorem Kept.refl (w : NodeManager L n) : w.Kept w := ⟨fun _ => .refl _, rfl, rfl⟩

theorem Kept.trans (h : w.Kept w') (h' : w'.Kept w'') : w.Kept w'' :=
  ⟨fun k => (h.node k).trans (h'.node k), h'.built.trans h.built, h'.commits.trans h.commits⟩

@[simp] theorem nodes_modify_self (f : Node L → Node L) : (w.modify i f).nodes i = f (w.nodes i) :=
  Function.update_self ..

@[simp] theorem nodes_modify_of_ne {k : Fin n} (hk : k ≠ i) (f : Node L → Node L) :
    (w.modify i f).nodes k = w.nodes k :=
  Function.update_of_ne hk ..

theorem modify_modify (f g : Node L → Node L) : (w.modify i f).modify i g = w.modify i (g ∘ f) := by
  simp only [modify, Function.update_self, Function.update_idem, Function.comp]

/-- What holds of node `i` as changed, and of the other nodes, holds of all. -/
theorem forall_modify {P : Fin n → Node L → Prop} {f : Node L → Node L} (hi : P i (f (w.nodes i)))
    (h : ∀ k, P k (w.nodes k)) (k : Fin n) : P k ((w.modify i f).nodes k) := by
  by_cases hk : k = i
  · subst hk
    rw [nodes_modify_self]
    exact hi
  · rw [nodes_modify_of_ne hk]
    exact h k

theorem Kept.modify {f : Node L → Node L} (h : (w.nodes i).Kept (f (w.nodes i))) : w.Kept (w.modify i f) :=
  ⟨forall_modify (P := fun k s => (w.nodes k).Kept s) h fun _ => .refl _, rfl, rfl⟩

/-! ## Messages to which nodes send nothing -/

theorem foldl_modify (f : Node L → Node L) (l : List (Fin n)) (w : NodeManager L n) :
    l.foldl (fun w k => modify k f w) w = { w with
      nodes := l.foldl (fun nodes k => Function.update nodes k (f (nodes k))) w.nodes } := by
  induction l generalizing w with
  | nil => rfl
  | cons k l ih => rw [List.foldl_cons, ih]; rfl

theorem sendall_newRound (r : Nat) : w.sendall i (.newRound r) = w.sendallLocal i (.newRound r) :=
  foldl_modify _ (List.finRange n) { w with sent := w.sent ++ [(i, .newRound r)] }

theorem sendall_propose (h : L.Header) : w.sendall i (.propose h) = w.sendallLocal i (.propose h) :=
  foldl_modify _ (List.finRange n) { w with sent := w.sent ++ [(i, .propose h)] }

theorem sendall_vote (h : L.Header) : w.sendall i (.vote h) = w.sendallLocal i (.vote h) :=
  foldl_modify _ (List.finRange n) { w with sent := w.sent ++ [(i, .vote h)] }

@[simp] theorem nodes_sendallLocal (m : NodeMessage L) (k : Fin n) :
    (w.sendallLocal i m).nodes k = (w.nodes k).onMessage m :=
  broadcast_apply _ _ k

theorem Kept.sendallLocal {m : NodeMessage L} (hm : ∀ b, m ≠ .commit b) : w.Kept (w.sendallLocal i m) := by
  refine ⟨fun k => ?_, rfl, commits_of_sent rfl hm⟩
  rw [nodes_sendallLocal]
  cases m with
  | commit b => exact absurd rfl (hm b)
  | _ => exact ⟨rfl, rfl, rfl, rfl⟩

/-! ## Messages that are answered -/

/-- The heights of the nodes are sent to the node that asks. -/
theorem foldl_blockHeightReq (l : List (Fin n)) (w : NodeManager L n) :
    w.Kept (l.foldl (fun w k => w.onMessageBlockHeightReq k i) w) := by
  induction l generalizing w with
  | nil => exact .refl w
  | cons k l ih =>
    refine Kept.trans (Kept.modify ?_) (ih (w.onMessageBlockHeightReq k i))
    exact ⟨rfl, rfl, rfl, rfl⟩

theorem Kept.sendall_blockHeightReq (h : Nat) : w.Kept (w.sendall i (.blockHeightReq h)) := by
  have hs : w.Kept { w with sent := w.sent ++ [(i, .blockHeightReq h)] } :=
    ⟨fun _ => .refl _, rfl, commits_of_sent (m := .blockHeightReq h) rfl (by simp)⟩
  exact hs.trans (foldl_blockHeightReq (List.finRange n) _)

/-- Node `k` has built a block with this header that passes the checks of the
node that asks for it. -/
def Acks (w : NodeManager L n) (header : L.Header) (k : Fin n) : Prop :=
  header = (w.nodes k).newBlock.header ∧ L.valid (w.nodes k).newBlock = true ∧
    L.merkleRootHash (w.nodes k).newBlock = L.hashMerkleRoot header

instance (w : NodeManager L n) (header : L.Header) : DecidablePred (w.Acks header) :=
  fun _ => inferInstanceAs (Decidable (_ ∧ _ ∧ _))

/-- The blocks that a node which asks for this header broadcasts a commit for. -/
def acked (w : NodeManager L n) (header : L.Header) (l : List (Fin n)) : List L.Blk :=
  (l.filter fun k => w.Acks header k).map fun k => (w.nodes k).newBlock

theorem acked_congr {header : L.Header} (h : ∀ k, (w'.nodes k).newBlock = (w.nodes k).newBlock)
    (l : List (Fin n)) : w'.acked header l = w.acked header l := by
  rw [acked, acked, List.map_congr_left fun k _ => h k]
  refine congrArg _ (List.filter_congr fun k _ => decide_eq_decide.mpr ?_)
  rw [Acks, Acks, h]

/-- What asking node `j` does. -/
theorem onMessageCommitBlockReq_eq {header : L.Header} (hw : (w.nodes i).commitBlockHeader = header)
    (j : Fin n) : let w' := w.onMessageCommitBlockReq j i header
    (∀ k, ∃ b, w'.nodes k =
        { w.nodes k with commit := (w.nodes k).commit ++ w.acked header [j], commitBlock := b }) ∧
      w'.built = w.built ∧ w'.sent = w.sent ++ (w.acked header [j]).map fun b => (i, .commit b) := by
  have hmod : ∀ (b : L.Blk) k, ∃ b', (w.modify i fun s => { s with commitBlock := b }).nodes k =
      { w.nodes k with commitBlock := b' } := by
    intro b k
    by_cases hk : k = i
    · subst hk
      exact ⟨b, nodes_modify_self _⟩
    · exact ⟨(w.nodes k).commitBlock, nodes_modify_of_ne hk _⟩
  unfold onMessageCommitBlockReq
  by_cases ha : w.Acks header j
  · have hc : w.acked header [j] = [(w.nodes j).newBlock] := by simp [acked, ha]
    obtain ⟨h1, h2, h3⟩ := ha
    rw [if_pos h1, hc]
    unfold onMessageCommitBlockAck
    dsimp only
    rw [nodes_modify_self, if_pos (by simp [h2, ← h1, h3, hw])]
    refine ⟨fun k => ?_, rfl, rfl⟩
    obtain ⟨b', hb'⟩ := hmod (w.nodes j).newBlock k
    refine ⟨b', ?_⟩
    rw [requestCommit, nodes_sendallLocal, hb']
    rfl
  · have hc : w.acked header [j] = [] := by simp [acked, ha]
    rw [hc]
    by_cases h1 : header = (w.nodes j).newBlock.header
    · rw [if_pos h1]
      unfold onMessageCommitBlockAck
      dsimp only
      rw [nodes_modify_self, if_neg]
      · refine ⟨fun k => ?_, rfl, (List.append_nil _).symm⟩
        obtain ⟨b', hb'⟩ := hmod (w.nodes j).newBlock k
        exact ⟨b', by rw [hb', List.append_nil]⟩
      · intro hv
        simp only [Bool.and_eq_true, decide_eq_true_eq] at hv
        exact ha ⟨h1, hv.1.1, h1 ▸ hv.2⟩
    · rw [if_neg h1]
      exact ⟨fun k => ⟨_, by rw [List.append_nil]⟩, rfl, (List.append_nil _).symm⟩

theorem foldl_commitBlockReq (l : List (Fin n)) {header : L.Header} (w : NodeManager L n)
    (hw : (w.nodes i).commitBlockHeader = header) :
    let w' := l.foldl (fun w k => w.onMessageCommitBlockReq k i header) w
    (∀ k, ∃ b, w'.nodes k =
        { w.nodes k with commit := (w.nodes k).commit ++ w.acked header l, commitBlock := b }) ∧
      w'.built = w.built ∧ w'.sent = w.sent ++ (w.acked header l).map fun b => (i, .commit b) := by
  induction l generalizing w with
  | nil =>
    refine ⟨fun k => ⟨(w.nodes k).commitBlock, ?_⟩, rfl, (List.append_nil _).symm⟩
    rw [acked, List.filter_nil, List.map_nil, List.append_nil]
    rfl
  | cons j l ih =>
    obtain ⟨hn, hb, hs⟩ := onMessageCommitBlockReq_eq hw j
    generalize hw1 : w.onMessageCommitBlockReq j i header = w1 at hn hb hs
    have hnew : ∀ k, (w1.nodes k).newBlock = (w.nodes k).newBlock := fun k => by
      obtain ⟨b, h⟩ := hn k
      rw [h]
    have hhead : (w1.nodes i).commitBlockHeader = header := by
      obtain ⟨b, h⟩ := hn i
      rw [h]
      exact hw
    have hcons : w.acked header (j :: l) = w.acked header [j] ++ w.acked header l := by
      rw [acked, acked, acked, ← List.map_append, ← List.filter_append]
      rfl
    obtain ⟨hn', hb', hs'⟩ := ih w1 hhead
    dsimp only
    rw [List.foldl_cons, hw1, hcons]
    rw [acked_congr hnew] at hn' hs'
    refine ⟨fun k => ?_, hb'.trans hb, ?_⟩
    · obtain ⟨b, h⟩ := hn k
      obtain ⟨b', h'⟩ := hn' k
      exact ⟨b', by rw [h', h, List.append_assoc]⟩
    · rw [hs', hs, List.map_append, List.append_assoc]

theorem sendall_commitBlockReq {header : L.Header} (hw : (w.nodes i).commitBlockHeader = header) :
    let w' := w.sendall i (.commitBlockReq header)
    let bs := w.acked header (List.finRange n)
    (∀ k, ∃ b, w'.nodes k = { w.nodes k with commit := (w.nodes k).commit ++ bs, commitBlock := b }) ∧
      w'.built = w.built ∧ w'.commits = w.commits ++ bs.map (i, ·) := by
  obtain ⟨hn, hb, hs⟩ := foldl_commitBlockReq (List.finRange n)
    { w with sent := w.sent ++ [(i, .commitBlockReq header)] } hw
  have hc : NodeManager.commits { w with sent := w.sent ++ [(i, .commitBlockReq header)] } = w.commits :=
    commits_of_sent (m := .commitBlockReq header) rfl (by simp)
  exact ⟨hn, hb, (commits_of_sent_commits hs).trans (congrArg (· ++ _) hc)⟩

end NodeManager

end Bryllite.BcpMono
