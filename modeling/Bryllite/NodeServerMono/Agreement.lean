import Bryllite.NodeServerMono.Abstraction
import Bryllite.NodeServerMono.Candidate
import Bryllite.NodeServerMono.Leak

/-!
# Agreement of the nodes (node-server-mono)

If every round starts with empty boxes, the nodes refine the rounds of
`Framework.Rounds`: each poll is a sequence of its steps (`Agree.steps`). So no
two nodes append different blocks at one index (`agreement_of_freshStart`).
With a round that starts with what an earlier one left in the boxes, they do
(`agreement_stale_start`).
-/

namespace Bryllite.NodeServerMono

open Bryllite.Framework
open BcpServer (selectLowest_mem)
open NodeManager (peerId)

variable {L : Core} {n : Nat}

/-- What agreement rests on. -/
structure Agree (w : NodeManager L n) : Prop where
  offers : Offers w
  rounds : Rounds.Inv (Boxes.ballot L n) w.node
  contiguous (k : Fin n) : Contiguous (w.chain k).mapBlocks
  block (k : Fin n) (r : Nat) (b : L.Blk) : (w.chain k).getBlock r = some b → ∃ e ∈ w.built, e.2 = b
  announced (k : Fin n) (p : Int) (r : Nat) : (w.server k).newRoundMessages[p]? = some r →
    p ∈ Finset.Ico (0 : Int) n
  user (k : Fin n) (a : L.Address) (h : L.Header) : (w.server k).userBlockHeaders[a]? = some h →
    L.blockIndex h = (w.chain k).height + 1

/-- What calls leave among the user headers was there, or is of one of them. -/
theorem run_perform_user {P : L.Header → Prop} {s : BcpServer L} {cs : List (Call L)}
    (hs : ∀ (a : L.Address) h, s.userBlockHeaders[a]? = some h → P h)
    (hc : ∀ c ∈ cs, ∀ a h, c = .userHeader a h → P h) (a : L.Address) (h : L.Header) :
    (run (Call.perform n) s cs).userBlockHeaders[a]? = some h → P h := by
  refine run_inv (I := fun s : BcpServer L => ∀ (a : L.Address) h, s.userBlockHeaders[a]? = some h → P h)
    (P := fun _ c => ∀ a h, c = .userHeader a h → P h) (fun s c hs hc => ?_) hs (along_of_forall hc) a h
  cases c with
  | userHeader a' h' =>
    simp only [Call.perform]
    rcases s.userHeader_cases a' h' with he | ⟨-, he⟩ <;> rw [he]
    · exact hs
    · exact forall_insert (hc a' h' rfl) hs
  | clear => exact fun _ _ h => absurd h getElem?_empty_ne
  | candidate b => exact hs
  | newRound | propose | vote | commit | myVote =>
    rw [(Call.Keeps.perform (by trivial) s).2]
    exact hs

namespace Agree

variable {w : NodeManager L n} {i : Fin n} {t : Nat}

theorem start (accounts : Fin n → L.Account) : Agree (NodeManager.start accounts : NodeManager L n) where
  offers := Offers.start accounts
  rounds := Rounds.Inv.init (fun _ => rfl) (fun _ _ => rfl) fun _ => rfl
  contiguous _ := Contiguous.empty
  block _ _ _ h := by cases h
  announced _ _ _ h := absurd h getElem?_empty_ne
  user _ _ _ h := absurd h getElem?_empty_ne

/-- A poll that commits a block commits one with the elected header, which
has the next index. -/
theorem commit (hw : Agree w) {b : L.Blk} (hp : poll n t (w.server i) = .newBlockCommit b) :
    (w.node i).inRound = true ∧ (w.node i).boxes.elected n = some b.header ∧
      L.blockIndex b.header = (w.chain i).height + 1 ∧ ∃ e ∈ w.built, e.2 = b := by
  obtain ⟨hs, -, hf⟩ := poll_newBlockCommit hp
  obtain ⟨he, -, p, hv⟩ := (hw.offers.elect i).findCommitBlock hf
  have hi : (w.node i).inRound = true := (NodeManager.inRound_iff i).mpr (by rw [hs]; decide)
  have hb := (hw.rounds.about hi).blockIndex_elected he
  rw [NodeManager.node_height] at hb
  exact ⟨hi, he, hb, (hw.offers.filled i).verified p b hv⟩

/-- A poll with silent calls in a round, which goes on: what the calls record
is sent. -/
theorem steps_sends (cs : List (Call L)) (hstep : (w.server i).currentStep ≠ .waiting)
    (hnext : (poll n t (w.server i)).nextStep (w.server i).currentStep ≠ .waiting)
    (hchain : ∀ b, poll n t (w.server i) ≠ .newBlockCommit b)
    (hsilent : ∀ k, ∀ c ∈ w.callsAt i t k, c.Silent)
    (hcs : ∀ c ∈ cs, c.Fits n ((w.chain i).height + 1))
    (hrec : ∀ k, run (Boxes.record n) (w.server k).boxes (w.callsAt i t k) =
      run (Boxes.record n) (w.server k).boxes cs) :
    Relation.ReflTransGen (Rounds.Step (Boxes.ballot L n)) w.node (w.main (i, t)).node := by
  have hi : (w.node i).inRound = true := (NodeManager.inRound_iff i).mpr hstep
  have hn : (w.main (i, t)).node = fun k =>
      { w.node k with boxes := run (Boxes.record n) (w.node k).boxes cs } := by
    funext k
    rw [NodeManager.main_node_of_silent hchain (hsilent k), hrec k]
    refine Rounds.Node.ext ?_ rfl rfl rfl
    by_cases hk : k = i
    · subst hk
      simp only [if_pos, hi]
      exact decide_eq_true hnext
    · simp only [if_neg hk]
      rfl
  rw [hn]
  refine Rounds.Step.sends (S := Boxes.ballot L n) hi fun c hc => ?_
  rw [NodeManager.node_height]
  exact hcs c hc

/-- Such a poll that makes one call at every node, and before it one at its own
that leaves the boxes as they are. -/
theorem steps_send (hstep : (w.server i).currentStep ≠ .waiting)
    (hnext : (poll n t (w.server i)).nextStep (w.server i).currentStep ≠ .waiting)
    (hchain : ∀ b, poll n t (w.server i) ≠ .newBlockCommit b) {c x : Call L} (hc : c.Silent)
    (hx : x.Silent)
    (hcall : ∀ k, w.callsAt i t k = (if k = i then [x] else []) ++ [c])
    (hrec : ∀ b : Boxes L, b.record n x = b) (hfits : c.Fits n ((w.chain i).height + 1)) :
    Relation.ReflTransGen (Rounds.Step (Boxes.ballot L n)) w.node (w.main (i, t)).node := by
  refine steps_sends [c] hstep hnext hchain (fun k => ?_) (by simpa using hfits) fun k => ?_
  · rw [hcall]
    split <;> simp [hc, hx]
  · rw [hcall]
    split
    · rw [List.singleton_append, run_cons, hrec]
    · rfl

/-- A node that waits announces its next index. -/
theorem step_newRoundReady (hp : poll n t (w.server i) = .newRoundReady) :
    Rounds.Step (Boxes.ballot L n) w.node (w.main (i, t)).node := by
  have hi := (NodeManager.inRound_eq_false_iff i).mpr (poll_newRoundReady hp).1
  have hc : ∀ k, w.callsAt i t k = [.newRound (peerId i) ((w.chain i).height + 1)] := fun k => by
    unfold NodeManager.callsAt
    rw [hp]
  have hn : (w.main (i, t)).node = fun k => (w.node k).hear i ((w.node i).height + 1) := by
    funext k
    rw [NodeManager.main_node, NodeManager.main_chain_of_ne (by simp [hp]), hc]
    refine Rounds.Node.ext ?_ ?_ (Boxes.record_newRound _ _ _) rfl
    · by_cases hk : k = i
      · subst hk
        simp only [if_pos, hp]
        rfl
      · simp only [if_neg hk]
        rfl
    · funext j
      refine (getElem?_newRound (w.server k) (peerId i) (peerId j) _).trans ?_
      rw [← NodeManager.node_height]
      by_cases hj : j = i
      · subst hj
        rw [if_pos rfl, Rounds.Node.hear_self]
        rfl
      · rw [if_neg, Rounds.Node.hear_of_ne hj]
        · rfl
        · intro h
          exact hj (Fin.ext (by simpa [peerId] using h.symm))
  rw [hn]
  exact .announce i hi

/-- A node starts a round that all announced, its boxes empty. -/
theorem step_newRoundStart (hw : Agree w) (hf : NodeManager.FreshStart w (i, t)) {r : Nat}
    (hp : poll n t (w.server i) = .newRoundStart r) :
    Rounds.Step (Boxes.ballot L n) w.node (w.main (i, t)).node := by
  obtain ⟨hwait, -, -, hr⟩ := poll_newRoundStart hp
  have hi := (NodeManager.inRound_eq_false_iff i).mpr hwait
  have hb : (w.node i).boxes = {} := by
    refine BcpServer.boxesEmpty_iff.mp (hf hwait ?_)
    rw [NodeManager.main_currentStep, if_pos rfl, hp]
    rfl
  have hc : ∀ k, (∀ c ∈ w.callsAt i t k, c.Silent) ∧
      run (Boxes.record n) (w.server k).boxes (w.callsAt i t k) = (w.server k).boxes := by
    intro k
    unfold NodeManager.callsAt
    rw [hp]
    dsimp only
    by_cases hk : k = i
    · rw [if_pos hk]
      split
      · exact ⟨by simp, rfl⟩
      · refine ⟨by simp [Call.Silent], ?_⟩
        rw [← Call.boxes_run, run_cons, run_cons, run_nil]
        simp only [Call.perform]
        rcases ((w.server k).setCandidateBlock _).userHeader_cases _ _ with h | ⟨-, h⟩ <;> rw [h] <;> rfl
    · rw [if_neg hk]
      exact ⟨by simp, rfl⟩
  have hn : (w.main (i, t)).node = Function.update w.node i { w.node i with inRound := true } := by
    funext k
    rw [NodeManager.main_node_of_silent (by simp [hp]) (hc k).1, (hc k).2]
    by_cases hk : k = i
    · subst hk
      rw [Function.update_self]
      refine Rounds.Node.ext ?_ rfl rfl rfl
      simp only [if_pos, hp]
      rfl
    · rw [Function.update_of_ne hk]
      refine Rounds.Node.ext ?_ rfl rfl rfl
      simp only [if_neg hk]
      rfl
  rw [hn]
  exact .start i r hi (newRoundStartFor_all (hw.offers.elect i).tally (hw.announced i) hr) hb

/-- A node leaves its round, with a block or with none. -/
theorem step_leave (hw : Agree w)
    (hp : poll n t (w.server i) = .consensusFail ∨ ∃ b, poll n t (w.server i) = .newBlockCommit b) :
    Rounds.Step (Boxes.ballot L n) w.node (w.main (i, t)).node := by
  have hc : ∀ k, w.callsAt i t k = if k = i then [.clear] else [] := fun k => by
    unfold NodeManager.callsAt
    rcases hp with hp | ⟨b, hp⟩ <;> rw [hp]
  have hnext : (poll n t (w.server i)).nextStep (w.server i).currentStep = .waiting := by
    rcases hp with hp | ⟨b, hp⟩ <;> rw [hp] <;> rfl
  have hchain : ∀ k, k ≠ i → (w.main (i, t)).chain k = w.chain k := fun k hk => by
    rw [NodeManager.main_chain]
    split
    · rw [if_neg hk]
    · rfl
  -- The chain is as it was, or has one more block, with the elected header.
  have hd : ∃ d : Option L.Header, ((w.main (i, t)).chain i).headers = (w.chain i).headers ++ d.toList ∧
      ∀ h, d = some h → (w.node i).inRound = true ∧ (w.node i).boxes.elected n = some h := by
    rcases hp with hp | ⟨b, hp⟩
    · refine ⟨none, ?_, by simp⟩
      rw [NodeManager.main_chain_of_ne (by simp [hp])]
      exact (List.append_nil _).symm
    · obtain ⟨hi, he, hb, -⟩ := hw.commit hp
      have hm : (w.main (i, t)).chain i = (w.chain i).append b := by
        rw [NodeManager.main_chain, hp]
        exact if_pos rfl
      rw [hm]
      rcases BlockChain.headers_append (hw.contiguous i) hb with h | ⟨-, h⟩
      · refine ⟨none, ?_, by simp⟩
        rw [h]
        exact (List.append_nil _).symm
      · refine ⟨some b.header, h, fun h' e => ?_⟩
        rw [← Option.some.inj e]
        exact ⟨hi, he⟩
  obtain ⟨d, hd, hde⟩ := hd
  have hn : (w.main (i, t)).node = Function.update w.node i ((w.node i).leave (Boxes.ballot L n) d) := by
    funext k
    rw [NodeManager.main_node, hc]
    by_cases hk : k = i
    · subst hk
      rw [Function.update_self]
      refine Rounds.Node.ext ?_ ?_ ?_ hd
      · simp only [if_pos, hnext]
        rfl
      · simp only [if_pos]
        rfl
      · simp only [if_pos]
        rfl
    · rw [Function.update_of_ne hk, hchain k hk]
      refine Rounds.Node.ext ?_ ?_ ?_ rfl
      · simp only [if_neg hk]
        rfl
      · simp only [if_neg hk]
        rfl
      · simp only [if_neg hk]
        rfl
  rw [hn]
  exact .leave i d hde

/-- A poll without calls that leaves every chain as it is, and no node's round. -/
theorem steps_none (hstep : (w.server i).currentStep ≠ .waiting)
    (hnext : (poll n t (w.server i)).nextStep (w.server i).currentStep ≠ .waiting)
    (hchain : ∀ b, poll n t (w.server i) ≠ .newBlockCommit b) (hc : ∀ k, w.callsAt i t k = []) :
    Relation.ReflTransGen (Rounds.Step (Boxes.ballot L n)) w.node (w.main (i, t)).node :=
  steps_sends [] hstep hnext hchain (by simp [hc]) (by simp) fun k => by rw [hc]

/-- A poll that does nothing. -/
theorem node_idle (hp : poll n t (w.server i) = .idle) : (w.main (i, t)).node = w.node := by
  have hc : ∀ k, w.callsAt i t k = [] := fun k => by
    unfold NodeManager.callsAt
    rw [hp]
  funext k
  rw [NodeManager.main_node_of_silent (by simp [hp]) (by simp [hc]), hc]
  refine Rounds.Node.ext ?_ rfl rfl rfl
  by_cases hk : k = i
  · subst hk
    simp only [if_pos, hp]
    rfl
  · simp only [if_neg hk]
    rfl

/-- A node proposes the lowest user header it has, which is for the round it is in. -/
theorem steps_proposeStart (hw : Agree w) (hp : poll n t (w.server i) = .proposeStart) :
    Relation.ReflTransGen (Rounds.Step (Boxes.ballot L n)) w.node (w.main (i, t)).node := by
  have hs : (w.server i).currentStep ≠ .waiting := by simp [(poll_proposeStart hp).1]
  have hnext : (poll n t (w.server i)).nextStep (w.server i).currentStep ≠ .waiting := by
    simp [hp, Action.nextStep]
  cases hu : (w.server i).selectUserBlockHeader with
  | none =>
    refine steps_none hs hnext (by simp [hp]) fun k => ?_
    unfold NodeManager.callsAt
    rw [hp, hu]
  | some e =>
    have hc : ∀ k, w.callsAt i t k =
        (if k = i then [.candidate { (w.server i).candidateBlock with header := e.2 }] else []) ++
          [.propose (peerId i) e.2] := fun k => by
      unfold NodeManager.callsAt
      rw [hp, hu]
    have hidx : L.blockIndex e.2 = (w.chain i).height + 1 :=
      hw.user i e.1 e.2 (mem_toList.mp (selectLowest_mem hu))
    exact steps_send hs hnext (by simp [hp]) (by trivial) (by trivial) hc (fun _ => rfl)
      ⟨NodeManager.peerId_mem i, hidx⟩

/-- A node votes for the lowest header proposed to it. -/
theorem steps_voteStart (hw : Agree w) (hp : poll n t (w.server i) = .voteStart) :
    Relation.ReflTransGen (Rounds.Step (Boxes.ballot L n)) w.node (w.main (i, t)).node := by
  have hs : (w.server i).currentStep ≠ .waiting := by simp [(poll_voteStart hp).1]
  have hnext : (poll n t (w.server i)).nextStep (w.server i).currentStep ≠ .waiting := by
    simp [hp, Action.nextStep]
  cases hv : (w.server i).selectProposedBlockHeader with
  | none =>
    refine steps_none hs hnext (by simp [hp]) fun k => ?_
    unfold NodeManager.callsAt
    rw [hp, hv]
  | some h =>
    have hc : ∀ k, w.callsAt i t k =
        (if k = i then [.myVote h] else []) ++ [.vote (peerId i) h] := fun k => by
      unfold NodeManager.callsAt
      rw [hp, hv]
    obtain ⟨e, he, rfl⟩ := Option.map_eq_some_iff.mp hv
    have hidx : L.blockIndex e.2 = (w.chain i).height + 1 := by
      rw [← NodeManager.node_height]
      exact (hw.rounds.about ((NodeManager.inRound_iff i).mpr hs)).proposed e.1 e.2
        (mem_toList.mp (selectLowest_mem he))
    exact steps_send hs hnext (by simp [hp]) (by trivial) (by trivial) hc (fun _ => rfl)
      ⟨NodeManager.peerId_mem i, hidx⟩

/-- A node has its candidate committed if that is elected. -/
theorem steps_commitStart {e : L.Header} (hp : poll n t (w.server i) = .commitStart e) :
    Relation.ReflTransGen (Rounds.Step (Boxes.ballot L n)) w.node (w.main (i, t)).node := by
  obtain ⟨cs, hc, hcs⟩ : ∃ cs : List (Call L), (∀ k, w.callsAt i t k = cs) ∧
      ∀ c ∈ cs, ∃ j : Fin n, c = .commit (peerId j) (w.server i).candidateBlock := by
    unfold NodeManager.callsAt
    rw [hp]
    refine ⟨if e = (w.server i).candidateBlock.header then
      (w.committers (w.server i).candidateBlock).map fun j => .commit (peerId j)
        (w.server i).candidateBlock else [], fun _ => rfl, fun c hc => ?_⟩
    split at hc
    · obtain ⟨j, -, rfl⟩ := List.mem_map.mp hc
      exact ⟨j, rfl⟩
    · cases hc
  refine steps_sends cs (by simp [(poll_commitStart hp).1]) (by simp [hp, Action.nextStep]) (by simp [hp])
    (fun k c h => ?_) (fun c h => ?_) fun k => by rw [hc]
  · rw [hc] at h
    obtain ⟨j, rfl⟩ := hcs c h
    trivial
  · obtain ⟨j, rfl⟩ := hcs c h
    exact NodeManager.peerId_mem j

/-- A poll that starts no round with filled boxes is a sequence of steps of rounds. -/
theorem steps (hw : Agree w) (hf : NodeManager.FreshStart w (i, t)) :
    Relation.ReflTransGen (Rounds.Step (Boxes.ballot L n)) w.node (w.main (i, t)).node := by
  cases hp : poll n t (w.server i) with
  | idle => rw [node_idle hp]
  | newRoundReady => exact .single (step_newRoundReady hp)
  | newRoundStart r => exact .single (hw.step_newRoundStart hf hp)
  | proposeStart => exact hw.steps_proposeStart hp
  | voteStart => exact hw.steps_voteStart hp
  | commitStart e => exact steps_commitStart hp
  | newBlockCommit b => exact .single (hw.step_leave (.inr ⟨b, hp⟩))
  | consensusFail => exact .single (hw.step_leave (.inl hp))

theorem main_contiguous (hw : Agree w) (k : Fin n) : Contiguous ((w.main (i, t)).chain k).mapBlocks := by
  rw [NodeManager.main_chain]
  split
  · rename_i b hp
    by_cases hk : k = i
    · subst hk
      rw [if_pos rfl]
      rcases BlockChain.headers_append (hw.contiguous k) (hw.commit hp).2.2.1 with h | ⟨h, -⟩
      · rw [h]
        exact hw.contiguous k
      · exact h
    · rw [if_neg hk]
      exact hw.contiguous k
  · exact hw.contiguous k

theorem main_block (hw : Agree w) (k : Fin n) (r : Nat) (b : L.Blk)
    (h : ((w.main (i, t)).chain k).getBlock r = some b) : ∃ e ∈ (w.main (i, t)).built, e.2 = b := by
  suffices hs : ∃ e ∈ w.built, e.2 = b by
    obtain ⟨e, he, hb⟩ := hs
    rw [(w.main_built_sent i t).1]
    exact ⟨e, List.mem_append_left _ he, hb⟩
  rw [NodeManager.main_chain] at h
  split at h
  · rename_i b' hp
    split at h
    · rcases (w.chain k).append_cases b' with ha | ha
      · rw [ha] at h
        exact hw.block k r b h
      · rw [BlockChain.getBlock_appendBlock ha] at h
        split at h
        · rw [← Option.some.inj h]
          exact (hw.commit hp).2.2.2
        · exact hw.block k r b h
    · exact hw.block k r b h
  · exact hw.block k r b h

theorem main_announced (hw : Agree w) (k : Fin n) (p : Int) (r : Nat)
    (h : ((w.main (i, t)).server k).newRoundMessages[p]? = some r) : p ∈ Finset.Ico (0 : Int) n := by
  obtain ⟨tc, hs⟩ := w.main_server i t k
  rw [hs] at h
  refine run_inv (I := fun s : BcpServer L => ∀ (p : Int) r, s.newRoundMessages[p]? = some r →
    p ∈ Finset.Ico (0 : Int) n) (P := fun _ c => c.Registered n) (fun s c hs hc => ?_) (hw.announced k)
    (along_of_forall (w.callsAt_registered i t k)) p r h
  intro p r h
  cases c with
  | newRound q r' =>
    rw [show (Call.newRound q r').perform n s = (s.appendNewRoundMessageFor q r').getD s from rfl,
      getElem?_newRound] at h
    split at h
    · rename_i hq
      exact hq ▸ Finset.mem_Ico.mpr hc
    · exact hs p r h
  | clear => exact absurd h getElem?_empty_ne
  | userHeader | propose | vote | commit | candidate | myVote =>
    rw [Call.Silent.perform (by trivial)] at h
    exact hs p r h

/-- A node starts a round for the index after its height. -/
theorem newRoundStart_index (hw : Agree w) {r : Nat} (hp : poll n t (w.server i) = .newRoundStart r) :
    r = (w.chain i).height + 1 := by
  rw [← NodeManager.node_height]
  have hr := (poll_newRoundStart hp).2.2.2
  exact hw.rounds.own (newRoundStartFor_all (hw.offers.elect i).tally (hw.announced i) hr i)

theorem callsAt_user (hL : L.Sound) (hw : Agree w) (k : Fin n) :
    ∀ c ∈ w.callsAt i t k, ∀ a h, c = .userHeader a h → L.blockIndex h = (w.chain k).height + 1 := by
  rintro _ hc a h rfl
  cases NodeManager.callAt_of_mem hc with
  | userHeader b hp hk =>
    subst hk
    unfold NodeManager.callsAt at hc
    rw [hp] at hc
    dsimp only at hc
    rw [if_pos rfl] at hc
    split at hc
    · cases hc
    · rename_i b' hb
      have hh : b.header = (L.sign (w.nodeServers k).nodeAccount b').header := by simpa using hc
      rw [hh, ← hw.newRoundStart_index hp]
      exact hL.blockIndex_built (NodeServer.createBlockFor_built hb)

theorem main_user (hL : L.Sound) (hw : Agree w) (k : Fin n) (a : L.Address) (h : L.Header)
    (hh : ((w.main (i, t)).server k).userBlockHeaders[a]? = some h) :
    L.blockIndex h = ((w.main (i, t)).chain k).height + 1 := by
  obtain ⟨tc, hs⟩ := w.main_server i t k
  rw [hs] at hh
  have hu := run_perform_user (hw.user k) (hw.callsAt_user hL k) a h hh
  rw [NodeManager.main_chain]
  split
  · rename_i b hp
    split
    · -- The node has left its round, and has no user headers.
      rename_i hk
      have hc : w.callsAt i t k = [.clear] := by
        unfold NodeManager.callsAt
        rw [hp]
        exact if_pos hk
      rw [hc] at hh
      exact absurd hh getElem?_empty_ne
    · exact hu
  · exact hu

theorem main (hL : L.Sound) (hw : Agree w) (hf : NodeManager.FreshStart w (i, t)) :
    Agree (w.main (i, t)) :=
  ⟨hw.offers.main i t hL, hw.rounds.steps (hw.steps hf), hw.main_contiguous, hw.main_block,
    hw.main_announced, hw.main_user hL⟩

end Agree

/-- In a run in which every round starts with empty boxes, no two nodes append
different blocks at one index. -/
theorem agreement_of_freshStart (hL : L.Sound) (accounts : Fin n → L.Account) {es : List (Fin n × Nat)}
    (h : Along NodeManager.main NodeManager.FreshStart (.start accounts) es) {j k : Fin n} {r : Nat}
    {b b' : L.Blk} (hb : ((run NodeManager.main (.start accounts) es).chain j).getBlock r = some b)
    (hb' : ((run NodeManager.main (.start accounts) es).chain k).getBlock r = some b') : b = b' := by
  have hw : Agree (run NodeManager.main (.start accounts) es) :=
    run_inv (fun _ _ hw hf => hw.main hL hf) (Agree.start accounts) h
  -- The headers agree, and a built block is the only one with its header.
  have hh : b.header = b'.header :=
    hw.rounds.agree (BlockChain.getElem?_headers (hw.contiguous j) hb)
      (BlockChain.getElem?_headers (hw.contiguous k) hb')
  obtain ⟨e, he, rfl⟩ := hw.block j r b hb
  obtain ⟨e', he', rfl⟩ := hw.block k r b' hb'
  obtain ⟨st, hst⟩ := List.getElem?_of_mem he
  obtain ⟨st', hst'⟩ := List.getElem?_of_mem he'
  obtain ⟨_, _, -, hbuilt⟩ := hw.offers.built st e hst
  obtain ⟨_, _, -, hbuilt'⟩ := hw.offers.built st' e' hst'
  obtain rfl := hL.distinct hbuilt hbuilt' hh
  rw [Option.some.inj (hst.symm.trans hst')]

/-- Two rounds of two nodes, in step: both append the block of node 0, and then
that of the second round. -/
theorem agreement_of_freshStart_sample :
    let round (t : Nat) : List (Fin 2 × Nat) := [(0, t), (1, t), (0, t), (1, t), (0, t + 6), (1, t + 6),
      (0, t + 11), (1, t + 11), (0, t + 11), (1, t + 11), (0, t + 11), (1, t + 11)]
    let w : NodeManager Core.sample 2 :=
      run NodeManager.main (.start fun i => (i.val : Nat)) (round 20 ++ round 40)
    (w.chain 0).height = 2 ∧ ∀ r b b', (w.chain 0).getBlock r = some b → (w.chain 1).getBlock r = some b' →
      b = b' :=
  ⟨by decide +kernel, fun _ _ _ => agreement_of_freshStart Core.sample_sound _ (by decide +kernel)⟩

/-- Nodes 0 and 1 of three vote for one block while node 2 waits, and their
commit times out; in the next round the two decide another block. Node 2
starts late, with the votes of the first round in its boxes, and decides that. -/
theorem agreement_stale_start :
    let es : List (Fin 3 × Nat) := [(0, 20), (1, 20), (2, 20), (0, 20), (1, 20), (0, 26), (1, 26), (0, 31),
      (1, 31), (0, 31), (1, 36), (0, 40), (0, 40), (1, 40), (2, 40), (0, 40), (1, 40), (0, 46), (1, 46),
      (0, 51), (1, 51), (0, 51), (0, 51), (2, 60), (2, 60), (2, 66), (2, 71), (2, 71), (2, 71)]
    let w : NodeManager Core.sample 3 := run NodeManager.main (.start fun i => (i.val : Nat)) es
    let b (stamp : Nat) : Core.sample.Blk :=
      ⟨(⟨1, 0, stamp⟩ : SampleHeader), [(⟨0, 0, 100, true⟩ : SampleTransaction)]⟩
    (es.map (·.2)).Pairwise (· ≤ ·) ∧ (w.chain 0).getBlock 1 = some (b 2) ∧
      (w.chain 2).getBlock 1 = some (b 0) ∧ b 2 ≠ b 0 := by
  decide +kernel

end Bryllite.NodeServerMono
