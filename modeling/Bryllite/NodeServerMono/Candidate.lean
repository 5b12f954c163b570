import Bryllite.NodeServerMono.Delivery
import Bryllite.NodeServerMono.Election

/-!
# What a node offers is its own

Headers travel from the node that built the block into the boxes of all
(`Filled`), and the candidate of a node is a block it built, or the block a
server starts with, which no vote elects. In a round, the user header that the
proposal is taken from is the candidate's own (`Offers`), so the header put
into the candidate at the propose step is the one it has.
-/

namespace Bryllite.NodeServerMono

open Bryllite.Framework
open BcpServer (selectLowest_mem)
open NodeManager (peerId)

variable {L : Core} {n : Nat}

/-! ## Headers of built blocks -/

/-- `h` is the header of one of the blocks in `built`. -/
def Made (built : List (Fin n × L.Blk)) (h : L.Header) : Prop := ∃ e ∈ built, e.2.header = h

/-- The boxes of a server hold headers of built blocks, and built blocks. -/
structure Filled (built : List (Fin n × L.Blk)) (s : BcpServer L) : Prop where
  proposed (p : Int) (h : L.Header) : s.proposedBlockHeaders[p]? = some h → Made built h
  vote (p : Int) (h : L.Header) : s.voteBox[p]? = some h → Made built h
  voteHeader (x : L.Hash) (h : L.Header) : s.voteHeaders[x]? = some h → Made built h
  verified (p : Int) (b : L.Blk) : s.verifiedBlocks[p]? = some b → ∃ e ∈ built, e.2 = b

/-- A call that records built blocks and their headers. -/
def Call.Made (built : List (Fin n × L.Blk)) : Call L → Prop
  | .propose _ h | .vote _ h => NodeServerMono.Made built h
  | .commit _ b => ∃ e ∈ built, e.2 = b
  | _ => True

namespace Filled

variable {built : List (Fin n × L.Blk)} {s : BcpServer L}

theorem of_eq {s' : BcpServer L} (hs : Filled built s) (h1 : s'.proposedBlockHeaders = s.proposedBlockHeaders)
    (h2 : s'.voteBox = s.voteBox) (h3 : s'.voteHeaders = s.voteHeaders)
    (h4 : s'.verifiedBlocks = s.verifiedBlocks) : Filled built s' where
  proposed := by rw [h1]; exact hs.proposed
  vote := by rw [h2]; exact hs.vote
  voteHeader := by rw [h3]; exact hs.voteHeader
  verified := by rw [h4]; exact hs.verified

theorem of_empty (h1 : s.proposedBlockHeaders = ∅) (h2 : s.voteBox = ∅) (h3 : s.voteHeaders = ∅)
    (h4 : s.verifiedBlocks = ∅) : Filled built s where
  proposed _ _ h := absurd (h1 ▸ h) getElem?_empty_ne
  vote _ _ h := absurd (h2 ▸ h) getElem?_empty_ne
  voteHeader _ _ h := absurd (h3 ▸ h) getElem?_empty_ne
  verified _ _ h := absurd (h4 ▸ h) getElem?_empty_ne

/-- More blocks are built. -/
theorem append (hs : Filled built s) (more : List (Fin n × L.Blk)) : Filled (built ++ more) s where
  proposed p h hp := (hs.proposed p h hp).imp fun _ he => ⟨List.mem_append_left _ he.1, he.2⟩
  vote p h hp := (hs.vote p h hp).imp fun _ he => ⟨List.mem_append_left _ he.1, he.2⟩
  voteHeader x h hx := (hs.voteHeader x h hx).imp fun _ he => ⟨List.mem_append_left _ he.1, he.2⟩
  verified p b hp := (hs.verified p b hp).imp fun _ he => ⟨List.mem_append_left _ he.1, he.2⟩

theorem perform (hs : Filled built s) {c : Call L} (hc : c.Made built) : Filled built (c.perform n s) := by
  cases c with
  | newRound p r =>
    simp only [Call.perform]
    rcases s.newRound_cases p r with h | ⟨-, h⟩ <;> rw [h]
    · exact hs
    · exact hs.of_eq rfl rfl rfl rfl
  | userHeader a h =>
    simp only [Call.perform]
    rcases s.userHeader_cases a h with h | ⟨-, h⟩ <;> rw [h]
    · exact hs
    · exact hs.of_eq rfl rfl rfl rfl
  | propose p h' =>
    simp only [Call.perform]
    rcases s.propose_cases p h' with h | ⟨-, h⟩ <;> rw [h]
    · exact hs
    · exact ⟨forall_insert hc hs.proposed, hs.vote, hs.voteHeader, hs.verified⟩
  | vote p h' =>
    simp only [Call.perform]
    rcases s.vote_cases p h' with h | ⟨-, h⟩ <;> rw [h]
    · exact hs
    · refine ⟨hs.proposed, forall_insert hc hs.vote, fun x v => ?_, hs.verified⟩
      show (if _ then _ else _)[x]? = some v → _
      split
      · exact hs.voteHeader x v
      · exact forall_insert (P := NodeServerMono.Made built) hc hs.voteHeader x v
  | commit p b =>
    simp only [Call.perform]
    rcases s.verified_cases n p b with h | ⟨-, -, h⟩ <;> rw [h]
    · exact hs
    · exact ⟨hs.proposed, hs.vote, hs.voteHeader, forall_insert hc hs.verified⟩
  | clear => exact of_empty rfl rfl rfl rfl
  | candidate b => exact hs.of_eq rfl rfl rfl rfl
  | myVote h => exact hs.of_eq rfl rfl rfl rfl

theorem run_perform (hs : Filled built s) {cs : List (Call L)} (hc : ∀ c ∈ cs, c.Made built) :
    Filled built (run (Call.perform n) s cs) :=
  run_inv (fun _ _ hs hc => hs.perform hc) hs (along_of_forall hc)

end Filled

/-- Calls that leave candidate and user headers as they are. -/
def Call.Keeps : Call L → Prop
  | .candidate _ | .userHeader _ _ | .clear => False
  | _ => True

theorem Call.Keeps.perform {c : Call L} (hc : c.Keeps) (s : BcpServer L) :
    (c.perform n s).candidateBlock = s.candidateBlock ∧
      (c.perform n s).userBlockHeaders = s.userBlockHeaders := by
  cases c with
  | newRound p r =>
    simp only [Call.perform]
    rcases s.newRound_cases p r with h | ⟨-, h⟩ <;> rw [h] <;> exact ⟨rfl, rfl⟩
  | propose p h' =>
    simp only [Call.perform]
    rcases s.propose_cases p h' with h | ⟨-, h⟩ <;> rw [h] <;> exact ⟨rfl, rfl⟩
  | vote p h' =>
    simp only [Call.perform]
    rcases s.vote_cases p h' with h | ⟨-, h⟩ <;> rw [h] <;> exact ⟨rfl, rfl⟩
  | commit p b =>
    simp only [Call.perform]
    rcases s.verified_cases n p b with h | ⟨-, -, h⟩ <;> rw [h] <;> exact ⟨rfl, rfl⟩
  | myVote h => exact ⟨rfl, rfl⟩
  | userHeader a h => exact hc.elim
  | clear => exact hc.elim
  | candidate b => exact hc.elim

theorem Call.Keeps.run_perform {cs : List (Call L)} (hc : ∀ c ∈ cs, c.Keeps) (s : BcpServer L) :
    (run (Call.perform n) s cs).candidateBlock = s.candidateBlock ∧
      (run (Call.perform n) s cs).userBlockHeaders = s.userBlockHeaders := by
  refine run_inv (I := fun s' : BcpServer L => s'.candidateBlock = s.candidateBlock ∧
    s'.userBlockHeaders = s.userBlockHeaders) (P := fun _ c => c.Keeps) (fun s' c hs hc => ?_) ⟨rfl, rfl⟩
    (along_of_forall hc)
  obtain ⟨h1, h2⟩ := hc.perform (n := n) s'
  exact ⟨h1.trans hs.1, h2.trans hs.2⟩

/-- Actions whose calls all do so. -/
def Action.KeepsCandidate : Action L → Prop
  | .idle | .newRoundReady | .voteStart | .commitStart _ => True
  | .newRoundStart _ | .proposeStart | .newBlockCommit _ | .consensusFail => False

/-- The candidate of node `k` is a block it built, once it built one, and its
user headers, of which it has none while it waits, are the candidate's. -/
structure Own (built : List (Fin n × L.Blk)) (k : Fin n) (s : BcpServer L) : Prop where
  candidate : s.candidateBlock = L.defaultBlock ∨ (k, s.candidateBlock) ∈ built
  waiting : s.currentStep = .waiting → s.userBlockHeaders = ∅
  user (a : L.Address) (h : L.Header) : s.userBlockHeaders[a]? = some h →
    h = s.candidateBlock.header ∧ (k, s.candidateBlock) ∈ built

theorem Own.keeps {built : List (Fin n × L.Blk)} {k : Fin n} {s : BcpServer L} (hs : Own built k s)
    (cs : List (Call L)) (hc : ∀ c ∈ cs, c.Keeps) (more : List (Fin n × L.Blk)) (tc : Nat) {st : BcpStep}
    (hst : st = .waiting → s.currentStep = .waiting) :
    Own (built ++ more) k ((run (Call.perform n) s cs).setClock tc st) := by
  obtain ⟨h1, h2⟩ := Call.Keeps.run_perform (n := n) hc s
  have hu : ((run (Call.perform n) s cs).setClock tc st).userBlockHeaders = s.userBlockHeaders := h2
  have hb : ((run (Call.perform n) s cs).setClock tc st).candidateBlock = s.candidateBlock := h1
  refine ⟨?_, fun h => ?_, fun a h ha => ?_⟩
  · rw [hb]
    exact hs.candidate.imp_right (List.mem_append_left _)
  · rw [hu]; exact hs.waiting (hst h)
  · rw [hu] at ha
    rw [hb]
    exact ⟨(hs.user a h ha).1, List.mem_append_left _ (hs.user a h ha).2⟩

/-- A node that starts a round takes the block it builds as its candidate, and
its header as the one user header. -/
theorem Own.newRoundStart {built : List (Fin n × L.Blk)} {k : Fin n} {s : BcpServer L} (hs : Own built k s)
    (hw : s.currentStep = .waiting) (a : L.Address) (b : L.Blk) (tc : Nat) :
    Own (built ++ [(k, b)]) k ((run (Call.perform n) s [.candidate b, .userHeader a b.header]).setClock tc
      .proofOfParticipation) := by
  have hm : (k, b) ∈ built ++ [(k, b)] := List.mem_append_right _ List.mem_cons_self
  have h0 : ∀ (a : L.Address) h, s.userBlockHeaders[a]? = some h → h = b.header := fun a h ha =>
    absurd (hs.waiting hw ▸ ha) getElem?_empty_ne
  simp only [run_cons, run_nil, Call.perform]
  have hp : BcpStep.proofOfParticipation ≠ .waiting := by decide
  rcases (s.setCandidateBlock b).userHeader_cases a b.header with h | ⟨-, h⟩ <;> rw [h]
  · exact ⟨.inr hm, fun h => absurd h hp, fun a h ha => ⟨h0 a h ha, hm⟩⟩
  · exact ⟨.inr hm, fun h => absurd h hp, fun a h ha =>
      ⟨forall_insert (P := fun h => h = b.header) rfl h0 a h ha, hm⟩⟩

/-- A node that leaves a round has no user headers. -/
theorem Own.clear {built : List (Fin n × L.Blk)} {k : Fin n} {s : BcpServer L} (hs : Own built k s) (tc : Nat)
    (st : BcpStep) : Own built k ((run (Call.perform n) s [.clear]).setClock tc st) :=
  ⟨hs.candidate, fun _ => rfl, fun _ _ h => absurd h getElem?_empty_ne⟩

/-- What node `i` sends as a proposal, or to be verified, is its own: the header
of a block it built, or such a block. -/
def Offered (built : List (Fin n × L.Blk)) (i : Fin n) : NodeMessage L → Prop
  | .propose h => ∃ b, (i, b) ∈ built ∧ b.header = h
  | .verifyBlock b => (i, b) ∈ built
  | _ => True

theorem Offered.append {built : List (Fin n × L.Blk)} {i : Fin n} {m : NodeMessage L}
    (h : Offered built i m) (more : List (Fin n × L.Blk)) : Offered (built ++ more) i m := by
  cases m with
  | propose header => exact h.imp fun _ hb => ⟨List.mem_append_left _ hb.1, hb.2⟩
  | verifyBlock b => exact List.mem_append_left _ h
  | _ => trivial

/-! ## The invariant -/

/-- What the nodes hold of built blocks, over any run. -/
structure Offers (w : NodeManager L n) : Prop where
  /-- Blocks are built for positive indices, each at a stamp of its own. -/
  built (st : Nat) (e : Fin n × L.Blk) : w.built[st]? = some e → ∃ i p, 0 < i ∧ L.Built st i p e.2
  elect (k : Fin n) : Elect n (w.server k)
  filled (k : Fin n) : Filled w.built (w.server k)
  own (k : Fin n) : Own w.built k (w.server k)
  sent (i : Fin n) (m : NodeMessage L) : (i, m) ∈ w.sent → Offered w.built i m

namespace Offers

variable {w : NodeManager L n}

theorem start (accounts : Fin n → L.Account) : Offers (NodeManager.start accounts : NodeManager L n) where
  built _ _ h := by simp [NodeManager.start] at h
  elect _ := Elect.init
  filled _ := Filled.of_empty rfl rfl rfl rfl
  own _ := ⟨.inl rfl, fun _ => rfl, fun _ _ h => absurd h getElem?_empty_ne⟩
  sent _ _ h := by simp [NodeManager.start] at h

/-- A header of a built block is not that of `block()`. -/
theorem ne_default (hL : L.Sound) (hw : Offers w) {h : L.Header} (hh : Made w.built h) :
    h ≠ L.defaultHeader := by
  obtain ⟨e, he, rfl⟩ := hh
  obtain ⟨st, hst⟩ := List.getElem?_of_mem he
  obtain ⟨i, p, hi, hb⟩ := hw.built st e hst
  exact hL.ne_default hb hi

/-- A candidate whose header some server elects is a block the node built. -/
theorem candidate_elected (hL : L.Sound) (hw : Offers w) {k k' : Fin n}
    (h : (w.server k').getElectedBlockHeader n = some (w.server k).candidateBlock.header) :
    (k, (w.server k).candidateBlock) ∈ w.built := by
  obtain ⟨x, -, hx⟩ := (elected_iff (hw.elect k').tally (hw.elect k').size_le).mp h
  rcases (hw.own k).candidate with hc | hc
  · refine absurd ?_ (hw.ne_default hL ((hw.filled k').voteHeader x _ hx))
    rw [hc]; rfl
  · exact hc

theorem selectUser (hw : Offers w) {i : Fin n} {e : L.Address × L.Header}
    (h : (w.server i).selectUserBlockHeader = some e) :
    e.2 = (w.server i).candidateBlock.header ∧ (i, (w.server i).candidateBlock) ∈ w.built :=
  (hw.own i).user e.1 e.2 (mem_toList.mp (selectLowest_mem h))

theorem selectProposed (hw : Offers w) {i : Fin n} {h : L.Header}
    (hh : (w.server i).selectProposedBlockHeader = some h) : Made w.built h := by
  obtain ⟨e, he, rfl⟩ := Option.map_eq_some_iff.mp hh
  exact (hw.filled i).proposed e.1 e.2 (mem_toList.mp (selectLowest_mem he))

/-- The calls of a poll record built blocks and their headers. -/
theorem callsAt_made (hL : L.Sound) (hw : Offers w) (i : Fin n) (t : Nat) (k : Fin n) :
    ∀ c ∈ w.callsAt i t k, c.Made w.built := by
  intro c hc
  cases NodeManager.callAt_of_mem hc with
  | propose hp hs =>
    obtain ⟨hh, hb⟩ := hw.selectUser hs
    exact ⟨_, hb, hh.symm⟩
  | vote hp hs => exact hw.selectProposed hs
  | commit j hp => exact ⟨_, hw.candidate_elected hL (poll_commitStart hp).2.2, rfl⟩
  | newRound | candidate | userHeader | setHeader | myVote | clear => trivial

/-- The calls at another node than the polled one leave its candidate and user headers. -/
theorem keeps_of_ne {i k : Fin n} (hk : k ≠ i) (t : Nat) : ∀ c ∈ w.callsAt i t k, c.Keeps := by
  intro c hc
  cases NodeManager.callAt_of_mem hc with
  | candidate _ _ h | userHeader _ _ h | setHeader _ _ h | clear _ h => exact hk h
  | newRound | propose | myVote | vote | commit => trivial

/-- Most polls do so at the polled node too. -/
theorem keeps_of_poll {i : Fin n} {t : Nat} (h : (poll n t (w.server i)).KeepsCandidate) (k : Fin n) :
    ∀ c ∈ w.callsAt i t k, c.Keeps := by
  intro c hc
  cases NodeManager.callAt_of_mem hc with
  | candidate _ hp | userHeader _ hp | setHeader _ hp =>
    rw [hp] at h
    exact h
  | clear hp =>
    rcases hp with hp | ⟨b, hp⟩ <;> rw [hp] at h <;> exact h
  | newRound | propose | myVote | vote | commit => trivial

end Offers

namespace Offers

variable {w : NodeManager L n} (i : Fin n) (t : Nat)

theorem main_built (hw : Offers w) (st : Nat) (e : Fin n × L.Blk) (he : (w.main (i, t)).built[st]? = some e) :
    ∃ i p, 0 < i ∧ L.Built st i p e.2 := by
  rw [(w.main_built_sent i t).1] at he
  by_cases hst : st < w.built.length
  · rw [List.getElem?_append_left hst] at he
    exact hw.built st e he
  · rw [List.getElem?_append_right (Nat.le_of_not_lt hst)] at he
    unfold NodeManager.builtAt at he
    split at he
    · rename_i r hp
      split at he
      · simp at he
      · rename_i b hb
        -- The stamp of the new block is the number of blocks before it.
        obtain ⟨hz, he⟩ := List.getElem?_eq_some_iff.mp he
        have hst : st = w.built.length := by
          simp only [List.length_singleton] at hz
          omega
        subst hst
        simp only [Nat.sub_self, List.getElem_cons_zero] at he
        subst he
        exact ⟨r, _, BcpServer.newRoundStartFor_pos (poll_newRoundStart hp).2.2.2,
          NodeServer.createBlockFor_built hb⟩
    · simp at he

theorem main_elect (hw : Offers w) (k : Fin n) : Elect n ((w.main (i, t)).server k) := by
  obtain ⟨tc, h⟩ := w.main_server i t k
  rw [h]
  exact (run_inv (fun _ _ hs hc => hs.perform hc) (hw.elect k)
    (along_of_forall (w.callsAt_registered i t k))).setClock _ _

theorem main_filled (hL : L.Sound) (hw : Offers w) (k : Fin n) :
    Filled (w.main (i, t)).built ((w.main (i, t)).server k) := by
  obtain ⟨tc, h⟩ := w.main_server i t k
  rw [h, (w.main_built_sent i t).1]
  have hf := ((hw.filled k).run_perform (n := n) (hw.callsAt_made hL i t k)).append (w.builtAt i t)
  exact hf.of_eq rfl rfl rfl rfl

theorem main_own (hw : Offers w) (k : Fin n) :
    Own (w.main (i, t)).built k ((w.main (i, t)).server k) := by
  obtain ⟨tc, h⟩ := w.main_server i t k
  rw [h, (w.main_built_sent i t).1]
  by_cases hk : k = i
  · subst hk
    rw [if_pos rfl]
    have hs := hw.own k
    cases hp : poll n t (w.server k) with
    | idle => exact hs.keeps _ (keeps_of_poll (by rw [hp]; trivial) k) _ tc id
    | newRoundReady => exact hs.keeps _ (keeps_of_poll (by rw [hp]; trivial) k) _ tc id
    | newRoundStart r =>
      unfold NodeManager.callsAt NodeManager.builtAt
      simp only [hp, if_true]
      cases hb : (w.nodeServers k).createBlockFor w.built.length r with
      | none => exact hs.keeps [] (by simp) _ tc (by simp [Action.nextStep])
      | some b => exact hs.newRoundStart (poll_newRoundStart hp).1 _ _ tc
    | proposeStart =>
      unfold NodeManager.callsAt NodeManager.builtAt
      simp only [hp, if_true]
      cases hs' : (w.server k).selectUserBlockHeader with
      | none => exact hs.keeps [] (by simp) _ tc (by simp [Action.nextStep])
      | some e =>
        -- The header put into the candidate is the one it has.
        have he := (hw.selectUser hs').1
        have hc : (Call.candidate { (w.server k).candidateBlock with header := e.2 }).perform n
            (w.server k) = w.server k := by rw [he]; rfl
        simp only [List.singleton_append, run_cons, hc]
        exact hs.keeps [.propose (peerId k) e.2]
          (fun c hc => by rw [List.mem_singleton.mp hc]; trivial) _ tc (by simp [Action.nextStep])
    | voteStart => exact hs.keeps _ (keeps_of_poll (by rw [hp]; trivial) k) _ tc (by simp [Action.nextStep])
    | commitStart e => exact hs.keeps _ (keeps_of_poll (by rw [hp]; trivial) k) _ tc (by simp [Action.nextStep])
    | newBlockCommit b =>
      unfold NodeManager.callsAt NodeManager.builtAt
      simp only [hp, if_true, List.append_nil]
      exact hs.clear tc _
    | consensusFail =>
      unfold NodeManager.callsAt NodeManager.builtAt
      simp only [hp, if_true, List.append_nil]
      exact hs.clear tc _
  · rw [if_neg hk]
    exact (hw.own k).keeps _ (keeps_of_ne hk t) _ tc id

theorem main_sent (hL : L.Sound) (hw : Offers w) (j : Fin n) (m : NodeMessage L)
    (h : (j, m) ∈ (w.main (i, t)).sent) : Offered (w.main (i, t)).built j m := by
  obtain ⟨hb, hs⟩ := w.main_built_sent i t
  rw [hs] at h
  rw [hb]
  rcases List.mem_append.mp h with h | h
  · exact (hw.sent j m h).append _
  refine Offered.append ?_ _
  unfold NodeManager.sentAt at h
  split at h
  · cases List.mem_singleton.mp h
    trivial
  · split at h
    · simp at h
    · rename_i hu
      cases List.mem_singleton.mp h
      obtain ⟨hh, hb⟩ := hw.selectUser hu
      exact ⟨_, hb, hh.symm⟩
  · split at h
    · simp at h
    · cases List.mem_singleton.mp h
      trivial
  · rename_i hp
    dsimp only at h
    split at h
    · rename_i he
      rcases List.mem_cons.mp h with h | h
      · cases h
        exact hw.candidate_elected hL (he ▸ (poll_commitStart hp).2.2)
      · obtain ⟨k, -, h⟩ := List.mem_map.mp h
        cases h
        trivial
    · simp at h
  · simp at h

/-- A poll keeps the invariant. -/
theorem main (hL : L.Sound) (hw : Offers w) : Offers (w.main (i, t)) :=
  ⟨hw.main_built i t, hw.main_elect i t, hw.main_filled i t hL, hw.main_own i t, hw.main_sent i t hL⟩

end Offers

theorem offers_run (hL : L.Sound) (accounts : Fin n → L.Account) (es : List (Fin n × Nat)) :
    Offers (run NodeManager.main (.start accounts) es) :=
  run_inv_of_all (fun _ e hw => hw.main e.1 e.2 hL) (.start accounts)

/-- In every run, each header a node broadcasts as its proposal is that of a
block it built, and each block it broadcasts to be verified is a block it
built: with `create_block_for`, and signed. Its candidate is one of these, or
`block()`, and the header that it would put into the candidate is the one the
candidate has. -/
theorem offers_own (hL : L.Sound) (accounts : Fin n → L.Account) (es : List (Fin n × Nat)) :
    let w := run NodeManager.main (.start accounts) es
    (∀ i h, (i, NodeMessage.propose h) ∈ w.sent → ∃ b, (i, b) ∈ w.built ∧ b.header = h) ∧
      (∀ i b, (i, NodeMessage.verifyBlock b) ∈ w.sent → (i, b) ∈ w.built) ∧
      (∀ e ∈ w.built, ∃ stamp r prev, L.Built stamp r prev e.2) ∧
      ∀ k, ((w.server k).candidateBlock = L.defaultBlock ∨ (k, (w.server k).candidateBlock) ∈ w.built) ∧
        ∀ e, (w.server k).selectUserBlockHeader = some e →
          { (w.server k).candidateBlock with header := e.2 } = (w.server k).candidateBlock ∧
            (k, (w.server k).candidateBlock) ∈ w.built := by
  intro w
  have hw : Offers w := offers_run hL accounts es
  refine ⟨fun i h => hw.sent i (.propose h), fun i b => hw.sent i (.verifyBlock b), fun e he => ?_,
    fun k => ⟨(hw.own k).candidate, fun e he => ?_⟩⟩
  · obtain ⟨st, hst⟩ := List.getElem?_of_mem he
    obtain ⟨r, p, -, hb⟩ := hw.built st e hst
    exact ⟨st, r, p, hb⟩
  · obtain ⟨hh, hb⟩ := hw.selectUser he
    refine ⟨?_, hb⟩
    rw [hh]

/-- Two nodes, each of which builds a block; the block of node 0 is elected. -/
theorem offers_own_sample :
    let es : List (Fin 2 × Nat) := [(0, 20), (1, 20), (0, 20), (1, 20), (0, 26), (1, 26), (0, 31), (1, 31),
      (0, 31)]
    let w : NodeManager Core.sample 2 := run NodeManager.main (.start fun i => (i.val : Nat)) es
    let h (stamp : Nat) : Core.sample.Header := (⟨1, 0, stamp⟩ : SampleHeader)
    let b : Core.sample.Blk := ⟨h 0, [(⟨0, 0, 100, true⟩ : SampleTransaction)]⟩
    (1, NodeMessage.propose (h 1)) ∈ w.sent ∧ (∃ b, ((1 : Fin 2), b) ∈ w.built ∧ b.header = h 1) ∧
      (0, NodeMessage.verifyBlock b) ∈ w.sent ∧ ((0 : Fin 2), b) ∈ w.built := by
  intro es w h b
  have hw := offers_own Core.sample_sound (fun i : Fin 2 => (i.val : Nat)) es
  have h1 : (1, NodeMessage.propose (h 1)) ∈ w.sent := by decide +kernel
  have h2 : (0, NodeMessage.verifyBlock b) ∈ w.sent := by decide +kernel
  exact ⟨h1, hw.1 1 (h 1) h1, h2, hw.2.1 0 b h2⟩

end Bryllite.NodeServerMono
