import Bryllite.BcpMono.Trace
import Bryllite.Framework.Senders

/-!
# Proposals, votes and commits are made once (bcp_mono)

The boxes of a node hold what it heard since it entered waiting
(`Trace.Heard`). A header is proposed once, by the node that built its block
(`Trace.Proposals`), so no node votes for it twice (`Trace.Votes.once`), and
none elects it in two rounds, which would take more votes than there are nodes:
no node commits to a block twice (`Trace.Commits.once`).
-/

namespace Bryllite.BcpMono

open Bryllite.Framework

variable {L : Core} {n : Nat}

namespace NodeMessage

/-! What a box keeps of a message. -/

def newRound? : NodeMessage L → Option Nat
  | .newRound r => some r
  | _ => none

def propose? : NodeMessage L → Option L.Header
  | .propose h => some h
  | _ => none

def vote? : NodeMessage L → Option L.Header
  | .vote h => some h
  | _ => none

def commit? : NodeMessage L → Option L.Blk
  | .commit b => some b
  | _ => none

theorem newRound?_eq_some (m : NodeMessage L) (r : Nat) : m.newRound? = some r ↔ m = .newRound r := by
  cases m <;> simp [newRound?]

theorem vote?_eq_some (m : NodeMessage L) (h : L.Header) : m.vote? = some h ↔ m = .vote h := by
  cases m <;> simp [vote?]

theorem commit?_eq_some (m : NodeMessage L) (b : L.Blk) : m.commit? = some b ↔ m = .commit b := by
  cases m <;> simp [commit?]

end NodeMessage

/-! ## The boxes hold what was heard -/

/-- The boxes of a node that heard `log` since it entered waiting. -/
structure Phase.Boxes (p : Phase L) (log : List (Fin n × NodeMessage L)) : Prop where
  receivedNewRound : p.receivedNewRound = log.filterMap fun e => e.2.newRound?
  proposeHeader : p.proposeHeader = log.filterMap fun e => e.2.propose?
  voteHeader : p.voteHeader = log.filterMap fun e => e.2.vote?
  commit : p.commit = log.filterMap fun e => e.2.commit?

namespace Phase.Boxes

variable {p p' : Phase L} {log : List (Fin n × NodeMessage L)}

theorem of_eq (h : p.Boxes log) (h1 : p'.receivedNewRound = p.receivedNewRound)
    (h2 : p'.proposeHeader = p.proposeHeader) (h3 : p'.voteHeader = p.voteHeader) (h4 : p'.commit = p.commit) :
    p'.Boxes log :=
  ⟨h1.trans h.receivedNewRound, h2.trans h.proposeHeader, h3.trans h.voteHeader, h4.trans h.commit⟩

theorem onMessage (h : p.Boxes log) (i : Fin n) (m : NodeMessage L) : (p.onMessage m).Boxes (log ++ [(i, m)]) := by
  obtain ⟨h1, h2, h3, h4⟩ := h
  constructor <;> rw [List.filterMap_append]
  · rw [← h1]; cases m <;> simp [Phase.onMessage, NodeMessage.newRound?]
  · rw [← h2]; cases m <;> simp [Phase.onMessage, NodeMessage.propose?]
  · rw [← h3]; cases m <;> simp [Phase.onMessage, NodeMessage.vote?]
  · rw [← h4]; cases m <;> simp [Phase.onMessage, NodeMessage.commit?]

theorem onMessages (h : p.Boxes log) (i : Fin n) (ms : List (NodeMessage L)) :
    (ms.foldl (fun p m => p.onMessage m) p).Boxes (log ++ ms.map (i, ·)) := by
  induction ms generalizing p log with
  | nil => rwa [List.map_nil, List.append_nil]
  | cons m ms ih =>
    rw [List.foldl_cons, List.map_cons, ← List.singleton_append, ← List.append_assoc]
    exact ih (h.onMessage i m)

theorem mem_proposeHeader (h : p.Boxes log) {hd : L.Header} (hm : hd ∈ p.proposeHeader) :
    ∃ j, (j, .propose hd) ∈ log := by
  rw [h.proposeHeader] at hm
  obtain ⟨⟨j, m⟩, he, hm⟩ := List.mem_filterMap.mp hm
  cases m with
  | propose hd' =>
    obtain rfl := Option.some.inj hm
    exact ⟨j, he⟩
  | _ => cases hm

theorem count_newRound (h : p.Boxes log) (r : Nat) :
    p.receivedNewRound.count r = (log.map Prod.snd).count (.newRound r) := by
  rw [h.receivedNewRound]
  exact count_filterMap_get NodeMessage.newRound?_eq_some log r

theorem count_vote (h : p.Boxes log) (hd : L.Header) :
    p.voteHeader.count hd = (log.map Prod.snd).count (.vote hd) := by
  rw [h.voteHeader]
  exact count_filterMap_get NodeMessage.vote?_eq_some log hd

theorem count_commit (h : p.Boxes log) (b : L.Blk) :
    p.commit.count b = (log.map Prod.snd).count (.commit b) := by
  rw [h.commit]
  exact count_filterMap_get NodeMessage.commit?_eq_some log b

end Phase.Boxes

namespace Trace

variable {t t' : Trace L n} {i : Fin n}

/-- What every node heard is the last of what was sent, and is in its boxes. -/
structure Heard (t : Trace L n) : Prop where
  suffix (k : Fin n) : t.heard k <:+ t.sent
  boxes (k : Fin n) : (t.phases k).Boxes (t.heard k)

/-- What holds of the phase of node `i` as changed, and of the other nodes, holds of all. -/
theorem forall_modify {P : Fin n → Phase L → Prop} {f : Phase L → Phase L} (hi : P i (f (t.phases i)))
    (h : ∀ k, P k (t.phases k)) (k : Fin n) : P k ((t.modify i f).phases k) := by
  by_cases hk : k = i
  · subst hk
    rw [phases_modify_self]
    exact hi
  · rw [phases_modify_of_ne hk]
    exact h k

theorem Heard.sends (h : Heard t) (i : Fin n) (ms : List (NodeMessage L)) : Heard (t.sends i ms) where
  suffix k := by
    obtain ⟨l, hl⟩ := h.suffix k
    exact ⟨l, by rw [Trace.sends, ← hl, List.append_assoc]⟩
  boxes k := (h.boxes k).onMessages i ms

theorem Heard.modify (h : Heard t) {f : Phase L → Phase L} (hf : ∀ log, (t.phases i).Boxes log →
    (f (t.phases i)).Boxes (n := n) log) : Heard (t.modify i f) where
  suffix := h.suffix
  boxes := forall_modify (P := fun k p => p.Boxes (t.heard k)) (hf _ (h.boxes i)) h.boxes

theorem Heard.leave (h : Heard t) (o : Option L.Blk) : Heard (t.leave i o) := by
  constructor <;> intro k <;> by_cases hk : k = i
  · subst hk
    show Function.update t.heard k [] k <:+ t.sent
    rw [Function.update_self]
    exact List.nil_suffix
  · show Function.update t.heard i [] k <:+ t.sent
    rw [Function.update_of_ne hk]
    exact h.suffix k
  · subst hk
    show ((t.modify k (.leave o)).phases k).Boxes (Function.update t.heard k [] k)
    rw [Function.update_self, phases_modify_self]
    exact ⟨rfl, rfl, rfl, rfl⟩
  · show ((t.modify i (.leave o)).phases k).Boxes (Function.update t.heard i [] k)
    rw [Function.update_of_ne hk, phases_modify_of_ne hk]
    exact h.boxes k

theorem Heard.step (h : Heard t) (hs : Step i t t') : Heard t' := by
  cases hs with
  | ask height => exact h.sends i _
  | sync hs => exact h.modify fun _ hb => hb.of_eq rfl rfl rfl rfl
  | @newRound r o hs hq hr ho =>
    have hm : Heard (t.modify i (.newRound r o)) := h.modify fun _ hb => hb.of_eq rfl rfl rfl rfl
    exact ⟨hm.suffix, hm.boxes⟩
  | propose hs => exact (h.modify fun _ hb => hb.of_eq rfl rfl rfl rfl).sends i _
  | vote hs => exact (h.modify fun _ hb => hb.of_eq rfl rfl rfl rfl).sends i _
  | elect hs hq => exact (h.modify fun _ hb => hb.of_eq rfl rfl rfl rfl).sends i _
  | clear hs => exact h.leave none
  | take hs hq => exact h.leave _

/-! ## Proposals, votes and commits -/

/-- Every block was built for some round, by the node it is listed for. -/
structure Made (t : Trace L n) : Prop where
  built (st : Nat) (e : Fin n × L.Blk) : t.built[st]? = some e → ∃ r prev, 0 < r ∧ L.Built st r prev e.2
  newBlock (k : Fin n) : (t.phases k).newBlock = L.defaultBlock ∨ (k, (t.phases k).newBlock) ∈ t.built

/-- No two blocks that were built have one header. -/
theorem Made.inj (hL : L.Sound) (h : Made t) {k k' : Fin n} {b b' : L.Blk} (hb : (k, b) ∈ t.built)
    (hb' : (k', b') ∈ t.built) (he : b.header = b'.header) : k = k' ∧ b = b' := by
  obtain ⟨st, hst⟩ := List.getElem?_of_mem hb
  obtain ⟨st', hst'⟩ := List.getElem?_of_mem hb'
  obtain ⟨_, _, -, h1⟩ := h.built st _ hst
  obtain ⟨_, _, -, h2⟩ := h.built st' _ hst'
  obtain rfl := hL.distinct h1 h2 he
  exact Prod.mk.inj (Option.some.inj (hst.symm.trans hst'))

theorem Made.ne_default (hL : L.Sound) (h : Made t) {k : Fin n} {b : L.Blk} (hb : (k, b) ∈ t.built) :
    b.header ≠ L.defaultHeader := by
  obtain ⟨st, hst⟩ := List.getElem?_of_mem hb
  obtain ⟨_, _, hr, h1⟩ := h.built st _ hst
  exact hL.ne_default h1 hr

/-- Of the blocks that were built, at most one has a header. -/
theorem Made.acked (hL : L.Sound) (h : Made t) {k : Fin n} {b : L.Blk} (hb : (k, b) ∈ t.built) :
    t.acked b.header = [] ∨ t.acked b.header = [b] := by
  have hmem : ∀ j, b.header = (t.phases j).newBlock.header → j = k ∧ (t.phases j).newBlock = b := by
    intro j hj
    rcases h.newBlock j with hd | hm
    · exact absurd (hj.trans (congrArg Block.header hd)) (h.ne_default hL hb)
    · obtain ⟨rfl, h2⟩ := h.inj hL hb hm hj
      exact ⟨rfl, h2.symm⟩
  unfold Trace.acked
  generalize hf : (List.finRange n).filter (fun j => decide (b.header = (t.phases j).newBlock.header ∧
    L.valid (t.phases j).newBlock = true ∧
    L.merkleRootHash (t.phases j).newBlock = L.hashMerkleRoot b.header)) = l
  have hall : ∀ j ∈ l, j = k ∧ (t.phases j).newBlock = b := fun j hj => by
    rw [← hf] at hj
    exact hmem j (of_decide_eq_true (List.mem_filter.mp hj).2).1
  have hnd : l.Nodup := hf ▸ (List.nodup_finRange n).filter _
  match l, hall, hnd with
  | [], _, _ => exact .inl rfl
  | [j], hall, _ => exact .inr (congrArg (fun b => [b]) (hall j List.mem_cons_self).2)
  | j :: j' :: l, hall, hnd =>
    have h1 := (hall j List.mem_cons_self).1
    have h2 := (hall j' (List.mem_cons_of_mem _ List.mem_cons_self)).1
    exact absurd (h1.trans h2.symm ▸ List.mem_cons_self) (List.nodup_cons.mp hnd).1

theorem Made.of_eq (h : Made t) (hb : t'.built = t.built)
    (hn : ∀ k, (t'.phases k).newBlock = (t.phases k).newBlock) : Made t' :=
  ⟨hb ▸ h.built, fun k => by rw [hn, hb]; exact h.newBlock k⟩

theorem Made.step (h : Made t) (hs : Step i t t') : Made t' := by
  have hmod : ∀ {f : Phase L → Phase L}, (f (t.phases i)).newBlock = (t.phases i).newBlock →
      Made (t.modify i f) := fun hf =>
    h.of_eq rfl (forall_modify (P := fun k p => p.newBlock = (t.phases k).newBlock) hf fun _ => rfl)
  have hsend : ∀ {t : Trace L n} (ms), Made t → Made (t.sends i ms) := fun ms h => h.of_eq rfl fun k => by simp
  cases hs with
  | ask height => exact hsend _ h
  | sync hs => exact hmod rfl
  | propose hs => exact hsend _ (hmod rfl)
  | vote hs => exact hsend _ (hmod rfl)
  | elect hs hq => exact hsend _ (hmod rfl)
  | clear hs =>
    have hm : Made (t.modify i (.leave none)) := hmod rfl
    exact ⟨hm.built, hm.newBlock⟩
  | @take b hs hq =>
    have hm : Made (t.modify i (.leave (some b))) := hmod rfl
    exact ⟨hm.built, hm.newBlock⟩
  | @newRound r o hs hq hr ho =>
    constructor
    case built =>
      intro st e he
      rw [show (t.newRound i r o).built = t.built ++ o.toList.map (i, ·) from rfl, List.getElem?_append] at he
      split at he
      · exact h.built st e he
      · -- The stamp of the new block is the number of blocks before it.
        rename_i hst
        cases o with
        | none => cases he
        | some b =>
          rw [Option.toList_some, List.map_singleton, List.getElem?_singleton] at he
          split at he
          · obtain rfl : st = t.built.length := by omega
            obtain ⟨prev, hb, -⟩ := ho b rfl
            rw [← Option.some.inj he]
            exact ⟨r, prev, by omega, hb⟩
          · cases he
    case newBlock =>
      refine forall_modify (P := fun k p => p.newBlock = L.defaultBlock ∨
        (k, p.newBlock) ∈ t.built ++ o.toList.map (i, ·)) ?_ fun k => ?_
      · cases o with
        | none => exact (h.newBlock i).imp_right (List.mem_append_left _)
        | some b => exact .inr (List.mem_append_right _ List.mem_cons_self)
      · exact (h.newBlock k).imp_right (List.mem_append_left _)

/-- A header is proposed by the node that built a block with it, and not before
this node leaves its new round. -/
structure Proposals (t : Trace L n) : Prop where
  built {k : Fin n} {h : L.Header} : (k, .propose h) ∈ t.sent → ∃ b, (k, b) ∈ t.built ∧ b.header = h
  idle (k : Fin n) : (t.phases k).nodeState = .waiting ∨ (t.phases k).nodeState = .sync →
    (t.phases k).userBlockHeader = []
  fresh {k : Fin n} {h : L.Header} : (t.phases k).nodeState = .newRound →
    h ∈ (t.phases k).userBlockHeader →
    (∃ b, (k, b) ∈ t.built ∧ b.header = h) ∧ ∀ j, (j, .propose h) ∉ t.sent

/-- Messages that are no proposals. -/
theorem Proposals.sends (h : Proposals t) (i : Fin n) {ms : List (NodeMessage L)}
    (hms : ∀ h, NodeMessage.propose h ∉ ms) : Proposals (t.sends i ms) where
  built hk := by
    rw [sent_sends, List.mem_append] at hk
    refine h.built (hk.resolve_right fun hk => ?_)
    obtain ⟨m, hm, he⟩ := List.mem_map.mp hk
    obtain ⟨-, rfl⟩ := Prod.mk.inj he
    exact hms _ hm
  idle k := by simpa using h.idle k
  fresh {k hd} hs hu := by
    rw [nodeState_sends] at hs
    rw [userBlockHeader_sends] at hu
    refine ⟨(h.fresh hs hu).1, fun j hj => ?_⟩
    rw [sent_sends, List.mem_append] at hj
    rcases hj with hj | hj
    · exact (h.fresh hs hu).2 j hj
    · obtain ⟨m, hm, he⟩ := List.mem_map.mp hj
      obtain ⟨-, rfl⟩ := Prod.mk.inj he
      exact hms _ hm

/-- The node goes to a state that is not a new round. -/
theorem Proposals.modify (h : Proposals t) {f : Phase L → Phase L}
    (hs : (f (t.phases i)).nodeState ≠ .newRound)
    (hi : (f (t.phases i)).nodeState = .waiting ∨ (f (t.phases i)).nodeState = .sync →
      (f (t.phases i)).userBlockHeader = []) : Proposals (t.modify i f) where
  built := h.built
  idle := forall_modify (P := fun _ p => p.nodeState = .waiting ∨ p.nodeState = .sync →
    p.userBlockHeader = []) hi h.idle
  fresh {k hd} := forall_modify (P := fun k p => p.nodeState = .newRound → hd ∈ p.userBlockHeader →
    (∃ b, (k, b) ∈ t.built ∧ b.header = hd) ∧ ∀ j, (j, NodeMessage.propose hd) ∉ t.sent) (fun h => absurd h hs)
    (fun _ => h.fresh) k

theorem Proposals.newRound (hL : L.Sound) (hm : Made t) (h : Proposals t)
    (hs : (t.phases i).nodeState = .waiting) {r : Nat} {o : Option L.Blk}
    (ho : ∀ b ∈ o, ∃ prev, L.Built t.built.length r prev b) : Proposals (t.newRound i r o) where
  built hk := by
    obtain ⟨b, hb, he⟩ := h.built hk
    exact ⟨b, List.mem_append_left _ hb, he⟩
  idle := forall_modify (P := fun _ p => p.nodeState = .waiting ∨ p.nodeState = .sync →
    p.userBlockHeader = []) (by simp [Phase.newRound]) h.idle
  fresh {k hd} := by
    refine forall_modify (P := fun k p => p.nodeState = .newRound → hd ∈ p.userBlockHeader →
      (∃ b, (k, b) ∈ t.built ++ o.toList.map (i, ·) ∧ b.header = hd) ∧
        ∀ j, (j, NodeMessage.propose hd) ∉ t.sent)
      (fun _ hu => ?_) (fun k hk hu => ?_) k
    · -- The node had no header, so this is that of the block it has built now.
      have hu : hd ∈ (t.phases i).userBlockHeader ++ o.toList.map Block.header := hu
      rw [h.idle i (.inl hs), List.nil_append] at hu
      obtain ⟨b, hb, rfl⟩ := List.mem_map.mp hu
      have hb := Option.mem_toList.mp hb
      refine ⟨⟨b, List.mem_append_right _ ?_, rfl⟩, fun j hj => ?_⟩
      · rw [hb]
        exact List.mem_cons_self
      · obtain ⟨b', hb', he⟩ := h.built hj
        obtain ⟨st, hst⟩ := List.getElem?_of_mem hb'
        obtain ⟨_, _, -, hb'⟩ := hm.built st _ hst
        obtain ⟨_, hb⟩ := ho b hb
        have hlt := (List.getElem?_eq_some_iff.mp hst).1
        have := hL.distinct hb' hb he
        omega
    · obtain ⟨⟨b, hb, he⟩, hn⟩ := h.fresh hk hu
      exact ⟨⟨b, List.mem_append_left _ hb, he⟩, hn⟩

/-- The node proposes a header it has. -/
theorem Proposals.propose (hL : L.Sound) (hm : Made t) (h : Proposals t)
    (hs : (t.phases i).nodeState = .newRound) {hd : L.Header} (hu : hd ∈ (t.phases i).userBlockHeader) :
    Proposals ((t.modify i fun p => { p with nodeState := .propose }).sends i [.propose hd]) := by
  have h' : Proposals (t.modify i fun p => { p with nodeState := .propose }) := h.modify (by simp) (by simp)
  obtain ⟨b, hb, hbd⟩ := (h.fresh hs hu).1
  constructor
  case built =>
    intro k hd' hk
    rcases List.mem_append.mp hk with hk | hk
    · exact h'.built hk
    · obtain ⟨rfl, he⟩ := Prod.mk.inj (List.mem_singleton.mp hk)
      obtain rfl := NodeMessage.propose.inj he
      exact ⟨b, hb, hbd⟩
  case idle => exact fun k => by simpa using h'.idle k
  case fresh =>
    intro k hd' hk hu'
    rw [nodeState_sends] at hk
    rw [userBlockHeader_sends] at hu'
    obtain ⟨⟨b', hb', hbd'⟩, hn⟩ := h'.fresh hk hu'
    refine ⟨⟨b', hb', hbd'⟩, fun j hj => ?_⟩
    rcases List.mem_append.mp hj with hj | hj
    · exact hn j hj
    · -- A header has one builder, and node `i` is not in its new round any more.
      obtain ⟨-, he⟩ := Prod.mk.inj (List.mem_singleton.mp hj)
      obtain rfl := NodeMessage.propose.inj he
      obtain ⟨rfl, -⟩ := hm.inj hL hb hb' (hbd.trans hbd'.symm)
      rw [phases_modify_self] at hk
      cases hk

theorem Proposals.step (hL : L.Sound) (hm : Made t) (h : Proposals t) (hs : Step i t t') : Proposals t' := by
  cases hs with
  | ask height => exact h.sends i (by simp)
  | sync hs => exact h.modify (by simp) fun _ => h.idle i (.inl hs)
  | newRound o hs hq hr ho => exact h.newRound hL hm hs fun b hb => (ho b hb).imp fun _ hp => hp.1
  | propose hs =>
    cases hu : lowValue L.headerLt (t.phases i).userBlockHeader with
    | none =>
      rw [Option.toList_none, List.map_nil, sends_nil]
      exact h.modify (by simp) (by simp)
    | some hd => exact h.propose hL hm hs (lowValue_mem hu)
  | vote hs => exact Proposals.sends (h.modify (by simp) (by simp)) i (by simp)
  | elect hs hq => exact Proposals.sends (h.modify (by simp) (by simp)) i (by simp)
  | clear hs =>
    have hm : Proposals (t.modify i (.leave none)) := h.modify (by simp [Phase.leave]) fun _ => rfl
    exact ⟨hm.built, hm.idle, hm.fresh⟩
  | @take b hs hq =>
    have hm : Proposals (t.modify i (.leave (some b))) := h.modify (by simp [Phase.leave]) fun _ => rfl
    exact ⟨hm.built, hm.idle, hm.fresh⟩

theorem mem_sent_sends {e : Fin n × NodeMessage L} {ms : List (NodeMessage L)} :
    e ∈ (t.sends i ms).sent ↔ e ∈ t.sent ∨ e.1 = i ∧ e.2 ∈ ms := by
  rw [sent_sends, List.mem_append, List.mem_map]
  refine or_congr_right ⟨?_, fun ⟨h1, h2⟩ => ⟨e.2, h2, Prod.ext h1.symm rfl⟩⟩
  rintro ⟨m, hm, rfl⟩
  exact ⟨rfl, hm⟩

theorem proposeHeader_sends (k : Fin n) (ms : List (NodeMessage L)) :
    ((t.sends i ms).phases k).proposeHeader = (t.phases k).proposeHeader ++ ms.filterMap NodeMessage.propose? := by
  show (ms.foldl (fun p m => Phase.onMessage m p) (t.phases k)).proposeHeader = _
  generalize t.phases k = p
  induction ms generalizing p with
  | nil => exact (List.append_nil _).symm
  | cons m ms ih =>
    rw [List.foldl_cons, ih]
    cases m <;> simp [Phase.onMessage, NodeMessage.propose?, List.filterMap_cons]

/-- A node votes for a header at most once: where it has, it drops the proposal
before it can vote again, and the header is not proposed a second time. -/
structure Votes (t : Trace L n) : Prop where
  proposed {k : Fin n} {h : L.Header} : (k, .vote h) ∈ t.sent → ∃ j, (j, .propose h) ∈ t.sent
  cleared {k : Fin n} {h : L.Header} : (k, .vote h) ∈ t.sent → h ∈ (t.phases k).proposeHeader →
    (t.phases k).nodeState = .vote ∨ (t.phases k).nodeState = .commit
  once (h : L.Header) : Once t.sent (.vote h)

theorem Votes.sends (h : Votes t) (i : Fin n) {ms : List (NodeMessage L)} (hv : ∀ h, NodeMessage.vote h ∉ ms)
    (hp : ∀ h, NodeMessage.propose h ∈ ms → ∀ j, (j, .propose h) ∉ t.sent) : Votes (t.sends i ms) where
  proposed hk := by
    obtain ⟨j, hj⟩ := h.proposed ((mem_sent_sends.mp hk).resolve_right fun hm => hv _ hm.2)
    exact ⟨j, mem_sent_sends.mpr (.inl hj)⟩
  cleared hk hu := by
    have hk := (mem_sent_sends.mp hk).resolve_right fun hm => hv _ hm.2
    rw [nodeState_sends]
    rw [proposeHeader_sends, List.mem_append] at hu
    refine h.cleared hk (hu.resolve_right fun hu => ?_)
    obtain ⟨m, hm, he⟩ := List.mem_filterMap.mp hu
    obtain ⟨j, hj⟩ := h.proposed hk
    cases m with
    | propose hd =>
      obtain rfl := Option.some.inj he
      exact hp _ hm j hj
    | _ => cases he
  once hd := (h.once hd).appendOther fun e he hm => by
    obtain ⟨m, hms, rfl⟩ := List.mem_map.mp he
    exact hv hd (hm ▸ hms)

theorem Votes.modify (h : Votes t) {f : Phase L → Phase L}
    (hf : (f (t.phases i)).proposeHeader = [] ∨ (f (t.phases i)).proposeHeader = (t.phases i).proposeHeader ∧
      ((t.phases i).nodeState = .vote ∨ (t.phases i).nodeState = .commit →
        (f (t.phases i)).nodeState = .vote ∨ (f (t.phases i)).nodeState = .commit)) : Votes (t.modify i f) where
  proposed := h.proposed
  cleared {k hd} := by
    refine forall_modify (P := fun k p => (k, NodeMessage.vote hd) ∈ t.sent → hd ∈ p.proposeHeader →
      p.nodeState = .vote ∨ p.nodeState = .commit) (fun hk hu => ?_) (fun _ => h.cleared) k
    rcases hf with hf | ⟨hf, hst⟩
    · rw [hf] at hu
      cases hu
    · rw [hf] at hu
      exact hst (h.cleared hk hu)
  once := h.once

/-- The node votes for a header that was proposed to it. -/
theorem Votes.vote (hh : Heard t) (h : Votes t) (hs : (t.phases i).nodeState = .propose) {hd : L.Header}
    (hu : hd ∈ (t.phases i).proposeHeader) :
    Votes ((t.modify i fun p => { p with nodeState := .vote }).sends i [.vote hd]) := by
  have h' : Votes (t.modify i fun p => { p with nodeState := .vote }) := h.modify (.inr ⟨rfl, fun _ => .inl rfl⟩)
  obtain ⟨j, hj⟩ := (hh.boxes i).mem_proposeHeader hu
  have hj := (hh.suffix i).subset hj
  constructor
  case proposed =>
    intro k hd' hk
    rcases mem_sent_sends.mp hk with hk | ⟨-, hk⟩
    · exact (h'.proposed hk).imp fun _ hj => mem_sent_sends.mpr (.inl hj)
    · obtain rfl := NodeMessage.vote.inj (List.mem_singleton.mp hk)
      exact ⟨j, mem_sent_sends.mpr (.inl hj)⟩
  case cleared =>
    intro k hd' hk hu'
    rw [nodeState_sends]
    rw [proposeHeader_sends, show [NodeMessage.vote hd].filterMap NodeMessage.propose? = [] from rfl,
      List.append_nil] at hu'
    rcases mem_sent_sends.mp hk with hk | ⟨rfl, -⟩
    · exact h'.cleared hk hu'
    · rw [phases_modify_self]
      exact .inl rfl
  case once =>
    refine fun hd' => (h.once hd').append fun he hm => ?_
    obtain rfl := NodeMessage.vote.inj he
    rcases h.cleared hm hu with hst | hst <;> rw [hs] at hst <;> cases hst

theorem Votes.step (hh : Heard t) (hp : Proposals t) (h : Votes t) (hs : Step i t t') : Votes t' := by
  cases hs with
  | ask height => exact h.sends i (by simp) (by simp)
  | sync hs => exact h.modify (.inr ⟨rfl, by simp [hs]⟩)
  | @newRound r o hs hq hr ho =>
    have hm : Votes (t.modify i (.newRound r o)) := h.modify (.inr ⟨rfl, by simp [hs]⟩)
    exact ⟨hm.proposed, hm.cleared, hm.once⟩
  | propose hs =>
    refine Votes.sends (h.modify (.inr ⟨rfl, by simp [hs]⟩)) i (by simp) fun hd hm => ?_
    obtain ⟨hd', hu, he⟩ := List.mem_map.mp hm
    obtain rfl := NodeMessage.propose.inj he
    exact (hp.fresh hs (lowValue_mem (Option.mem_toList.mp hu))).2
  | vote hs =>
    cases hu : lowValue L.headerLt (t.phases i).proposeHeader with
    | none =>
      rw [Option.toList_none, List.map_nil, sends_nil]
      exact h.modify (.inr ⟨rfl, fun _ => .inl rfl⟩)
    | some hd => exact h.vote hh hs (lowValue_mem hu)
  | elect hs hq => exact Votes.sends (h.modify (.inr ⟨rfl, fun _ => .inr rfl⟩)) i (by simp) (by simp)
  | clear hs =>
    have hm : Votes (t.modify i (.leave none)) := h.modify (.inl rfl)
    exact ⟨hm.proposed, hm.cleared, hm.once⟩
  | @take b hs hq =>
    have hm : Votes (t.modify i (.leave (some b))) := h.modify (.inl rfl)
    exact ⟨hm.proposed, hm.cleared, hm.once⟩

/-- A node commits to a block at most once: it has elected the header by more
than half of the nodes' votes, which it does not hear again after it entered
waiting. -/
structure Commits (t : Trace L n) : Prop where
  quorum {k : Fin n} {b : L.Blk} : (k, .commit b) ∈ t.sent → n / 2 < (senders t.sent (.vote b.header)).card
  past {k : Fin n} {b : L.Blk} : (k, .commit b) ∈ t.sent → (t.phases k).nodeState ≠ .commit →
    n / 2 < (senders t.sent (.vote b.header) \ senders (t.heard k) (.vote b.header)).card
  once (b : L.Blk) : Once t.sent (.commit b)

theorem senders_sent_sends_subset (m : NodeMessage L) (i : Fin n) (ms : List (NodeMessage L)) :
    senders t.sent m ⊆ senders (t.sends i ms).sent m :=
  senders_mono (List.subset_append_left _ _)

theorem Commits.sends (h : Commits t) (i : Fin n) {ms : List (NodeMessage L)}
    (hc : ∀ b, NodeMessage.commit b ∉ ms) (hv : ∀ h, NodeMessage.vote h ∈ ms → (i, .vote h) ∉ t.sent) :
    Commits (t.sends i ms) where
  quorum hk := (h.quorum ((mem_sent_sends.mp hk).resolve_right fun hm => hc _ hm.2)).trans_le
    (Finset.card_le_card (senders_sent_sends_subset _ i ms))
  past {k b} hk hs := by
    have hk := (mem_sent_sends.mp hk).resolve_right fun hm => hc _ hm.2
    rw [nodeState_sends] at hs
    refine (h.past hk hs).trans_le (Finset.card_le_card fun j hj => ?_)
    obtain ⟨hj, hn⟩ := Finset.mem_sdiff.mp hj
    refine Finset.mem_sdiff.mpr ⟨senders_sent_sends_subset _ i ms hj, fun hj' => ?_⟩
    rw [heard_sends, mem_senders, List.mem_append] at hj'
    rcases hj' with hj' | hj'
    · exact hn (mem_senders.mpr hj')
    · obtain ⟨m, hm, he⟩ := List.mem_map.mp hj'
      obtain ⟨rfl, rfl⟩ := Prod.mk.inj he
      exact hv _ hm (mem_senders.mp hj)
  once b := (h.once b).appendOther fun e he hm => by
    obtain ⟨m, hms, rfl⟩ := List.mem_map.mp he
    exact hc b (hm ▸ hms)

theorem Commits.modify (h : Commits t) {f : Phase L → Phase L}
    (hf : (f (t.phases i)).nodeState = .commit ∨ (t.phases i).nodeState ≠ .commit) : Commits (t.modify i f) where
  quorum := h.quorum
  past {k b} := forall_modify (P := fun k p => (k, NodeMessage.commit b) ∈ t.sent → p.nodeState ≠ .commit →
    n / 2 < (senders t.sent (.vote b.header) \ senders (t.heard k) (.vote b.header)).card)
    (fun hk hs => h.past hk (hf.resolve_left hs)) (fun _ => h.past) k
  once := h.once

theorem Commits.leave (h : Commits t) (o : Option L.Blk) : Commits (t.leave i o) where
  quorum := h.quorum
  past {k b} hk hs := by
    show n / 2 < (senders t.sent (.vote b.header) \ senders (Function.update t.heard i [] k) _).card
    by_cases he : k = i
    · subst he
      rw [Function.update_self, show senders ([] : List (Fin n × NodeMessage L)) _ = ∅ from rfl,
        Finset.sdiff_empty]
      exact h.quorum hk
    · rw [Function.update_of_ne he]
      exact h.past hk (by rwa [show (t.leave i o).phases k = t.phases k from phases_modify_of_ne he _] at hs)
  once := h.once

/-- A node that has elected a header commits to a block with it. -/
theorem Commits.commit (h : Commits t) (hs : (t.phases i).nodeState = .commit) {b : L.Blk}
    (hnew : (i, .commit b) ∉ t.sent) (hq : n / 2 < (senders t.sent (.vote b.header)).card) :
    Commits (t.sends i [.commit b]) := by
  have hvotes : ∀ (log : List (Fin n × NodeMessage L)) hd,
      senders (log ++ [(i, .commit b)]) (.vote hd) = senders log (.vote hd) :=
    fun log hd => senders_append_of_ne (by simp)
  have hmem : ∀ {k b'}, (k, .commit b') ∈ (t.sends i [.commit b]).sent →
      (k, .commit b') ∈ t.sent ∨ k = i ∧ b' = b := fun hk =>
    (mem_sent_sends.mp hk).imp_right fun hk => ⟨hk.1, NodeMessage.commit.inj (List.mem_singleton.mp hk.2)⟩
  constructor
  case quorum =>
    intro k b' hk
    rw [sent_sends, List.map_singleton, hvotes]
    rcases hmem hk with hk | ⟨-, rfl⟩
    · exact h.quorum hk
    · exact hq
  case past =>
    intro k b' hk hst
    rw [nodeState_sends] at hst
    rw [sent_sends, heard_sends, List.map_singleton, hvotes, hvotes]
    exact h.past ((hmem hk).resolve_right fun hk => hst (hk.1 ▸ hs)) hst
  case once => exact fun b' => (h.once b').append fun _ => hnew

theorem sends_cons (m : NodeMessage L) (ms : List (NodeMessage L)) :
    t.sends i (m :: ms) = (t.sends i [m]).sends i ms := by
  refine Trace.ext rfl (funext fun k => ?_) ?_ rfl
  · rw [heard_sends, heard_sends, heard_sends, List.append_assoc, ← List.map_append, List.singleton_append]
  · rw [sent_sends, sent_sends, sent_sends, List.append_assoc, ← List.map_append, List.singleton_append]

/-- The node elects a header and commits to the block with it. -/
theorem Commits.elect (hL : L.Sound) (hh : Heard t) (hm : Made t) (hp : Proposals t) (hv : Votes t)
    (h : Commits t) (hs : (t.phases i).nodeState = .vote) {hd : L.Header}
    (hq : n / 2 < (t.phases i).voteHeader.count hd) :
    Commits ((t.modify i fun p => { p with commitBlockHeader := hd, nodeState := .commit }).sends i
      (.commitBlockReq hd :: (t.acked hd).map .commit)) := by
  -- The nodes that voted for the header, as node `i` heard.
  have hsuf := (hh.suffix i).sublist
  have hcard : n / 2 < (senders (t.heard i) (.vote hd)).card := by
    rw [← count_eq_card_iff.mpr ((hv.once hd).sublist hsuf), ← (hh.boxes i).count_vote]
    exact hq
  have hsub : senders (t.heard i) (.vote hd) ⊆ senders t.sent (.vote hd) := senders_mono hsuf.subset
  obtain ⟨j, hj⟩ := Finset.card_pos.mp (Nat.zero_lt_of_lt hcard)
  obtain ⟨k, hk⟩ := hv.proposed (mem_senders.mp (hsub hj))
  obtain ⟨b, hb, rfl⟩ := hp.built hk
  -- It has not committed to the block before, which would have taken as many other votes.
  have hnew : (i, .commit b) ∉ t.sent := fun hi => by
    have hpast := h.past hi (by rw [hs]; exact NodeState.noConfusion)
    have := card_add_card_le (Finset.sdiff_disjoint : Disjoint
      (senders t.sent (.vote b.header) \ senders (t.heard i) (.vote b.header)) _)
    rw [Fintype.card_fin] at this
    omega
  have hreq : Commits ((t.modify i fun p => { p with commitBlockHeader := b.header, nodeState := .commit }).sends i
      [.commitBlockReq b.header]) :=
    Commits.sends (h.modify (.inl rfl)) i (by simp) (by simp)
  rw [sends_cons]
  rcases hm.acked hL hb with ha | ha <;> rw [ha]
  · rw [List.map_nil, sends_nil]
    exact hreq
  · refine hreq.commit (by simp) ?_ ?_
    · rw [mem_sent_sends]
      rintro (hi | ⟨-, hi⟩)
      · exact hnew hi
      · simp at hi
    · rw [sent_sends, senders_append_of_ne (by simp)]
      exact hcard.trans_le (Finset.card_le_card hsub)

theorem Commits.step (hL : L.Sound) (hh : Heard t) (hm : Made t) (hp : Proposals t) (hv : Votes t)
    (h : Commits t) (hs : Step i t t') : Commits t' := by
  cases hs with
  | ask height => exact h.sends i (by simp) (by simp)
  | sync hs => exact h.modify (.inr (by simp [hs]))
  | @newRound r o hs hq hr ho =>
    have hm : Commits (t.modify i (.newRound r o)) := h.modify (.inr (by simp [hs]))
    exact ⟨hm.quorum, hm.past, hm.once⟩
  | propose hs =>
    exact Commits.sends (h.modify (.inr (by simp [hs]))) i (by simp) (by simp)
  | vote hs =>
    refine Commits.sends (h.modify (.inr (by simp [hs]))) i (by simp) fun hd hm hi => ?_
    obtain ⟨hd', hu, he⟩ := List.mem_map.mp hm
    obtain rfl := NodeMessage.vote.inj he
    rcases hv.cleared hi (lowValue_mem (Option.mem_toList.mp hu)) with hst | hst <;> rw [hs] at hst <;> cases hst
  | elect hs hq => exact h.elect hL hh hm hp hv hs (getValueIfCountExceeds_count hq).2
  | clear hs => exact h.leave none
  | take hs hq => exact h.leave _

/-- What holds of the traces of all runs. -/
structure Orders (t : Trace L n) : Prop where
  heard : Heard t
  made : Made t
  proposals : Proposals t
  votes : Votes t
  commits : Commits t

theorem Orders.step (hL : L.Sound) (h : Orders t) (hs : Step i t t') : Orders t' where
  heard := h.heard.step hs
  made := h.made.step hs
  proposals := h.proposals.step hL h.made hs
  votes := h.votes.step h.heard h.proposals hs
  commits := h.commits.step hL h.heard h.made h.proposals h.votes hs

theorem Orders.steps (hL : L.Sound) (h : Orders t) (hs : Relation.ReflTransGen (Step i) t t') : Orders t' := by
  induction hs with
  | refl => exact h
  | tail _ hs ih => exact ih.step hL hs

theorem Orders.announce (h : Orders t) (i : Fin n) (r : Nat) : Orders (t.sends i [.newRound r]) where
  heard := h.heard.sends i _
  made := h.made.of_eq rfl fun k => by simp
  proposals := h.proposals.sends i (by simp)
  votes := h.votes.sends i (by simp) (by simp)
  commits := h.commits.sends i (by simp) (by simp)

end Trace

end Bryllite.BcpMono
