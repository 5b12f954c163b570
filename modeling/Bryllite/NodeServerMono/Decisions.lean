import Bryllite.Framework.FirstWins
import Bryllite.NodeServerMono.Election

/-!
# What a server decides, by the first messages

A server takes from every peer the first announcement, proposal and vote since
the last clear (`First`). So what it decides depends on these alone, not on the
order in which they came nor on any message after them: the header it votes for
(`proposal_lowest`), the header that is elected (`election_stable`) and the round
that starts (`round_unanimous`).
-/

namespace Bryllite.NodeServerMono

open Bryllite.Framework
open Std (TreeMap)
open BcpServer (qualifyVotes)

variable {L : Core} {n : Nat}

/-! ## The first messages -/

/-- What a call announces, -/
def Call.announcement? : Call L → Option (Int × Nat)
  | .newRound p r => some (p, r)
  | _ => none

/-- proposes -/
def Call.proposal? : Call L → Option (Int × L.Header)
  | .propose p h => some (p, h)
  | _ => none

/-- and votes for, and whose message it is. -/
def Call.vote? : Call L → Option (Int × L.Header)
  | .vote p v => some (p, v)
  | _ => none

/-- The announcements among the calls, -/
def announcements (cs : List (Call L)) : List (Int × Nat) := cs.filterMap Call.announcement?

/-- the proposals -/
def proposals (cs : List (Call L)) : List (Int × L.Header) := cs.filterMap Call.proposal?

/-- and the votes. -/
def votes (cs : List (Call L)) : List (Int × L.Header) := cs.filterMap Call.vote?

theorem Recorded.calls_call {s : Recorded L} {c : Call L} (hc : c ≠ .clear) :
    (s.call n c).calls = s.calls ++ [c] := by
  cases c with
  | clear => exact absurd rfl hc
  | _ => rfl

/-- Every call but a clear takes what it announces, proposes and votes for. -/
theorem Call.perform_maps {c : Call L} (hc : c ≠ .clear) (s : BcpServer L) :
    (c.perform n s).newRoundMessages = takeFirst s.newRoundMessages c.announcement? ∧
    (c.perform n s).proposedBlockHeaders = takeFirst s.proposedBlockHeaders c.proposal? ∧
    (c.perform n s).voteBox = takeFirst s.voteBox c.vote? := by
  cases c with
  | newRound p r =>
    simp only [perform, BcpServer.appendNewRoundMessageFor]
    by_cases h : s.newRoundMessages.contains p
    · rw [if_pos h]
      exact ⟨(if_pos h).symm, rfl, rfl⟩
    · rw [if_neg h]
      exact ⟨(if_neg h).symm, rfl, rfl⟩
  | propose p hd =>
    simp only [perform, BcpServer.appendProposedBlockHeaderFor]
    by_cases h : s.proposedBlockHeaders.contains p
    · rw [if_pos h]
      exact ⟨rfl, (if_pos h).symm, rfl⟩
    · rw [if_neg h]
      exact ⟨rfl, (if_neg h).symm, rfl⟩
  | vote p v =>
    simp only [perform, BcpServer.voteBlockHeaderFor]
    by_cases h : s.voteBox.contains p
    · rw [if_pos h]
      exact ⟨rfl, rfl, (if_pos h).symm⟩
    · rw [if_neg h]
      exact ⟨rfl, rfl, (if_neg h).symm⟩
  | userHeader a hd =>
    simp only [perform]
    rcases s.userHeader_cases a hd with h | ⟨-, h⟩ <;> rw [h] <;> exact ⟨rfl, rfl, rfl⟩
  | commit p b =>
    simp only [perform]
    rcases s.verified_cases n p b with h | ⟨-, -, h⟩ <;> rw [h] <;> exact ⟨rfl, rfl, rfl⟩
  | clear => exact absurd rfl hc
  | candidate b => exact ⟨rfl, rfl, rfl⟩
  | myVote h => exact ⟨rfl, rfl, rfl⟩

/-- The server holds the first announcement, proposal and vote of every peer
since the last clear. -/
structure First (s : Recorded L) : Prop where
  announced : Firsts s.server.newRoundMessages (announcements s.calls)
  proposed : Firsts s.server.proposedBlockHeaders (proposals s.calls)
  voted : Firsts s.server.voteBox (votes s.calls)

namespace First

theorem init : First (Recorded.init (L := L)) := ⟨Firsts.empty, Firsts.empty, Firsts.empty⟩

theorem call {s : Recorded L} (hs : First s) (c : Call L) : First (s.call n c) := by
  by_cases hc : c = .clear
  · subst hc
    exact ⟨Firsts.empty, Firsts.empty, Firsts.empty⟩
  · obtain ⟨h1, h2, h3⟩ := c.perform_maps (n := n) hc s.server
    have hcalls := Recorded.calls_call (n := n) (s := s) hc
    have hl : ∀ {α : Type} (f : Call L → Option α), (s.calls ++ [c]).filterMap f = s.calls.filterMap f ++ (f c).toList := by
      intro α f
      rw [List.filterMap_append]
      cases h : f c <;> simp [h]
    refine ⟨?_, ?_, ?_⟩
    · rw [announcements, hcalls, hl]
      exact h1 ▸ hs.announced.take c.announcement?
    · rw [proposals, hcalls, hl]
      exact h2 ▸ hs.proposed.take c.proposal?
    · rw [votes, hcalls, hl]
      exact h3 ▸ hs.voted.take c.vote?

end First

theorem first_run (es : List (Event L)) : First (run (Recorded.step n) Recorded.init es) :=
  Recorded.run_inv_calls (I := First) (P := fun _ _ => True) (fun _ c hs _ => hs.call c)
    (fun _ _ _ hs => ⟨hs.announced, hs.proposed, hs.voted⟩) First.init
    (Recorded.alongCalls_of_forall fun _ _ _ _ => trivial)

/-- What `f` picks of a call is a message of one of the peers `0, …, n - 1`. -/
def Call.OfPeers {α : Type} (n : Nat) (f : Call L → Option (Int × α)) (c : Call L) : Prop :=
  ∀ a ∈ f c, 0 ≤ a.1 ∧ a.1 < n

instance {α : Type} (n : Nat) (f : Call L → Option (Int × α)) : DecidablePred (Call.OfPeers n f) :=
  fun c => inferInstanceAs (Decidable (∀ a ∈ f c, 0 ≤ a.1 ∧ a.1 < n))

/-- What holds of all calls holds of those since the last clear. -/
theorem Recorded.calls_call_of {P : Call L → Prop} {s : Recorded L} {c : Call L} (hs : ∀ c ∈ s.calls, P c)
    (hc : P c) : ∀ c' ∈ (s.call n c).calls, P c' := by
  intro c' hc'
  by_cases hcl : c = .clear
  · subst hcl
    exact absurd hc' List.not_mem_nil
  · rw [Recorded.calls_call hcl] at hc'
    rcases List.mem_append.mp hc' with hc' | hc'
    · exact hs c' hc'
    · rw [List.mem_singleton.mp hc']
      exact hc

/-- The peers a map of first messages has are those the messages come from. -/
theorem ofPeers_firsts {α : Type} {f : Call L → Option (Int × α)} {m : TreeMap Int α} {cs : List (Call L)}
    (hm : Firsts m (cs.filterMap f)) (hcs : ∀ c ∈ cs, c.OfPeers n f) (p : Int) (a : α) (h : m[p]? = some a) :
    p ∈ Finset.Ico (0 : Int) n := by
  rw [hm] at h
  obtain ⟨c, hc, ha⟩ := List.mem_filterMap.mp (mem_of_firstValue h)
  exact Finset.mem_Ico.mpr (hcs c hc (p, a) ha)

/-- The server holds first messages, its counters are exact, and the messages
`f` picks come from the `n` peers. -/
structure FirstOfPeers {α : Type} (n : Nat) (f : Call L → Option (Int × α)) (s : Recorded L) : Prop
    extends First s where
  tally : Tally s.server
  ofPeers : ∀ c ∈ s.calls, c.OfPeers n f

theorem FirstOfPeers.call {α : Type} {f : Call L → Option (Int × α)} {s : Recorded L}
    (hs : FirstOfPeers n f s) {c : Call L} (hc : c.OfPeers n f) : FirstOfPeers n f (s.call n c) :=
  ⟨hs.toFirst.call c, hs.tally.perform c, Recorded.calls_call_of hs.ofPeers hc⟩

theorem FirstOfPeers.setClock {α : Type} {f : Call L → Option (Int × α)} {s : Recorded L}
    (hs : FirstOfPeers n f s) (tc : Nat) (st : BcpStep) : FirstOfPeers n f (s.setClock tc st) :=
  ⟨⟨hs.announced, hs.proposed, hs.voted⟩, hs.tally.setClock tc st, hs.ofPeers⟩

theorem firstOfPeers_run {α : Type} {f : Call L → Option (Int × α)} {es : List (Event L)}
    (h : ∀ e ∈ es, ∀ c ∈ e.calls, c.OfPeers n f) :
    FirstOfPeers n f (run (Recorded.step n) Recorded.init es) :=
  Recorded.run_inv_calls (P := fun _ c => c.OfPeers n f) (fun _ _ hs hc => hs.call hc)
    (fun _ tc st hs => hs.setClock tc st)
    ⟨First.init, Tally.empty rfl rfl rfl rfl rfl, fun _ hc => absurd hc List.not_mem_nil⟩
    (Recorded.alongCalls_of_forall h)

/-! ## The proposal to vote for -/

/-- After any events, `select_proposed_block_header` finds none if no proposal
came since the last clear, and otherwise the first proposal of a peer, with a hash
string no greater than that of any peer's first proposal. It finds the same at all
servers to which every peer's first proposal is the same. -/
theorem proposal_lowest (es es' : List (Event L)) :
    let s : Recorded L := run (Recorded.step n) Recorded.init es
    let s' : Recorded L := run (Recorded.step n) Recorded.init es'
    (s.server.selectProposedBlockHeader = none ↔ proposals s.calls = []) ∧
      (∀ h, s.server.selectProposedBlockHeader = some h →
        (∃ p, firstValue (proposals s.calls) p = some h) ∧
        ∀ p h', firstValue (proposals s.calls) p = some h' → L.getHashString h ≤ L.getHashString h') ∧
      ((∀ p, firstValue (proposals s.calls) p = firstValue (proposals s'.calls) p) →
        s.server.selectProposedBlockHeader = s'.server.selectProposedBlockHeader) := by
  intro s s'
  have hs : Firsts s.server.proposedBlockHeaders (proposals s.calls) := (first_run es).proposed
  have hs' : Firsts s'.server.proposedBlockHeaders (proposals s'.calls) := (first_run es').proposed
  unfold BcpServer.selectProposedBlockHeader
  refine ⟨?_, fun h hh => ?_, fun hl => ?_⟩
  · rw [Option.map_eq_none_iff, BcpServer.selectLowest_eq_argmin, List.argmin_eq_none]
    exact hs.toList_eq_nil
  · obtain ⟨e, he, rfl⟩ := Option.map_eq_some_iff.mp hh
    rw [BcpServer.selectLowest_eq_argmin] at he
    refine ⟨⟨e.1, hs.mem_toList.mp (List.argmin_mem he)⟩, fun p h' hp => ?_⟩
    exact List.le_of_mem_argmin (f := fun e : Int × L.Header => L.getHashString e.2)
      (hs.mem_toList.mpr (show firstValue _ (p, h').1 = some (p, h').2 from hp)) he
  · rw [hs.toList_eq hs' hl]

/-- Peers 0 and 1 propose; their first proposals are the same at both servers. -/
theorem proposal_lowest_sample :
    let h : Core.sample.Header := (⟨1, 0, 7⟩ : SampleHeader)
    let h' : Core.sample.Header := (⟨1, 0, 8⟩ : SampleHeader)
    let s : Recorded Core.sample := run (Recorded.step 2) Recorded.init
      [.call (.propose 0 h'), .call (.propose 1 h), .call (.propose 1 h')]
    let s' : Recorded Core.sample := run (Recorded.step 2) Recorded.init
      [.call (.propose 1 h), .call (.propose 0 h'), .call (.propose 0 h)]
    s.server.selectProposedBlockHeader = some h ∧ s'.server.selectProposedBlockHeader = some h := by
  intro h h' s s'
  have hl : ∀ p, firstValue (proposals s.calls) p = firstValue (proposals s'.calls) p := by
    intro p
    rw [show proposals s.calls = [((0 : Int), h'), (1, h), (1, h')] from rfl,
      show proposals s'.calls = [((1 : Int), h), (0, h'), (0, h)] from rfl]
    simp only [firstValue_cons]
    grind
  have hs : s.server.selectProposedBlockHeader = some h := by decide
  exact ⟨hs, ((proposal_lowest _ _).2.2 hl).symm.trans hs⟩

/-! ## The elected header -/

theorem FirstOfPeers.voteBox_size_le {s : Recorded L} (hs : FirstOfPeers n Call.vote? s) :
    s.server.voteBox.size ≤ n := by
  simpa using size_le_card (ofPeers_firsts hs.voted hs.ofPeers)

/-- With different hashes for different headers, the header is elected whose hash
has the votes. -/
theorem elected_iff_votes {s : BcpServer L} (hinj : Function.Injective L.getHeaderHash) (ht : Tally s)
    (hn : s.voteBox.size ≤ n) {v : L.Header} : s.getElectedBlockHeader n = some v ↔
      qualifyVotes n ≤ valueCount s.voteBox fun w => L.getHeaderHash w = L.getHeaderHash v := by
  rw [← ht.vote]
  refine ⟨elected_votes ht hn, fun hq => (elected_iff ht hn).mpr ⟨_, hq, ?_⟩⟩
  obtain ⟨w, hw⟩ := exists_voteHeader ht hq
  rw [hw, hinj (ht.header _ _ hw)]

/-- A call that is no clear leaves an elected header elected. -/
theorem elected_perform {s : BcpServer L} (ht : Tally s) (hn : s.voteBox.size ≤ n) {c : Call L}
    (hn' : (c.perform n s).voteBox.size ≤ n) (hc : c ≠ .clear) {v : L.Header}
    (h : s.getElectedBlockHeader n = some v) : (c.perform n s).getElectedBlockHeader n = some v := by
  cases c with
  | vote p w => exact elected_vote ht hn hn' h
  | newRound p r =>
    simp only [Call.perform]
    rcases s.newRound_cases p r with he | ⟨-, he⟩ <;> rw [he] <;> exact h
  | propose p hd =>
    simp only [Call.perform]
    rcases s.propose_cases p hd with he | ⟨-, he⟩ <;> rw [he] <;> exact h
  | userHeader a hd =>
    simp only [Call.perform]
    rcases s.userHeader_cases a hd with he | ⟨-, he⟩ <;> rw [he] <;> exact h
  | commit p b =>
    simp only [Call.perform]
    rcases s.verified_cases n p b with he | ⟨-, -, he⟩ <;> rw [he] <;> exact h
  | clear => exact absurd rfl hc
  | candidate b => exact h
  | myVote hd => exact h

/-- With votes of the `n` peers alone, at most one hash has the votes that elect.
An elected header stays elected until a clear, whatever comes; and it is the same
at all servers to which every peer's first vote is the same. -/
theorem election_stable (hinj : Function.Injective L.getHeaderHash) (es es' : List (Event L))
    (h : ∀ e ∈ es, ∀ c ∈ e.calls, c.OfPeers n Call.vote?)
    (h' : ∀ e ∈ es', ∀ c ∈ e.calls, c.OfPeers n Call.vote?) :
    let s : Recorded L := run (Recorded.step n) Recorded.init es
    let s' : Recorded L := run (Recorded.step n) Recorded.init es'
    (∀ x y, n / 2 + 1 ≤ s.server.voteCounts.getD x 0 → n / 2 + 1 ≤ s.server.voteCounts.getD y 0 → x = y) ∧
      (∀ v, s.server.getElectedBlockHeader n = some v →
        ∀ later : List (Event L), (∀ e ∈ later, ∀ c ∈ e.calls, c.OfPeers n Call.vote? ∧ c ≠ .clear) →
          (run (Recorded.step n) s later).server.getElectedBlockHeader n = some v) ∧
      ((∀ p, firstValue (votes s.calls) p = firstValue (votes s'.calls) p) →
        s.server.getElectedBlockHeader n = s'.server.getElectedBlockHeader n) := by
  intro s s'
  have hs : FirstOfPeers n Call.vote? s := firstOfPeers_run h
  have hs' : FirstOfPeers n Call.vote? s' := firstOfPeers_run h'
  refine ⟨fun x y hx hy => elected_unique hs.tally hs.voteBox_size_le hx hy, fun v hv later hl => ?_,
    fun hl => ?_⟩
  · refine (Recorded.run_inv_calls (I := fun s : Recorded L => FirstOfPeers n Call.vote? s ∧
      s.server.getElectedBlockHeader n = some v) (P := fun _ c => c.OfPeers n Call.vote? ∧ c ≠ .clear)
      (fun s c hs hc => ?_) (fun s tc st hs => ⟨hs.1.setClock tc st, hs.2⟩) ⟨hs, hv⟩
      (Recorded.alongCalls_of_forall hl)).2
    have hs' : FirstOfPeers n Call.vote? (s.call n c) := hs.1.call hc.1
    exact ⟨hs', elected_perform hs.1.tally hs.1.voteBox_size_le hs'.voteBox_size_le hc.2 hs.2⟩
  · have hbox : s.server.voteBox.toList = s'.server.voteBox.toList := hs.voted.toList_eq hs'.voted hl
    refine Option.ext fun v => ?_
    rw [elected_iff_votes hinj hs.tally hs.voteBox_size_le, elected_iff_votes hinj hs'.tally hs'.voteBox_size_le,
      valueCount, valueCount, hbox]

/-- Peers 0 and 1 of three elect a header, and the vote of peer 2 for another one
leaves it elected. -/
theorem election_stable_sample :
    let v : Core.sample.Header := (⟨1, 0, 7⟩ : SampleHeader)
    let w : Core.sample.Header := (⟨1, 0, 8⟩ : SampleHeader)
    let s : Recorded Core.sample :=
      run (Recorded.step 3) Recorded.init [.call (.vote 0 v), .call (.vote 1 v), .call (.vote 0 w)]
    s.server.getElectedBlockHeader 3 = some v ∧
      (run (Recorded.step 3) s [.call (.vote 2 w), .call (.vote 1 w)]).server.getElectedBlockHeader 3 = some v := by
  intro v w s
  have hs : s.server.getElectedBlockHeader 3 = some v := by decide
  exact ⟨hs, (election_stable (n := 3) Core.sample_getHeaderHash_injective _ [] (by decide)
    (by decide)).2.1 v hs _ (by simp [Event.calls, Call.OfPeers, Call.vote?])⟩

/-! ## The round that starts -/

/-- The round that starts was announced by each of the `n` peers. -/
theorem newRoundStartFor_unanimous {s : BcpServer L} (ht : Tally s)
    (hreg : ∀ (p : Int) r, s.newRoundMessages[p]? = some r → p ∈ Finset.Ico (0 : Int) n) {r : Nat}
    (h : s.newRoundStartFor n = some r) {p : Int} (hp : p ∈ Finset.Ico (0 : Int) n) :
    s.newRoundMessages[p]? = some r := by
  obtain ⟨e, he, rfl⟩ := Option.map_eq_some_iff.mp h
  have hn := List.find?_some he
  simp only [Bool.and_eq_true, decide_eq_true_eq] at hn
  have hcount : n ≤ valueCount s.newRoundMessages fun v => id v = e.1 := by
    rw [← ht.newRound e.1, getD_eq_of_mem_toList (List.mem_of_find?_eq_some he)]
    exact hn.1
  have hsize : s.newRoundMessages.size ≤ n := by simpa using size_le_card hreg
  have hcard : (Finset.Ico (0 : Int) n).card ≤ s.newRoundMessages.size := by
    have := hcount.trans (valueCount_le (m := s.newRoundMessages) (p := fun v => id v = e.1))
    simpa using this
  obtain ⟨v, hv⟩ := mem_of_card_le_size hreg hcard hp
  have hve := all_of_valueCount (hsize.trans hcount) hv
  rw [hv, ← show v = e.1 by simpa using hve]

/-- A round starts exactly if each of the `n` peers announced it. -/
theorem newRoundStartFor_iff (hn : 0 < n) {s : BcpServer L} (ht : Tally s)
    (hreg : ∀ (p : Int) r, s.newRoundMessages[p]? = some r → p ∈ Finset.Ico (0 : Int) n) {r : Nat} :
    s.newRoundStartFor n = some r ↔ 0 < r ∧ ∀ p ∈ Finset.Ico (0 : Int) n, s.newRoundMessages[p]? = some r := by
  refine ⟨fun h => ⟨BcpServer.newRoundStartFor_pos h, fun p => newRoundStartFor_unanimous ht hreg h⟩, ?_⟩
  rintro ⟨hr, hall⟩
  -- All peers are counted for `r`, so some round starts, and they announced that.
  have hcount : n ≤ s.newRoundVotes.getD r 0 := by
    rw [ht.newRound r, valueCount_eq_ncard]
    have hsub : (↑(Finset.Ico (0 : Int) n) : Set Int) ⊆
        {p | ∃ v, s.newRoundMessages[p]? = some v ∧ decide (id v = r) = true} :=
      fun p hp => ⟨r, hall p (Finset.mem_coe.mp hp), by simp⟩
    have hfin : {p : Int | ∃ v, s.newRoundMessages[p]? = some v ∧ decide (id v = r) = true}.Finite :=
      (Finset.Ico (0 : Int) n).finite_toSet.subset fun p hp => Finset.mem_coe.mpr (hreg p _ hp.choose_spec.1)
    have := Set.ncard_le_ncard hsub hfin
    rwa [Set.ncard_coe_finset, Int.card_Ico, Int.sub_zero, Int.toNat_natCast] at this
  obtain ⟨e, he⟩ : ∃ e, s.newRoundVotes.toList.find? (fun e => n ≤ e.2 && invalidBlockIndex < e.1) = some e := by
    refine Option.isSome_iff_exists.mp (List.find?_isSome.mpr ⟨(r, s.newRoundVotes.getD r 0), ?_, ?_⟩)
    · rw [mem_toList, TreeMap.getD_eq_getD_getElem?]
      cases hc : s.newRoundVotes[r]? with
      | none =>
        rw [TreeMap.getD_eq_getD_getElem?, hc] at hcount
        exact absurd hcount (Nat.not_le.mpr hn)
      | some c => rfl
    · rw [Bool.and_eq_true, decide_eq_true_eq, decide_eq_true_eq]
      exact ⟨hcount, hr⟩
  have hstart : s.newRoundStartFor n = some e.1 := by
    rw [BcpServer.newRoundStartFor, he]
    rfl
  have h0 : (0 : Int) ∈ Finset.Ico (0 : Int) n := Finset.mem_Ico.mpr (by omega)
  rw [hstart, ← newRoundStartFor_unanimous ht hreg hstart h0, hall 0 h0]

/-- With announcements of the `n` peers alone, a round starts exactly if it is
positive and each of them announced it first since the last clear; so no two rounds
can start, and the same one does at all servers to which every peer's first
announcement is the same. A poll takes a server out of waiting for such a round
only. -/
theorem round_unanimous (hn : 0 < n) (es es' : List (Event L))
    (h : ∀ e ∈ es, ∀ c ∈ e.calls, c.OfPeers n Call.announcement?)
    (h' : ∀ e ∈ es', ∀ c ∈ e.calls, c.OfPeers n Call.announcement?) :
    let s : Recorded L := run (Recorded.step n) Recorded.init es
    let s' : Recorded L := run (Recorded.step n) Recorded.init es'
    let Unanimous (r : Nat) := 0 < r ∧ ∀ p : Int, 0 ≤ p → p < n → firstValue (announcements s.calls) p = some r
    (∀ r, s.server.newRoundStartFor n = some r ↔ Unanimous r) ∧
      (∀ r r', Unanimous r → Unanimous r' → r = r') ∧
      ((∀ p, firstValue (announcements s.calls) p = firstValue (announcements s'.calls) p) →
        s.server.newRoundStartFor n = s'.server.newRoundStartFor n) ∧
      ∀ t cs, s.server.currentStep = .waiting → (s.step n (.poll t cs)).server.currentStep ≠ .waiting →
        ∃ r, Unanimous r ∧ poll n t s.server = .newRoundStart r := by
  intro s s' Unanimous
  have hs : FirstOfPeers n Call.announcement? s := firstOfPeers_run h
  have hs' : FirstOfPeers n Call.announcement? s' := firstOfPeers_run h'
  have hiff : ∀ r, s.server.newRoundStartFor n = some r ↔ Unanimous r := by
    intro r
    rw [newRoundStartFor_iff hn hs.tally (ofPeers_firsts hs.announced hs.ofPeers)]
    refine and_congr_right fun _ => forall_congr' fun p => ?_
    rw [Finset.mem_Ico, and_imp, hs.announced]
  have hiff' : ∀ r, s'.server.newRoundStartFor n = some r ↔
      0 < r ∧ ∀ p ∈ Finset.Ico (0 : Int) n, s'.server.newRoundMessages[p]? = some r :=
    fun r => newRoundStartFor_iff hn hs'.tally (ofPeers_firsts hs'.announced hs'.ofPeers)
  refine ⟨hiff, fun r r' hr hr' => ?_, fun hl => ?_, fun t cs hw hstep => ?_⟩
  · exact Option.some.inj (((hiff r).mpr hr).symm.trans ((hiff r').mpr hr'))
  · refine Option.ext fun r => ?_
    rw [hiff, hiff']
    refine and_congr_right fun _ => forall_congr' fun p => ?_
    rw [Finset.mem_Ico, and_imp, hs'.announced, hl]
  · rw [Recorded.step_currentStep] at hstep
    obtain ⟨r, hp⟩ := poll_leaves_waiting hw hstep
    exact ⟨r, (hiff r).mp (poll_newRoundStart hp).2.2.2, hp⟩

/-- Both peers announce round 4, one of them another round after it. -/
theorem round_unanimous_sample :
    let s : Recorded Core.sample := run (Recorded.step 2) Recorded.init
      [.call (.newRound 1 4), .call (.newRound 1 5), .call (.newRound 0 4)]
    s.server.newRoundStartFor 2 = some 4 ∧ ∀ p : Int, 0 ≤ p → p < 2 →
      firstValue (announcements s.calls) p = some 4 := by
  intro s
  have hs : s.server.newRoundStartFor 2 = some 4 := by decide
  exact ⟨hs, (((round_unanimous (n := 2) (by decide) _ [] (by decide) (by decide)).1 4).mp hs).2⟩

end Bryllite.NodeServerMono
