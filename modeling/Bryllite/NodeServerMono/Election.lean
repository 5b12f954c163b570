import Bryllite.NodeServerMono.Tally
import Mathlib.Data.Int.ConditionallyCompleteOrder
import Mathlib.Data.Int.Interval

/-!
# Commits follow an election

Among `n` peers at most one hash has the votes that elect
(`elected_unique`), and it keeps them until a clear: so later votes leave an
elected header as it is (`elected_vote`), and every verified block has the
header that is elected now. `Elect` is this with what it rests on, and the
field `_commit_block`, which no clear resets: while a block is verified, it is
one of the verified blocks.
-/

namespace Bryllite.NodeServerMono

open Bryllite.Framework
open Std (TreeMap)
open BcpServer (qualifyVotes)

variable {L : Core} {n : Nat}

/-! ## The elected header -/

section Elected

variable {s : BcpServer L}

theorem getD_eq_of_mem_toList {κ : Type} [LinearOrder κ] {m : TreeMap κ Nat} {e : κ × Nat}
    (h : e ∈ m.toList) : m.getD e.1 0 = e.2 := by
  rw [TreeMap.getD_eq_getD_getElem?, mem_toList.mp h, Option.getD_some]

/-- No two hashes have the votes that elect. -/
theorem elected_unique (ht : Tally s) (hn : s.voteBox.size ≤ n) {h h' : L.Hash}
    (hh : qualifyVotes n ≤ s.voteCounts.getD h 0) (hh' : qualifyVotes n ≤ s.voteCounts.getD h' 0) :
    h = h' := by
  by_contra hne
  rw [ht.vote h] at hh
  rw [ht.vote h'] at hh'
  have := valueCount_add_le (m := s.voteBox) (p := fun v => L.getHeaderHash v = h)
    (q := fun v => L.getHeaderHash v = h') fun v hv => by
      simp only [decide_eq_true_eq, decide_eq_false_iff_not] at hv ⊢
      rw [hv]; exact hne
  unfold qualifyVotes at hh hh'
  omega

theorem exists_voteHeader (ht : Tally s) {h : L.Hash} (hh : qualifyVotes n ≤ s.voteCounts.getD h 0) :
    ∃ v, s.voteHeaders[h]? = some v := by
  have : h ∈ s.voteHeaders := (ht.counted h).mpr (by unfold qualifyVotes at hh; omega)
  exact ⟨_, TreeMap.getElem?_eq_some_getElem this⟩

/-- The elected header is the one kept for the hash that has the votes. -/
theorem elected_iff (ht : Tally s) (hn : s.voteBox.size ≤ n) {v : L.Header} :
    s.getElectedBlockHeader n = some v ↔
      ∃ h, qualifyVotes n ≤ s.voteCounts.getD h 0 ∧ s.voteHeaders[h]? = some v := by
  unfold BcpServer.getElectedBlockHeader
  rw [Option.map_eq_some_iff]
  constructor
  · rintro ⟨e, he, hv⟩
    have hq : qualifyVotes n ≤ s.voteCounts.getD e.1 0 := by
      rw [getD_eq_of_mem_toList (List.mem_of_find?_eq_some he)]
      simpa using List.find?_some he
    obtain ⟨w, hw⟩ := exists_voteHeader ht hq
    rw [TreeMap.getD_eq_getD_getElem?, hw, Option.getD_some] at hv
    exact ⟨e.1, hq, by rw [hw, hv]⟩
  · rintro ⟨h, hq, hv⟩
    have hc : s.voteCounts[h]? = some (s.voteCounts.getD h 0) := by
      cases hc : s.voteCounts[h]? with
      | none =>
        rw [TreeMap.getD_eq_getD_getElem?, hc] at hq
        simp [qualifyVotes] at hq
      | some c => rw [TreeMap.getD_eq_getD_getElem?, hc, Option.getD_some]
    obtain ⟨e, he⟩ : ∃ e, s.voteCounts.toList.find? (fun e => qualifyVotes n ≤ e.2) = some e := by
      refine Option.isSome_iff_exists.mp (List.find?_isSome.mpr ⟨(h, _), mem_toList.mpr hc, ?_⟩)
      exact decide_eq_true hq
    have hq' : qualifyVotes n ≤ s.voteCounts.getD e.1 0 := by
      rw [getD_eq_of_mem_toList (List.mem_of_find?_eq_some he)]
      simpa using List.find?_some he
    obtain rfl := elected_unique ht hn hq hq'
    exact ⟨e, he, by rw [TreeMap.getD_eq_getD_getElem?, hv, Option.getD_some]⟩

/-- The voters for an elected header are a majority. -/
theorem elected_votes (ht : Tally s) (hn : s.voteBox.size ≤ n) {v : L.Header}
    (h : s.getElectedBlockHeader n = some v) :
    qualifyVotes n ≤ s.voteCounts.getD (L.getHeaderHash v) 0 := by
  obtain ⟨h', hq, hv⟩ := (elected_iff ht hn).mp h
  rwa [ht.header _ _ hv]

/-- A later vote leaves the elected header as it is. -/
theorem elected_vote (ht : Tally s) {p : Int} {w : L.Header} (hs : s.voteBox.size ≤ n)
    (hn : ((s.voteBlockHeaderFor p w).getD s).voteBox.size ≤ n) {v : L.Header}
    (h : s.getElectedBlockHeader n = some v) :
    ((s.voteBlockHeaderFor p w).getD s).getElectedBlockHeader n = some v := by
  obtain ⟨h', hq, hv⟩ := (elected_iff ht hs).mp h
  refine (elected_iff (ht.voteBlockHeaderFor p w) hn).mpr ⟨h', ?_⟩
  rcases s.vote_cases p w with e | ⟨-, e⟩ <;> rw [e]
  · exact ⟨hq, hv⟩
  constructor
  · show _ ≤ TreeMap.getD (if _ then _ else _) h' 0
    rw [getD_count]
    omega
  · show (if _ then _ else _)[h']? = some v
    split
    · exact hv
    · rename_i hc
      rw [getElem?_insert_of_mem, if_neg, hv]
      rintro rfl
      exact hc (TreeMap.mem_iff_contains.mp (TreeMap.mem_iff_isSome_getElem?.mpr (by simp [hv])))

end Elected

/-! ## The invariant -/

/-- Votes are the peers', verified blocks have the elected header, and the
commit block is one of them. -/
structure Elect (n : Nat) (s : BcpServer L) : Prop where
  tally : Tally s
  voter (p : Int) (v : L.Header) : s.voteBox[p]? = some v → p ∈ Finset.Ico (0 : Int) n
  verified (p : Int) (b : L.Blk) : s.verifiedBlocks[p]? = some b →
    s.getElectedBlockHeader n = some b.header
  commit : s.verifiedBlocks = ∅ ∨ ∃ p : Int, s.verifiedBlocks[p]? = some s.commitBlock

namespace Elect

variable {s : BcpServer L}

theorem size_le (hs : Elect n s) : s.voteBox.size ≤ n := by
  have := size_le_card (m := s.voteBox) hs.voter
  simpa using this

/-- The maps of votes and commits and the commit block are all that is looked at. -/
theorem of_eq {s' : BcpServer L} (hs : Elect n s) (ht : Tally s') (h1 : s'.voteBox = s.voteBox)
    (h2 : s'.voteHeaders = s.voteHeaders) (h3 : s'.voteCounts = s.voteCounts)
    (h4 : s'.verifiedBlocks = s.verifiedBlocks) (h5 : s'.commitBlock = s.commitBlock) : Elect n s' where
  tally := ht
  voter := by rw [h1]; exact hs.voter
  verified := by
    simp only [h4, BcpServer.getElectedBlockHeader, h2, h3]
    exact hs.verified
  commit := by rw [h4, h5]; exact hs.commit

theorem of_empty (ht : Tally s) (h1 : s.voteBox = ∅) (h2 : s.verifiedBlocks = ∅) : Elect n s where
  tally := ht
  voter _ _ h := absurd (h1 ▸ h) getElem?_empty_ne
  verified _ _ h := absurd (h2 ▸ h) getElem?_empty_ne
  commit := .inl h2

theorem voteBlockHeaderFor (hs : Elect n s) {p : Int} (hp : p ∈ Finset.Ico (0 : Int) n) (v : L.Header) :
    Elect n ((s.voteBlockHeaderFor p v).getD s) := by
  have ht := hs.tally.voteBlockHeaderFor p v
  have hel : ∀ {w}, s.getElectedBlockHeader n = some w →
      ((s.voteBlockHeaderFor p v).getD s).voteBox.size ≤ n →
      ((s.voteBlockHeaderFor p v).getD s).getElectedBlockHeader n = some w :=
    fun h hn => elected_vote hs.tally hs.size_le hn h
  rcases s.vote_cases p v with e | ⟨-, e⟩ <;> rw [e] at ht hel ⊢
  · exact hs
  have hv : ∀ (q : Int) w, (s.voteBox.insert p v)[q]? = some w → q ∈ Finset.Ico (0 : Int) n := by
    intro q w
    rw [getElem?_insert_of_mem]
    split
    · rename_i he
      exact fun _ => he ▸ hp
    · exact hs.voter q w
  have hn : (s.voteBox.insert p v).size ≤ n := by simpa using size_le_card hv
  exact ⟨ht, hv, fun q b hq => hel (hs.verified q b hq) hn, hs.commit⟩

theorem addVerifiedBlock (hs : Elect n s) (p : Int) (b : L.Blk) :
    Elect n ((s.addVerifiedBlock n p b).getD s) := by
  rcases s.verified_cases n p b with e | ⟨-, he, e⟩ <;> rw [e]
  · exact hs
  refine ⟨hs.tally.of_eq rfl rfl rfl rfl rfl, hs.voter, fun q c => ?_, .inr ⟨p, ?_⟩⟩
  · show (s.verifiedBlocks.insert p b)[q]? = some c → s.getElectedBlockHeader n = _
    rw [getElem?_insert_of_mem]
    split
    · rintro ⟨⟩
      exact he
    · exact hs.verified q c
  · show (s.verifiedBlocks.insert p b)[p]? = some b
    rw [getElem?_insert_of_mem, if_pos rfl]

/-- Every call of a registered peer keeps the invariant. -/
theorem perform (hs : Elect n s) {c : Call L} (hc : c.Registered n) : Elect n (c.perform n s) := by
  have ht : Tally (c.perform n s) := hs.tally.perform c
  cases c with
  | newRound p r =>
    simp only [Call.perform] at ht ⊢
    rcases s.newRound_cases p r with h | ⟨-, h⟩ <;> rw [h] at ht ⊢
    · exact hs
    · exact hs.of_eq ht rfl rfl rfl rfl rfl
  | userHeader a h =>
    simp only [Call.perform] at ht ⊢
    rcases s.userHeader_cases a h with h | ⟨-, h⟩ <;> rw [h] at ht ⊢
    · exact hs
    · exact hs.of_eq ht rfl rfl rfl rfl rfl
  | propose p h =>
    simp only [Call.perform] at ht ⊢
    rcases s.propose_cases p h with h | ⟨-, h⟩ <;> rw [h] at ht ⊢
    · exact hs
    · exact hs.of_eq ht rfl rfl rfl rfl rfl
  | vote p h => exact hs.voteBlockHeaderFor (Finset.mem_Ico.mpr hc) h
  | commit p b => exact hs.addVerifiedBlock p b
  | clear => exact of_empty ht rfl rfl
  | candidate b => exact hs.of_eq ht rfl rfl rfl rfl rfl
  | myVote h => exact hs.of_eq ht rfl rfl rfl rfl rfl

theorem init : Elect n (Recorded.init (L := L)).server :=
  of_empty (Tally.empty rfl rfl rfl rfl rfl) rfl rfl

theorem setClock (hs : Elect n s) (tc : Nat) (st : BcpStep) :
    Elect n (s.setClock tc st) :=
  hs.of_eq (hs.tally.setClock tc st) rfl rfl rfl rfl rfl

/-- A block found for commit has the elected header, is verified, and its hash
has the votes of a majority. -/
theorem findCommitBlock (hs : Elect n s) {b : L.Blk} (h : s.findCommitBlock n = some b) :
    s.getElectedBlockHeader n = some b.header ∧
      qualifyVotes n ≤ s.voteCounts.getD (L.getHeaderHash b.header) 0 ∧
      ∃ p : Int, s.verifiedBlocks[p]? = some b := by
  unfold BcpServer.findCommitBlock at h
  split at h
  · rename_i hq
    cases h
    rcases hs.commit with h0 | ⟨p, hp⟩
    · rw [h0] at hq
      simp [qualifyVotes] at hq
    · have he := hs.verified p _ hp
      exact ⟨he, elected_votes hs.tally hs.size_le he, p, hp⟩
  · cases h

end Elect

theorem elect_run {es : List (Event L)} (h : ∀ e ∈ es, ∀ c ∈ e.calls, c.Registered n) :
    Elect n (run (Recorded.step n) Recorded.init es).server :=
  Recorded.run_inv_calls (I := fun s : Recorded L => Elect n s.server)
    (fun _ _ hs hc => hs.perform hc) (fun _ tc st hs => hs.setClock tc st) Elect.init
    (Recorded.alongCalls_of_forall h)

/-- In every state reached with messages of the registered peers, each
verified block has the header elected now, and so has a block found for
commit, whose hash has the recorded votes of a majority. -/
theorem commit_elected {es : List (Event L)} (h : ∀ e ∈ es, ∀ c ∈ e.calls, c.Registered n) :
    let s : BcpServer L := (run (Recorded.step n) Recorded.init es).server
    (∀ (p : Int) b, s.verifiedBlocks[p]? = some b → s.getElectedBlockHeader n = some b.header) ∧
      ∀ b, s.findCommitBlock n = some b →
        s.getElectedBlockHeader n = some b.header ∧ (∃ p : Int, s.verifiedBlocks[p]? = some b) ∧
        n / 2 + 1 ≤ {p : Int | ∃ v, s.voteBox[p]? = some v ∧
          L.getHeaderHash v = L.getHeaderHash b.header}.ncard := by
  intro s
  have hs : Elect n s := elect_run h
  refine ⟨hs.verified, fun b hb => ?_⟩
  obtain ⟨he, hq, hp⟩ := hs.findCommitBlock hb
  refine ⟨he, hp, ?_⟩
  rw [hs.tally.vote, valueCount_eq_ncard] at hq
  simpa [qualifyVotes] using hq

/-- Peers 0 and 1 of three vote for a header and commit a block with it. -/
theorem commit_elected_sample :
    let v : Core.sample.Header := (⟨1, 0, 7⟩ : SampleHeader)
    let s : BcpServer Core.sample := (run (Recorded.step 3) Recorded.init
      [.call (.vote 0 v), .call (.vote 1 v), .call (.commit 0 ⟨v, []⟩), .call (.commit 1 ⟨v, []⟩)]).server
    s.findCommitBlock 3 = some ⟨v, []⟩ ∧
      2 ≤ {p : Int | ∃ w, s.voteBox[p]? = some w ∧
        Core.sample.getHeaderHash w = Core.sample.getHeaderHash v}.ncard := by
  intro v s
  have hf : s.findCommitBlock 3 = some ⟨v, []⟩ := by decide
  exact ⟨hf, ((commit_elected (n := 3) (by decide)).2 _ hf).2.2⟩

end Bryllite.NodeServerMono
