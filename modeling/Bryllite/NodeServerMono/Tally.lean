import Bryllite.NodeServerMono.Calls

/-!
# The counters are exact

`_new_round_votes` and `_vote_counts` are kept beside the maps they summarise.
`Tally` says that they count them, and that `_vote_headers` holds a header for
exactly the counted hashes; every call keeps it (`Tally.perform`), so it holds
of every state a server reaches (`tally_run`).
-/

namespace Bryllite.NodeServerMono

open Bryllite.Framework

variable {L : Core} {n : Nat}

/-- The counters count what the maps hold. -/
structure Tally (s : BcpServer L) : Prop where
  newRound : Counts s.newRoundVotes s.newRoundMessages id
  vote : Counts s.voteCounts s.voteBox L.getHeaderHash
  /-- A header is kept under its hash, -/
  header (h : L.Hash) (v : L.Header) : s.voteHeaders[h]? = some v → L.getHeaderHash v = h
  /-- and for the counted hashes. -/
  counted (h : L.Hash) : h ∈ s.voteHeaders ↔ 0 < s.voteCounts.getD h 0

namespace Tally

variable {s : BcpServer L}

theorem empty {s : BcpServer L} (h1 : s.newRoundMessages = ∅) (h2 : s.newRoundVotes = ∅)
    (h3 : s.voteBox = ∅) (h4 : s.voteHeaders = ∅) (h5 : s.voteCounts = ∅) : Tally s where
  newRound := by rw [h1, h2]; exact Counts.empty id
  vote := by rw [h3, h5]; exact Counts.empty L.getHeaderHash
  header h v hv := absurd (h4 ▸ hv) getElem?_empty_ne
  counted h := by rw [h4, h5]; simp

/-- The counters and the maps they summarise are all that is looked at. -/
theorem of_eq {s' : BcpServer L} (hs : Tally s) (h1 : s'.newRoundMessages = s.newRoundMessages)
    (h2 : s'.newRoundVotes = s.newRoundVotes) (h3 : s'.voteBox = s.voteBox)
    (h4 : s'.voteHeaders = s.voteHeaders) (h5 : s'.voteCounts = s.voteCounts) : Tally s' where
  newRound := by rw [h1, h2]; exact hs.newRound
  vote := by rw [h3, h5]; exact hs.vote
  header := by rw [h4]; exact hs.header
  counted := by rw [h4, h5]; exact hs.counted

theorem appendNewRoundMessageFor (hs : Tally s) (p : Int) (r : Nat) :
    Tally ((s.appendNewRoundMessageFor p r).getD s) := by
  rcases s.newRound_cases p r with h | ⟨hp, h⟩ <;> rw [h]
  · exact hs
  · exact ⟨hs.newRound.insert hp r, hs.vote, hs.header, hs.counted⟩

theorem voteBlockHeaderFor (hs : Tally s) (p : Int) (v : L.Header) :
    Tally ((s.voteBlockHeaderFor p v).getD s) := by
  rcases s.vote_cases p v with h | ⟨hp, h⟩ <;> rw [h]
  · exact hs
  refine ⟨hs.newRound, hs.vote.insert hp v, fun h w => ?_, fun h => ?_⟩
  · -- The header kept under a hash is the first one voted for with it.
    show (if _ then _ else _)[h]? = some w → _
    split
    · exact hs.header h w
    · rw [getElem?_insert_of_mem]
      split
      · rename_i he
        rintro ⟨⟩
        exact he
      · exact hs.header h w
  · show h ∈ (if _ then _ else _) ↔ 0 < Std.TreeMap.getD (if _ then _ else _) h 0
    rw [getD_count]
    split
    · -- The hash was counted already.
      rename_i hc
      rw [hs.counted h]
      have := (hs.counted (L.getHeaderHash v)).mp hc
      split
      · rename_i he
        rw [he] at this
        omega
      · rfl
    · rw [Std.TreeMap.mem_insert, Std.LawfulEqCmp.compare_eq_iff_eq, hs.counted h]
      split <;> simp_all

/-- Every call keeps the counters exact. -/
theorem perform (hs : Tally s) (c : Call L) : Tally (c.perform n s) := by
  cases c with
  | newRound p r => exact hs.appendNewRoundMessageFor p r
  | userHeader a h =>
    show Tally ((s.appendUserBlockHeaderFor a h).getD s)
    rcases s.userHeader_cases a h with h | ⟨-, h⟩ <;> rw [h]
    · exact hs
    · exact hs.of_eq rfl rfl rfl rfl rfl
  | propose p h =>
    show Tally ((s.appendProposedBlockHeaderFor p h).getD s)
    rcases s.propose_cases p h with h | ⟨-, h⟩ <;> rw [h]
    · exact hs
    · exact hs.of_eq rfl rfl rfl rfl rfl
  | vote p h => exact hs.voteBlockHeaderFor p h
  | commit p b =>
    show Tally ((s.addVerifiedBlock n p b).getD s)
    rcases s.verified_cases n p b with h | ⟨-, -, h⟩ <;> rw [h]
    · exact hs
    · exact hs.of_eq rfl rfl rfl rfl rfl
  | clear => exact empty rfl rfl rfl rfl rfl
  | candidate b => exact hs.of_eq rfl rfl rfl rfl rfl
  | myVote h => exact hs.of_eq rfl rfl rfl rfl rfl

theorem setClock (hs : Tally s) (tc : Nat) (st : BcpStep) :
    Tally (s.setClock tc st) := hs.of_eq rfl rfl rfl rfl rfl

end Tally

theorem tally_run (es : List (Event L)) : Tally (run (Recorded.step n) Recorded.init es).server :=
  Recorded.run_inv_calls (I := fun s : Recorded L => Tally s.server) (P := fun _ _ => True)
    (fun _ c hs _ => hs.perform c) (fun _ tc st hs => hs.setClock tc st)
    (Tally.empty rfl rfl rfl rfl rfl) (Recorded.alongCalls_of_forall fun _ _ _ _ => trivial)

/-- After any calls with any arguments and any polls, `_new_round_votes` and
`_vote_counts` are the numbers of peers that announced a round and that voted
for a hash, and `_vote_headers` holds a header of each hash voted for. -/
theorem tally_exact (es : List (Event L)) :
    let s : BcpServer L := (run (Recorded.step n) Recorded.init es).server
    (∀ r, s.newRoundVotes.getD r 0 = {p : Int | s.newRoundMessages[p]? = some r}.ncard) ∧
      (∀ h, s.voteCounts.getD h 0 = {p : Int | ∃ v, s.voteBox[p]? = some v ∧ L.getHeaderHash v = h}.ncard) ∧
      (∀ h, h ∈ s.voteHeaders ↔ 0 < s.voteCounts.getD h 0) ∧
      ∀ h v, s.voteHeaders[h]? = some v → L.getHeaderHash v = h := by
  intro s
  have ht : Tally s := tally_run es
  refine ⟨fun r => ?_, fun h => ?_, ht.counted, ht.header⟩
  · rw [ht.newRound r, valueCount_eq_ncard]
    simp
  · rw [ht.vote h, valueCount_eq_ncard]
    simp

end Bryllite.NodeServerMono
