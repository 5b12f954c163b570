import Bryllite.Framework.Rounds
import Bryllite.NodeServerMono.Boxes
import Bryllite.NodeServerMono.Election

/-!
# The boxes as a ballot

What agreement needs of the boxes of a server: among boxes that hold headers
of one index only, whatever is elected stays elected (`ballot`). A message
that fits the round for an index is a proposal or a vote for a header of that
index, or a commit; commits carry any header, as only an elected one counts.
-/

namespace Bryllite.NodeServerMono

open Bryllite.Framework
open BcpServer (qualifyVotes)

variable {L : Core} {n : Nat}

/-- A message of a registered peer in the round for the index `r`. -/
def Call.Fits (n r : Nat) : Call L → Prop
  | .propose p h | .vote p h => p ∈ Finset.Ico (0 : Int) n ∧ L.blockIndex h = r
  | .commit p _ => p ∈ Finset.Ico (0 : Int) n
  | _ => False

namespace Boxes

/-- Boxes of exact counts, with votes of registered peers, and headers of the
index `r` alone. -/
structure About (n r : Nat) (b : Boxes L) : Prop where
  tally : Tally b.server
  voter (p : Int) (v : L.Header) : b.voteBox[p]? = some v → p ∈ Finset.Ico (0 : Int) n
  proposed (p : Int) (h : L.Header) : b.proposedBlockHeaders[p]? = some h → L.blockIndex h = r
  voteHeader (x : L.Hash) (h : L.Header) : b.voteHeaders[x]? = some h → L.blockIndex h = r

variable {r : Nat} {b : Boxes L} {c : Call L}

theorem About.empty : About n r ({} : Boxes L) where
  tally := Tally.empty rfl rfl rfl rfl rfl
  voter _ _ h := absurd h getElem?_empty_ne
  proposed _ _ h := absurd h getElem?_empty_ne
  voteHeader _ _ h := absurd h getElem?_empty_ne

theorem About.size_le (hb : About n r b) : b.voteBox.size ≤ n := by
  have := size_le_card (m := b.voteBox) hb.voter
  simpa using this

/-- The tally of a server is that of its boxes, and of its announcements. -/
theorem tally_boxes {s : BcpServer L} (hs : Tally s) : Tally s.boxes.server :=
  ⟨Counts.empty id, hs.vote, hs.header, hs.counted⟩

theorem About.record (hb : About n r b) (hc : c.Fits n r) : About n r (b.record n c) := by
  have ht : Tally (b.record n c).server := tally_boxes (hb.tally.perform c)
  suffices hs : (∀ (p : Int) v, (b.record n c).voteBox[p]? = some v → p ∈ Finset.Ico (0 : Int) n) ∧
      (∀ (p : Int) h, (b.record n c).proposedBlockHeaders[p]? = some h → L.blockIndex h = r) ∧
      ∀ x h, (b.record n c).voteHeaders[x]? = some h → L.blockIndex h = r from
    ⟨ht, hs.1, hs.2.1, hs.2.2⟩
  cases c with
  | propose p h =>
    simp only [Boxes.record, Call.perform]
    rcases b.server.propose_cases p h with he | ⟨-, he⟩ <;> rw [he]
    · exact ⟨hb.voter, hb.proposed, hb.voteHeader⟩
    · exact ⟨hb.voter, forall_insert hc.2 hb.proposed, hb.voteHeader⟩
  | vote p h =>
    simp only [Boxes.record, Call.perform]
    rcases b.server.vote_cases p h with he | ⟨-, he⟩ <;> rw [he]
    · exact ⟨hb.voter, hb.proposed, hb.voteHeader⟩
    · refine ⟨fun q v => ?_, hb.proposed, fun x v => ?_⟩
      · show (b.voteBox.insert p h)[q]? = some v → _
        rw [getElem?_insert_of_mem]
        split
        · rename_i hq
          exact fun _ => hq ▸ hc.1
        · exact hb.voter q v
      · show (if _ then _ else _)[x]? = some v → _
        split
        · exact hb.voteHeader x v
        · exact forall_insert (P := fun h => L.blockIndex h = r) hc.2 hb.voteHeader x v
  | commit p v =>
    simp only [Boxes.record, Call.perform]
    rcases b.server.verified_cases n p v with he | ⟨-, -, he⟩ <;> rw [he] <;>
      exact ⟨hb.voter, hb.proposed, hb.voteHeader⟩
  | newRound | userHeader | clear | candidate | myVote => exact hc.elim

theorem About.elected_record (hb : About n r b) (hc : c.Fits n r) {h : L.Header}
    (h0 : b.elected n = some h) : (b.record n c).elected n = some h := by
  have hn := (hb.record hc).size_le
  cases c with
  | propose p h' =>
    simp only [Boxes.record, Call.perform]
    rcases b.server.propose_cases p h' with he | ⟨-, he⟩ <;> rw [he] <;> exact h0
  | vote p h' => exact elected_vote hb.tally hb.size_le hn h0
  | commit p v => exact (NodeManager.elected_addVerifiedBlock b.server p v).trans h0
  | newRound | userHeader | clear | candidate | myVote => exact hc.elim

/-- A box into which a message was put is not empty. -/
theorem eq_empty_of_record (hc : c.Fits n r) (h0 : b.record n c = {}) : b = {} := by
  cases c with
  | propose p h =>
    simp only [Boxes.record, Call.perform] at h0
    rcases b.server.propose_cases p h with he | ⟨-, he⟩ <;> rw [he] at h0
    · exact h0
    · exact absurd (Boxes.mk.inj h0).1 (insert_ne_empty _ _ _)
  | vote p h =>
    simp only [Boxes.record, Call.perform] at h0
    rcases b.server.vote_cases p h with he | ⟨-, he⟩ <;> rw [he] at h0
    · exact h0
    · exact absurd (Boxes.mk.inj h0).2.1 (insert_ne_empty _ _ _)
  | commit p v =>
    simp only [Boxes.record, Call.perform] at h0
    rcases b.server.verified_cases n p v with he | ⟨-, -, he⟩ <;> rw [he] at h0
    · exact h0
    · exact absurd (Boxes.mk.inj h0).2.2.2.2 (insert_ne_empty _ _ _)
  | newRound | userHeader | clear | candidate | myVote => exact hc.elim

/-- The boxes of the servers of `n` nodes as a ballot. -/
def ballot (L : Core) (n : Nat) : Rounds.Ballot (Boxes L) (Call L) L.Header where
  empty := {}
  record := record n
  elected := elected n
  About := About n
  Fits := Call.Fits n
  about_empty _ := .empty
  about_record := About.record
  elected_empty := rfl
  elected_record hb hc h := hb.elected_record hc h
  eq_empty_of_record := eq_empty_of_record

/-- What is elected carries the index that the boxes are about. -/
theorem About.blockIndex_elected (hb : About n r b) {h : L.Header} (h0 : b.elected n = some h) :
    L.blockIndex h = r := by
  obtain ⟨x, -, hx⟩ := (elected_iff hb.tally hb.size_le).mp h0
  exact hb.voteHeader x h hx

end Boxes

end Bryllite.NodeServerMono
