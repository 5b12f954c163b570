import Bryllite.NodeServerMono.Delivery

/-!
# The boxes of a round

The proposals, votes and verified blocks of a server, without the rest of its
state. What a call makes of them depends on them alone (`Call.boxes_perform`).
-/

namespace Bryllite.NodeServerMono

open Bryllite.Framework
open Std (TreeMap)

/-- What a server records of the messages of a round. -/
structure Boxes (L : Core) where
  proposedBlockHeaders : TreeMap Int L.Header := ∅
  voteBox : TreeMap Int L.Header := ∅
  voteHeaders : TreeMap L.Hash L.Header := ∅
  voteCounts : TreeMap L.Hash Nat := ∅
  verifiedBlocks : TreeMap Int L.Blk := ∅

variable {L : Core} {n : Nat}

/-- The boxes of a server. -/
def BcpServer.boxes (s : BcpServer L) : Boxes L where
  proposedBlockHeaders := s.proposedBlockHeaders
  voteBox := s.voteBox
  voteHeaders := s.voteHeaders
  voteCounts := s.voteCounts
  verifiedBlocks := s.verifiedBlocks

/-- All boxes are empty. -/
def BcpServer.BoxesEmpty (s : BcpServer L) : Prop :=
  s.proposedBlockHeaders.isEmpty ∧ s.voteBox.isEmpty ∧ s.voteHeaders.isEmpty ∧ s.voteCounts.isEmpty ∧
    s.verifiedBlocks.isEmpty

instance : DecidablePred (BcpServer.BoxesEmpty (L := L)) :=
  fun _ => inferInstanceAs (Decidable (_ ∧ _))

theorem BcpServer.boxesEmpty_iff {s : BcpServer L} : s.BoxesEmpty ↔ s.boxes = {} := by
  constructor
  · intro ⟨h1, h2, h3, h4, h5⟩
    simp only [boxes, eq_empty_of_isEmpty h1, eq_empty_of_isEmpty h2, eq_empty_of_isEmpty h3,
      eq_empty_of_isEmpty h4, eq_empty_of_isEmpty h5]
  · intro h
    obtain ⟨h1, h2, h3, h4, h5⟩ := Boxes.mk.inj h
    rw [BoxesEmpty, h1, h2, h3, h4, h5]
    exact ⟨rfl, rfl, rfl, rfl, rfl⟩

namespace Boxes

/-- A server with these boxes. -/
def server (b : Boxes L) : BcpServer L where
  proposedBlockHeaders := b.proposedBlockHeaders
  voteBox := b.voteBox
  voteHeaders := b.voteHeaders
  voteCounts := b.voteCounts
  verifiedBlocks := b.verifiedBlocks

/-- What a call makes of the boxes. -/
def record (n : Nat) (b : Boxes L) (c : Call L) : Boxes L := (c.perform n b.server).boxes

/-- The header that the boxes elect. -/
def elected (n : Nat) (b : Boxes L) : Option L.Header := b.server.getElectedBlockHeader n

end Boxes

/-- What a call makes of the boxes does not depend on the rest of the server. -/
theorem Call.boxes_perform (s : BcpServer L) (c : Call L) :
    (c.perform n s).boxes = s.boxes.record n c := by
  have he : s.boxes.server.getElectedBlockHeader n = s.getElectedBlockHeader n := rfl
  unfold Boxes.record
  cases c with
  | newRound p r =>
    simp only [perform]
    rcases s.newRound_cases p r with h | ⟨-, h⟩ <;>
      rcases s.boxes.server.newRound_cases p r with h' | ⟨-, h'⟩ <;> rw [h, h'] <;> rfl
  | userHeader a h =>
    simp only [perform]
    rcases s.userHeader_cases a h with h | ⟨-, h⟩ <;>
      rcases s.boxes.server.userHeader_cases a _ with h' | ⟨-, h'⟩ <;> rw [h, h'] <;> rfl
  | propose p h =>
    by_cases hp : s.proposedBlockHeaders.contains p <;>
      simp [perform, BcpServer.appendProposedBlockHeaderFor, Boxes.server, BcpServer.boxes, hp]
  | vote p h =>
    by_cases hp : s.voteBox.contains p <;>
      simp [perform, BcpServer.voteBlockHeaderFor, Boxes.server, BcpServer.boxes, hp]
  | commit p b =>
    simp only [perform, BcpServer.addVerifiedBlock, he]
    by_cases hp : s.verifiedBlocks.contains p
    · simp [Boxes.server, BcpServer.boxes, hp]
    · by_cases hb : s.getElectedBlockHeader n = some b.header <;>
        simp [Boxes.server, BcpServer.boxes, hp, hb]
  | clear => rfl
  | candidate b => rfl
  | myVote h => rfl

/-- Announcements are not kept in the boxes. -/
theorem Boxes.record_newRound (b : Boxes L) (p : Int) (r : Nat) : b.record n (.newRound p r) = b := by
  unfold Boxes.record Call.perform
  rcases b.server.newRound_cases p r with h | ⟨-, h⟩ <;> simp only [h] <;> rfl

theorem Call.boxes_run (s : BcpServer L) (cs : List (Call L)) :
    (run (Call.perform n) s cs).boxes = run (Boxes.record n) s.boxes cs := by
  induction cs generalizing s with
  | nil => rfl
  | cons c cs ih => rw [run_cons, run_cons, ih, Call.boxes_perform]

theorem NodeManager.main_boxes {w : NodeManager L n} {i : Fin n} {t : Nat} (k : Fin n) :
    ((w.main (i, t)).server k).boxes = run (Boxes.record n) (w.server k).boxes (w.callsAt i t k) := by
  obtain ⟨tc, h⟩ := w.main_server i t k
  rw [h]
  exact Call.boxes_run (w.server k) (w.callsAt i t k)

end Bryllite.NodeServerMono
