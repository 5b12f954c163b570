import Bryllite.Framework.Indexed
import Bryllite.NodeServerMono.Ballot
import Bryllite.NodeServerMono.Decisions

/-!
# The nodes as nodes of rounds

`NodeManager.node` is what agreement looks at of a node: whether it is in a
round, what was announced to it, its boxes, and the headers on its chain.
`main_node` says what a poll changes of that, and `newRoundStartFor_all` that
a round starts only once every node has announced it.
-/

namespace Bryllite.NodeServerMono

open Bryllite.Framework
open NodeManager (peerId)

variable {L : Core} {n : Nat}

/-! ## The headers of a chain -/

namespace BlockChain

variable {c : BlockChain L} {b : L.Blk}

/-- The headers of the blocks at the indices up to the height. -/
def headers (c : BlockChain L) : List L.Header := (entries L.defaultBlock c.mapBlocks).map Block.header

theorem length_headers (c : BlockChain L) : c.headers.length = c.height := by
  rw [headers, List.length_map, length_entries]
  rfl

/-- A block with the next index extends the headers by its own, if it is appended. -/
theorem headers_append (hc : Contiguous c.mapBlocks) (hb : L.blockIndex b.header = c.height + 1) :
    c.append b = c ∨ Contiguous (c.append b).mapBlocks ∧ (c.append b).headers = c.headers ++ [b.header] := by
  rcases c.append_cases b with h | h
  · exact .inl h
  · right
    have hm := (appendBlock_eq_some h).2.2.1
    rw [hb] at hm
    obtain ⟨h1, h2⟩ := hc.insert (d := L.defaultBlock) b
    rw [headers, hm]
    refine ⟨h1, (congrArg (List.map Block.header) h2).trans ?_⟩
    rw [List.map_append]
    rfl

theorem getElem?_headers (hc : Contiguous c.mapBlocks) {i : Nat} (h : c.getBlock i = some b) :
    c.headers[i - 1]? = some b.header := by
  rw [headers, List.getElem?_map, (hc.getElem?_entries h).2]
  rfl

end BlockChain

/-! ## Announcements -/

/-- The first announcement of a peer counts. -/
theorem getElem?_newRound (s : BcpServer L) (p q : Int) (r : Nat) :
    ((s.appendNewRoundMessageFor p r).getD s).newRoundMessages[q]? =
      if p = q then s.newRoundMessages[q]?.or (some r) else s.newRoundMessages[q]? := by
  unfold BcpServer.appendNewRoundMessageFor
  split
  · rename_i hp
    rw [Std.TreeMap.contains_eq_isSome_getElem?] at hp
    show s.newRoundMessages[q]? = _
    split
    · rename_i h
      rw [← h, Option.or_of_isSome hp]
    · rfl
  · rename_i hp
    rw [Std.TreeMap.contains_eq_isSome_getElem?] at hp
    show (s.newRoundMessages.insert p r)[q]? = _
    rw [getElem?_insert_of_mem]
    split
    · rename_i h
      rw [← h, Option.or_of_isNone (by simpa using hp)]
    · rfl

/-- Calls that leave the announcements as they are. -/
def Call.Silent : Call L → Prop
  | .newRound _ _ | .clear => False
  | _ => True

theorem Call.Silent.perform {c : Call L} (hc : c.Silent) (s : BcpServer L) :
    (c.perform n s).newRoundMessages = s.newRoundMessages := by
  cases c with
  | userHeader a h =>
    simp only [Call.perform]
    rcases s.userHeader_cases a h with h | ⟨-, h⟩ <;> rw [h]
  | propose p h' =>
    simp only [Call.perform]
    rcases s.propose_cases p h' with h | ⟨-, h⟩ <;> rw [h]
  | vote p h' =>
    simp only [Call.perform]
    rcases s.vote_cases p h' with h | ⟨-, h⟩ <;> rw [h]
  | commit p b =>
    simp only [Call.perform]
    rcases s.verified_cases n p b with h | ⟨-, -, h⟩ <;> rw [h]
  | candidate b | myVote h => rfl
  | newRound p r | clear => exact hc.elim

theorem Call.Silent.run_perform {cs : List (Call L)} (hc : ∀ c ∈ cs, c.Silent) (s : BcpServer L) :
    (run (Call.perform n) s cs).newRoundMessages = s.newRoundMessages :=
  run_inv (I := fun s' : BcpServer L => s'.newRoundMessages = s.newRoundMessages)
    (P := fun _ c => c.Silent) (fun s' _ hs hc => (hc.perform s').trans hs) rfl (along_of_forall hc)

theorem NodeManager.peerId_mem (j : Fin n) : peerId j ∈ Finset.Ico (0 : Int) n :=
  Finset.mem_Ico.mpr (by simp [peerId])

/-- A round starts once each of the `n` peers has announced it. -/
theorem newRoundStartFor_all {s : BcpServer L} (ht : Tally s)
    (hreg : ∀ (p : Int) r, s.newRoundMessages[p]? = some r → p ∈ Finset.Ico (0 : Int) n) {r : Nat}
    (h : s.newRoundStartFor n = some r) (j : Fin n) : s.newRoundMessages[peerId j]? = some r :=
  newRoundStartFor_unanimous ht hreg h (NodeManager.peerId_mem j)

/-! ## The abstraction -/

namespace NodeManager

/-- A node, as one of the nodes of `Framework.Rounds`. -/
def node (w : NodeManager L n) (k : Fin n) : Rounds.Node (Fin n) (Boxes L) L.Header where
  inRound := (w.server k).currentStep ≠ .waiting
  announced j := (w.server k).newRoundMessages[peerId j]?
  boxes := (w.server k).boxes
  decided := (w.chain k).headers

variable {w : NodeManager L n} {i : Fin n} {t : Nat}

theorem node_height (w : NodeManager L n) (k : Fin n) : (w.node k).height = (w.chain k).height :=
  (w.chain k).length_headers

theorem inRound_iff (k : Fin n) : (w.node k).inRound = true ↔ (w.server k).currentStep ≠ .waiting :=
  decide_eq_true_iff

theorem inRound_eq_false_iff (k : Fin n) :
    (w.node k).inRound = false ↔ (w.server k).currentStep = .waiting := by
  rw [← Bool.not_eq_true, inRound_iff, not_not]

/-- What a poll changes of a node. -/
theorem main_node (w : NodeManager L n) (i : Fin n) (t : Nat) (k : Fin n) :
    (w.main (i, t)).node k =
      { inRound := (if k = i then (poll n t (w.server i)).nextStep (w.server i).currentStep
          else (w.server k).currentStep) ≠ .waiting
        announced := fun j =>
          (run (Call.perform n) (w.server k) (w.callsAt i t k)).newRoundMessages[peerId j]?
        boxes := run (Boxes.record n) (w.server k).boxes (w.callsAt i t k)
        decided := ((w.main (i, t)).chain k).headers } := by
  obtain ⟨tc, h⟩ := w.main_server i t k
  refine Rounds.Node.ext ?_ ?_ (main_boxes k) rfl
  · show decide ((_ : BcpServer L).currentStep ≠ _) = _
    rw [main_currentStep]
  · show (fun j : Fin n => ((w.main (i, t)).server k).newRoundMessages[peerId j]?) = _
    rw [h]
    rfl

/-- The chains change only in a commit. -/
theorem main_chain_of_ne (h : ∀ b, poll n t (w.server i) ≠ .newBlockCommit b) (k : Fin n) :
    (w.main (i, t)).chain k = w.chain k := by
  rw [main_chain]
  split
  · rename_i b hb
    exact absurd hb (h b)
  · rfl

/-- A poll with silent calls that commits nothing changes step and boxes alone. -/
theorem main_node_of_silent (h : ∀ b, poll n t (w.server i) ≠ .newBlockCommit b) {k : Fin n}
    (hc : ∀ c ∈ w.callsAt i t k, c.Silent) : (w.main (i, t)).node k =
      { w.node k with
        inRound := (if k = i then (poll n t (w.server i)).nextStep (w.server i).currentStep
          else (w.server k).currentStep) ≠ .waiting
        boxes := run (Boxes.record n) (w.server k).boxes (w.callsAt i t k) } := by
  rw [main_node, main_chain_of_ne h, Call.Silent.run_perform hc]
  rfl

end NodeManager

end Bryllite.NodeServerMono
