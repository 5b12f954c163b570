import Bryllite.BcpMono.Take

/-!
# The chain of a node (bcp_mono)

A node takes its height to be the size of its map of blocks, and appends the
block of a commit quorum under the index that block carries, if this is free.
So the map is a chain from 1 to the height exactly if every block that a node
appends has the index after its height and the hash of its last block
(`chains_iff`). A node that missed a round may append the block of a later one
(`chains_gap`).
-/

namespace Bryllite.BcpMono

open Bryllite.Framework

variable {L : Core} {n : Nat}

namespace BlockChain

/-- The blocks are `1, …, size`, each with the hash of the one before it, and
the index after them is free. -/
structure Chained (c : BlockChain L) : Prop where
  exists_iff (i : Nat) : (c.getBlock i).isSome ↔ 1 ≤ i ∧ i ≤ c.size
  prevHash (i : Nat) (b : L.Blk) : 1 < i → c.getBlock i = some b →
    ∃ b', c.getBlock (i - 1) = some b' ∧ L.getPrevHash b.header = L.getHeaderHash b'.header
  free : c.getBlock (c.size + 1) = none

/-- A block that `append_block` accepts has the index after the size and, after
a first block, the hash of the last. -/
def Extends (c : BlockChain L) (b : L.Blk) : Prop :=
  c.getBlock (L.blockIndex b.header) = none →
    L.blockIndex b.header = c.size + 1 ∧
      ∀ b' ∈ c.getBlock c.size, L.getPrevHash b.header = L.getHeaderHash b'.header

instance (c : BlockChain L) : DecidablePred (Extends c) :=
  fun _ => inferInstanceAs (Decidable (_ → _ ∧ ∀ b' ∈ _, _))

/-- The second block has the hash of the first. -/
def Follows (b b' : L.Blk) : Prop := L.getPrevHash b'.header = L.getHeaderHash b.header

theorem chained_iff_linked {c : BlockChain L} : c.Chained ↔ Linked Follows c.blocks := by
  constructor
  · intro h
    refine ⟨h.exists_iff, fun i b b' hb hb' => ?_⟩
    obtain ⟨h1, -⟩ := (h.exists_iff i).mp (Option.isSome_iff_exists.mpr ⟨b, hb⟩)
    obtain ⟨b'', hb'', hp⟩ := h.prevHash (i + 1) b' (by omega) hb'
    rw [Nat.add_sub_cancel] at hb''
    obtain rfl := Option.some.inj (hb''.symm.trans hb)
    exact hp
  · intro h
    refine ⟨h.contiguous, fun i b hi hb => ?_, h.contiguous.next⟩
    obtain ⟨-, h2⟩ := (h.contiguous i).mp (Option.isSome_iff_exists.mpr ⟨b, hb⟩)
    have hs : (c.getBlock (i - 1)).isSome := (h.contiguous (i - 1)).mpr ⟨by omega, by omega⟩
    obtain ⟨b', hb'⟩ := Option.isSome_iff_exists.mp hs
    refine ⟨b', hb', h.link (i - 1) b' b hb' ?_⟩
    rwa [Nat.sub_add_cancel (by omega)]

theorem Chained.empty : ({} : BlockChain L).Chained := chained_iff_linked.mpr .empty

/-- To append a block keeps the chain exactly if the block extends it. -/
theorem chained_append_iff {c : BlockChain L} (hc : c.Chained) (b : L.Blk) :
    ((c.appendBlock (L.blockIndex b.header) b true).getD c).Chained ↔ c.Extends b := by
  cases h : c.appendBlock (L.blockIndex b.header) b true with
  | none =>
    refine ⟨fun _ hf => ?_, fun _ => hc⟩
    have hsome : (c.appendBlock (L.blockIndex b.header) b true).isSome := appendBlock_isSome hf
    rw [h] at hsome
    cases hsome
  | some c' =>
    obtain ⟨hf, hb⟩ := appendBlock_eq_some h
    rw [Option.getD_some, chained_iff_linked, hb, linked_insert_iff (chained_iff_linked.mp hc) hf]
    exact ⟨fun h _ => h, fun h => h hf⟩

end BlockChain

namespace NodeManager

variable {w : NodeManager L n} {e : Fin n × Clock}

/-- All chains are linked. -/
def Chained (w : NodeManager L n) : Prop := ∀ k, (w.nodes k).blockChain.Chained

/-- If the poll takes a block, it extends the node's chain. -/
def TakesNext (w : NodeManager L n) (e : Fin n × Clock) : Prop :=
  ∀ b ∈ w.taken e, (w.nodes e.1).blockChain.Extends b

instance (w : NodeManager L n) : DecidablePred w.TakesNext := fun _ =>
  inferInstanceAs (Decidable (∀ b ∈ _, _))

/-- A poll keeps all chains linked exactly if the block it takes is the next. -/
theorem Chained.onMain_iff (hw : w.Chained) : (w.onMain e).Chained ↔ w.TakesNext e := by
  cases hb : w.taken e with
  | none =>
    refine ⟨fun _ b h => ?_, fun _ k => ?_⟩
    · rw [hb] at h
      cases h
    · rw [blockChain_not_taken hb]
      exact hw k
  | some b =>
    have happ := BlockChain.chained_append_iff (hw e.1) b
    have hnode := (takes_of_taken hb).blockChain
    constructor
    · intro h b' hb'
      obtain rfl := Option.some.inj (hb.symm.trans hb')
      exact happ.mp (hnode ▸ h e.1)
    · intro h k
      by_cases hk : k = e.1
      · rw [hk, hnode]
        exact happ.mpr (h b hb)
      · rw [blockChain_of_ne hk]
        exact hw k

end NodeManager

/-- After every poll of a run all chains are linked, and the index after them
is free, if and only if every block that is taken extends the chain. -/
theorem chains_iff (keyPair : Fin n → L.Account) (syncTime : Fin n → Nat)
    (newRoundMessageSent : Fin n → Bool) (currentRoundTime : Fin n → Int) (es : List (Fin n × Clock)) :
    Along NodeManager.onMain (fun w e => (w.onMain e).Chained)
        (.start keyPair syncTime newRoundMessageSent currentRoundTime) es ↔
      Along NodeManager.onMain NodeManager.TakesNext
        (.start keyPair syncTime newRoundMessageSent currentRoundTime) es :=
  along_iff_of_inv (I := NodeManager.Chained) (fun _ _ hw => hw.onMain_iff) (fun _ _ hw he => hw.onMain_iff.mpr he)
    fun _ => .empty

/-- Two rounds of two nodes. -/
theorem chains_iff_sample :
    let round (t : Nat) : List (Fin 2 × Clock) := [(0, t), (1, t), (0, t), (0, t + 6), (1, t + 6),
      (0, t + 11), (1, t + 11), (0, t + 11), (1, t + 11), (0, t + 11), (1, t + 11)].map
        fun e => (e.1, ⟨e.2, 1000 * e.2⟩)
    let w : NodeManager Core.sample 2 :=
      .start (fun i => (i.val : Nat)) (fun _ => 30000) (fun _ => false) fun _ => 0
    let es := [(0, ⟨30, 30000⟩), (1, ⟨30, 30000⟩)] ++ round 30 ++ round 60
    ((run NodeManager.onMain w es).nodes 0).blockChain.size = 2 ∧
      Along NodeManager.onMain (fun w e => (w.onMain e).Chained) w es :=
  ⟨by decide +kernel, (chains_iff _ _ _ _ _).mpr (by decide +kernel)⟩

/-- Node 2 of three is late for the first round, and announces it twice in the
next two block times. It then takes the second block, which nodes 0 and 1 have
committed, without the first. -/
theorem chains_gap :
    let es : List (Fin 3 × Nat) := [(0, 30), (1, 30), (0, 30), (1, 30), (0, 30), (0, 36), (1, 36), (0, 41),
      (1, 41), (0, 41), (1, 41), (0, 41), (1, 41), (2, 55), (2, 60), (0, 60), (1, 60), (0, 60), (0, 66),
      (1, 66), (0, 71), (1, 71), (0, 71), (1, 71), (2, 90), (2, 96), (2, 101), (2, 101), (2, 101)]
    let w : NodeManager Core.sample 3 := run NodeManager.onMain
      (.start (fun i => (i.val : Nat)) (fun _ => 30000) (fun _ => false) fun _ => 0)
      (es.map fun e => (e.1, ⟨e.2, 1000 * e.2⟩))
    (es.map (·.2)).Pairwise (· ≤ ·) ∧ (w.nodes 2).blockChain.size = 1 ∧
      (w.nodes 2).blockChain.getBlock 1 = none ∧ ((w.nodes 2).blockChain.getBlock 2).isSome ∧ ¬ w.Chained := by
  intro es w
  have h : (es.map (·.2)).Pairwise (· ≤ ·) ∧ (w.nodes 2).blockChain.size = 1 ∧
      (w.nodes 2).blockChain.getBlock 1 = none ∧ ((w.nodes 2).blockChain.getBlock 2).isSome := by
    decide +kernel
  obtain ⟨ht, hs, h1, h2⟩ := h
  refine ⟨ht, hs, h1, h2, fun hc => ?_⟩
  have := ((hc 2).exists_iff 1).mpr ⟨Nat.le_refl 1, hs.ge⟩
  rw [h1] at this
  cases this

end Bryllite.BcpMono
