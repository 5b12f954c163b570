import Bryllite.Framework.Run
import Bryllite.NodeServerMono.NodeServer

/-!
# What `append_block` keeps

The height of a chain is the number of its blocks, and blocks are stored by
the index they carry. Where every block that is appended carries the index
after the height and the hash of the last block (`Extends`), the chain has the
indices `1, …, height` and every block the hash of the one before it, so that a
node can build the next block (`Chained`); and only there (`chained_iff`), as
`append_block` checks neither.
-/

namespace Bryllite.NodeServerMono

open Bryllite.Framework

variable {L : Core}

/-- The blocks are `1, …, height`, each with the hash of the one before it, and
the node whose chain this is can build the next. -/
structure Chained (c : BlockChain L) : Prop where
  exists_iff (i : Nat) : c.blockExists i = true ↔ 1 ≤ i ∧ i ≤ c.height
  prevHash (i : Nat) (b : L.Blk) : 1 < i → i ≤ c.height → c.getBlock i = some b →
    L.getPrevHash b.header = c.getBlockHash (i - 1)
  free : c.blockExists (c.height + 1) = false
  create (stamp : Nat) (account : L.Account) :
    (NodeServer.createBlockFor stamp (c.height + 1) { nodeAccount := account, blockChain := c }).isSome

/-- A block that `append_block` accepts has the index after the height and,
after a first block, the hash of the last. -/
def Extends (c : BlockChain L) (b : L.Blk) : Prop :=
  c.blockExists (L.blockIndex b.header) = false → BlockChain.verifyBlock b = true →
    L.blockIndex b.header = c.height + 1 ∧
      (0 < c.height → L.getPrevHash b.header = c.getBlockHash c.height)

instance (c : BlockChain L) : DecidablePred (Extends c) :=
  fun _ => inferInstanceAs (Decidable (_ → _ → _ ∧ (_ → _)))

/-- A node's coinbase goes into its new block. -/
def Core.TakesCoinbase (L : Core) : Prop := ∀ stamp i p account,
  (L.appendTransaction (L.newBlock stamp i p)
    (L.newCoinbase stamp account (L.address account) NodeServer.blockReward)).isSome

theorem Chained.of_indices (hL : Core.TakesCoinbase L) {c : BlockChain L}
    (h : ∀ i, c.blockExists i = true ↔ 1 ≤ i ∧ i ≤ c.height)
    (hp : ∀ (i : Nat) (b : L.Blk), 1 < i → i ≤ c.height → c.getBlock i = some b →
      L.getPrevHash b.header = c.getBlockHash (i - 1)) : Chained c := by
  have hf : c.blockExists (c.height + 1) = false := by
    rw [Bool.eq_false_iff, ne_eq, h]
    omega
  refine ⟨h, hp, hf, fun stamp account => ?_⟩
  unfold NodeServer.createBlockFor
  rw [if_neg (by simp [hf])]
  exact hL stamp _ _ account

theorem Chained.empty (hL : Core.TakesCoinbase L) : Chained ({} : BlockChain L) :=
  .of_indices hL
    (fun _ => ⟨fun h => Bool.noConfusion h, fun h => absurd (h.1.trans h.2) (Nat.not_succ_le_zero 0)⟩)
    fun _ _ h1 h2 => absurd (Nat.lt_of_lt_of_le h1 h2) (Nat.not_lt_zero 1)

section Append

variable {c c' : BlockChain L} {b : L.Blk}

theorem appended_iff : (∃ c', c.appendBlock b = some c') ↔
    c.blockExists (L.blockIndex b.header) = false ∧ BlockChain.verifyBlock b = true := by
  unfold BlockChain.appendBlock
  constructor
  · rintro ⟨c', h⟩
    split at h
    · cases h
    · split at h
      · cases h
      · exact ⟨by simpa using ‹¬c.blockExists _ = true›, by simpa using ‹¬(!_) = true›⟩
  · intro ⟨h1, h2⟩
    simp [h1, h2]

theorem blockExists_appendBlock (h : c.appendBlock b = some c') (i : Nat) :
    c'.blockExists i = true ↔ L.blockIndex b.header = i ∨ c.blockExists i = true := by
  rw [BlockChain.blockExists_iff, BlockChain.blockExists_iff, BlockChain.getBlock_appendBlock h]
  split <;> simp_all

theorem getBlockHash_appendBlock (h : c.appendBlock b = some c') {i : Nat}
    (hi : L.blockIndex b.header ≠ i) : c'.getBlockHash i = c.getBlockHash i := by
  unfold BlockChain.getBlockHash
  rw [BlockChain.getBlock_appendBlock h, if_neg hi]

/-- Appending a block keeps the chain exactly if the block extends it. -/
theorem chained_append_iff (hL : Core.TakesCoinbase L) (hc : Chained c) :
    Chained (c.append b) ↔ Extends c b := by
  unfold BlockChain.append
  cases h : c.appendBlock b with
  | none =>
    refine ⟨fun _ h1 h2 => ?_, fun _ => hc⟩
    obtain ⟨c', hc'⟩ := appended_iff.mpr ⟨h1, h2⟩
    rw [h] at hc'; cases hc'
  | some c' =>
    obtain ⟨hn, hv⟩ := appended_iff.mp ⟨c', h⟩
    have hh := BlockChain.height_appendBlock h
    have hb : c'.getBlock (L.blockIndex b.header) = some b := by
      rw [BlockChain.getBlock_appendBlock h, if_pos rfl]
    rw [Option.getD_some]
    constructor
    · intro hc' _ _
      -- The index of the block is one of the new chain's and none of the old one's.
      have h1 := (hc'.exists_iff _).mp ((blockExists_appendBlock h _).mpr (.inl rfl))
      have h2 := (not_congr (hc.exists_iff (L.blockIndex b.header))).mp (by simp [hn])
      have hi : L.blockIndex b.header = c.height + 1 := by omega
      refine ⟨hi, fun hpos => ?_⟩
      have hp := hc'.prevHash _ b (by omega) h1.2 hb
      rwa [hi, Nat.add_sub_cancel, getBlockHash_appendBlock h (by omega)] at hp
    · intro he
      obtain ⟨hi, hp⟩ := he hn hv
      refine .of_indices hL (fun i => ?_) fun i b' h1 h2 hb' => ?_
      · rw [blockExists_appendBlock h, hc.exists_iff, hi, hh]
        omega
      · rw [BlockChain.getBlock_appendBlock h] at hb'
        rw [getBlockHash_appendBlock h (by omega)]
        split at hb'
        · rename_i e
          cases hb'
          rw [← e, hi, Nat.add_sub_cancel]
          exact hp (by omega)
        · exact hc.prevHash i b' h1 (by omega) hb'

end Append

theorem chained_iff_of (hL : Core.TakesCoinbase L) {c : BlockChain L} (hc : Chained c) (bs : List L.Blk) :
    Along BlockChain.append (fun c b => Chained (c.append b)) c bs ↔
      Along BlockChain.append Extends c bs := by
  induction bs generalizing c with
  | nil => simp
  | cons b bs ih =>
    rw [along_cons, along_cons, chained_append_iff hL hc]
    refine and_congr_right fun he => ih ((chained_append_iff hL hc).mpr he)

/-- After every call of `append_block` the blocks are a chain, and the next can
be built, if and only if every block that is appended extends the chain. -/
theorem chained_iff (hL : Core.TakesCoinbase L) (bs : List L.Blk) :
    Along BlockChain.append (fun c b => Chained (c.append b)) {} bs ↔
      Along BlockChain.append Extends {} bs :=
  chained_iff_of hL (.empty hL) bs

/-- Two blocks that extend the chain, and one whose index is taken. -/
theorem chained_iff_sample :
    let b1 : Core.sample.Blk := ⟨(⟨1, 0, 0⟩ : SampleHeader), []⟩
    let b2 : Core.sample.Blk := ⟨(⟨2, Core.sample.getHeaderHash b1.header, 1⟩ : SampleHeader), []⟩
    let b3 : Core.sample.Blk := ⟨(⟨2, 0, 2⟩ : SampleHeader), []⟩
    Along BlockChain.append (fun c b => Chained (c.append b)) {} [b1, b2, b3] := by
  intro b1 b2 b3
  exact (chained_iff (fun _ _ _ _ => rfl) [b1, b2, b3]).mpr (by decide)

/-- A block with the index 5 is appended to the empty chain. -/
theorem chained_hole :
    let b : Core.sample.Blk := ⟨(⟨5, 0, 0⟩ : SampleHeader), []⟩
    ¬Along BlockChain.append (fun c b => Chained (c.append b)) {} [b] := by
  intro b h
  exact absurd ((h.1.exists_iff 1).mpr (by decide)) (by decide)

end Bryllite.NodeServerMono
