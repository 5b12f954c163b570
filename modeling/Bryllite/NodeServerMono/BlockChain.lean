import Bryllite.Core
import Bryllite.Framework.Count

/-!
# The chain of a node (node-server-mono)

`block_chain.cpp`: the blocks by the index they carry, and the balances of
the accounts, in unsigned 64-bit integers. `append_block` refuses a block
whose index is taken or one of whose transactions is not valid, and updates
the balances transaction by transaction.
-/

namespace Bryllite.NodeServerMono

open Std (TreeMap)
open Bryllite.Framework

/-- `block_chain`. -/
structure BlockChain (L : Core) where
  mapBlocks : TreeMap Nat L.Blk := ∅
  accountBalances : TreeMap L.Address UInt64 := ∅

namespace BlockChain

variable {L : Core}

/-- `height`: the number of blocks. -/
def height (c : BlockChain L) : Nat := c.mapBlocks.size

/-- `balanceOf`. -/
def balanceOf (c : BlockChain L) (account : L.Address) : UInt64 := c.accountBalances.getD account 0

/-- `verify_block`: every transaction is validly signed and moves something. -/
def verifyBlock (b : L.Blk) : Bool :=
  b.transactions.all fun tx => L.txValid tx && decide (0 < L.value tx)

/-- `block_exists`. -/
def blockExists (c : BlockChain L) (blockIndex : Nat) : Bool := c.mapBlocks.contains blockIndex

/-- `get_block`. -/
def getBlock (c : BlockChain L) (blockIndex : Nat) : Option L.Blk := c.mapBlocks[blockIndex]?

/-- `get_block_hash`: the null hash if there is no such block. -/
def getBlockHash (c : BlockChain L) (blockIndex : Nat) : L.Hash :=
  match c.getBlock blockIndex with
  | some b => L.getHeaderHash b.header
  | none => L.nullHash

/-- One turn of the loop of `update_balance`. A sender without an entry gets
one, of 0, and pays nothing. -/
def updateBalanceFor (balances : TreeMap L.Address UInt64) (tx : L.Transaction) :
    TreeMap L.Address UInt64 :=
  let value := L.value tx
  let sent :=
    if L.coinbase tx then balances
    else match balances[L.txFrom tx]? with
      | some balance => balances.insert (L.txFrom tx) (balance - value)
      | none => balances.insert (L.txFrom tx) 0
  match sent[L.txTo tx]? with
  | some balance => sent.insert (L.txTo tx) (balance + value)
  | none => sent.insert (L.txTo tx) value

/-- `update_balance`. -/
def updateBalance (c : BlockChain L) (b : L.Blk) : BlockChain L :=
  { c with accountBalances := b.transactions.foldl updateBalanceFor c.accountBalances }

/-- `append_block`; `none` where it returns false, the chain unchanged. -/
def appendBlock (c : BlockChain L) (b : L.Blk) : Option (BlockChain L) :=
  if c.blockExists (L.blockIndex b.header) then none
  else if !verifyBlock b then none
  else some (updateBalance { c with mapBlocks := c.mapBlocks.insert (L.blockIndex b.header) b } b)

/-- A call of `append_block` whose result is ignored. -/
def append (c : BlockChain L) (b : L.Blk) : BlockChain L := (c.appendBlock b).getD c

variable {c c' : BlockChain L} {b : L.Blk}

theorem appendBlock_eq_some (h : c.appendBlock b = some c') :
    c.getBlock (L.blockIndex b.header) = none ∧ verifyBlock b = true ∧
      c'.mapBlocks = c.mapBlocks.insert (L.blockIndex b.header) b ∧
      c'.accountBalances = b.transactions.foldl updateBalanceFor c.accountBalances := by
  unfold appendBlock at h
  split at h <;> [cases h; skip]
  rename_i hn
  split at h <;> [cases h; skip]
  rename_i hv
  cases h
  refine ⟨?_, by simpa using hv, rfl, rfl⟩
  exact TreeMap.getElem?_eq_none_of_contains_eq_false ((Bool.not_eq_true _).mp hn)

/-- What a call of `append_block` does: nothing, or it appends `b`. -/
theorem append_cases (c : BlockChain L) (b : L.Blk) :
    c.append b = c ∨ c.appendBlock b = some (c.append b) := by
  unfold append
  cases h : c.appendBlock b with
  | none => exact .inl rfl
  | some c' => exact .inr rfl

theorem height_appendBlock (h : c.appendBlock b = some c') : c'.height = c.height + 1 := by
  obtain ⟨hn, -, hm, -⟩ := appendBlock_eq_some h
  unfold height
  rw [hm, TreeMap.size_insert, if_neg]
  unfold getBlock at hn
  simp [TreeMap.contains_eq_isSome_getElem?, hn]

theorem getBlock_appendBlock (h : c.appendBlock b = some c') (i : Nat) :
    c'.getBlock i = if L.blockIndex b.header = i then some b else c.getBlock i := by
  obtain ⟨-, -, hm, -⟩ := appendBlock_eq_some h
  unfold getBlock
  rw [hm, getElem?_insert_of_mem]

theorem blockExists_iff {i : Nat} : c.blockExists i = true ↔ ∃ b, c.getBlock i = some b := by
  unfold blockExists getBlock
  rw [TreeMap.contains_eq_isSome_getElem?, Option.isSome_iff_exists]

end BlockChain

end Bryllite.NodeServerMono
