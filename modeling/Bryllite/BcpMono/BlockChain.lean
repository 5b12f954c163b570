import Bryllite.Core
import Bryllite.Framework.Count

/-!
# The chain of a node (bcp_mono)

`block_chain.cpp`: the blocks by their index, and the balances of the
addresses, in unsigned 64-bit integers. `append_block` refuses a block whose
index is taken, and checks nothing else.
-/

namespace Bryllite.BcpMono

open Std (TreeMap)
open Bryllite.Framework

/-- `block_chain`. -/
structure BlockChain (L : Core) where
  blocks : TreeMap Nat L.Blk := ∅
  balances : TreeMap L.Address UInt64 := ∅
  lastBlockIndex : Nat := 0

namespace BlockChain

variable {L : Core}

/-- `size`. -/
def size (c : BlockChain L) : Nat := c.blocks.size

/-- `get_block`. -/
def getBlock (c : BlockChain L) (blockIndex : Nat) : Option L.Blk := c.blocks[blockIndex]?

/-- `balanceOf`. -/
def balanceOf (c : BlockChain L) (addr : L.Address) : UInt64 := c.balances.getD addr 0

/-- One turn of the loop of `build_balance_for`. A sender that does not have
the value makes the transaction void. -/
def buildBalanceForTx (balances : TreeMap L.Address UInt64) (tx : L.Transaction) :
    TreeMap L.Address UInt64 :=
  let sender := L.txFrom tx
  let receiver := L.txTo tx
  let value := L.value tx
  let credit (balances : TreeMap L.Address UInt64) : TreeMap L.Address UInt64 :=
    if L.addressEmpty receiver then balances
    else match balances[receiver]? with
      | some balance => balances.insert receiver (balance + value)
      | none => balances.insert receiver value
  if value = 0 then balances
  else if !L.addressEmpty sender && sender ≠ receiver then
    match balances[sender]? with
    | some balance => if value ≤ balance then credit (balances.insert sender (balance - value)) else balances
    | none => balances
  else credit balances

/-- `build_balance_for`. -/
def buildBalanceFor (c : BlockChain L) (b : L.Blk) : BlockChain L :=
  { c with balances := b.transactions.foldl buildBalanceForTx c.balances }

/-- `rebuild_balance`: the blocks in the order of their index, over the balances
there are. -/
def rebuildBalance (c : BlockChain L) : BlockChain L :=
  c.blocks.toList.foldl (fun c e => c.buildBalanceFor e.2) c

/-- `append_block`, which builds the balances if told to; `none` where it
returns false, the chain unchanged. -/
def appendBlock (c : BlockChain L) (blockIndex : Nat) (b : L.Blk) (buildBalance : Bool) :
    Option (BlockChain L) :=
  if c.blocks.contains blockIndex then none
  else
    let c := { c with
      blocks := c.blocks.insert blockIndex b
      lastBlockIndex := if c.lastBlockIndex < blockIndex then blockIndex else c.lastBlockIndex }
    some (if buildBalance then c.buildBalanceFor b else c)

variable {c c' : BlockChain L} {i : Nat} {b : L.Blk} {buildBalance : Bool}

theorem appendBlock_eq_some (h : c.appendBlock i b buildBalance = some c') :
    c.getBlock i = none ∧ c'.blocks = c.blocks.insert i b := by
  unfold appendBlock at h
  split at h
  · cases h
  · rename_i hn
    refine ⟨TreeMap.getElem?_eq_none_of_contains_eq_false ((Bool.not_eq_true _).mp hn), ?_⟩
    cases buildBalance <;> cases h <;> rfl

theorem appendBlock_isSome (h : c.getBlock i = none) : (c.appendBlock i b buildBalance).isSome := by
  unfold appendBlock
  rw [if_neg, Option.isSome_some]
  rw [TreeMap.contains_eq_isSome_getElem?, show c.blocks[i]? = none from h]
  exact Bool.false_ne_true

end BlockChain

end Bryllite.BcpMono
