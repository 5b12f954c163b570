import Mathlib.Data.Nat.Pairing
import Mathlib.Order.Defs.LinearOrder

/-!
# What the prototypes use of `bryllite-core`

The prototypes under `tests/dev` are written against classes `block_header`,
`block`, `transaction` and `account` of an earlier `bryllite-core`, whose
sources are not in the repository. `Core` names what they use of them: the
types, the accessors, and the constructors. A constructor that reads the
clock or signs takes one more argument, `stamp`, for what it reads: two calls
at different moments have different stamps.

`Core.Sound` states what is relied on of the blocks so made, and
`Core.sample` is a small instance, on which the concrete runs are evaluated.
-/

namespace Bryllite

/-- `block`: a header and the transactions. -/
structure Block (Header Transaction : Type) where
  header : Header
  transactions : List Transaction
deriving DecidableEq

/-- The classes of `bryllite-core`, as the prototypes use them. -/
structure Core where
  /-- `uint256`, as a hash. -/
  Hash : Type
  /-- The strings `get_hash_string` returns, in their lexicographic order. -/
  HashString : Type
  /-- An address, as a string. -/
  Address : Type
  /-- `account` (or `key_pair`): an address and its keys. -/
  Account : Type
  Header : Type
  Transaction : Type
  [hashOrder : LinearOrder Hash]
  [hashStringOrder : LinearOrder HashString]
  [addressOrder : LinearOrder Address]
  [headerEq : DecidableEq Header]
  [transactionEq : DecidableEq Transaction]
  /-- `uint256()`. -/
  nullHash : Hash
  /-- `block_header()`. -/
  defaultHeader : Header
  blockIndex : Header → Nat
  getPrevHash : Header → Hash
  getHeaderHash : Header → Hash
  getHashString : Header → HashString
  /-- `tx.from`. -/
  txFrom : Transaction → Address
  /-- `tx.to`. -/
  txTo : Transaction → Address
  value : Transaction → UInt64
  coinbase : Transaction → Bool
  /-- `tx.valid()`: its signature is valid. -/
  txValid : Transaction → Bool
  /-- `address::empty`. -/
  addressEmpty : Address → Bool
  address : Account → Address
  /-- `block( block_index, prevBlockHash )`. -/
  newBlock (stamp blockIndex : Nat) (prevBlockHash : Hash) : Block Header Transaction
  /-- `transaction( to, value )`, signed: a coinbase transaction. -/
  newCoinbase (stamp : Nat) (account : Account) (receiver : Address) (value : UInt64) : Transaction
  /-- `transaction( from, to, value )`, signed. -/
  newTransaction (stamp : Nat) (account : Account) (sender receiver : Address) (value : UInt64) :
    Transaction
  /-- `append_transaction`; `none` where it returns false. -/
  appendTransaction : Block Header Transaction → Transaction → Option (Block Header Transaction)
  /-- `block::sign`. -/
  sign : Account → Block Header Transaction → Block Header Transaction
  /-- `block::verify`. -/
  verify : Block Header Transaction → Bool
  /-- `block::valid`. -/
  valid : Block Header Transaction → Bool
  /-- `block::merkle_root_hash`, computed from the transactions. -/
  merkleRootHash : Block Header Transaction → Hash
  /-- The merkle root in the header. -/
  hashMerkleRoot : Header → Hash
  /-- `operator<` on headers. -/
  headerLt : Header → Header → Bool

namespace Core

attribute [instance] hashOrder hashStringOrder addressOrder headerEq transactionEq

variable (L : Core)

/-- `block`, over the header and transactions of `L`. -/
abbrev Blk : Type := Block L.Header L.Transaction

/-- `block()`. -/
def defaultBlock : L.Blk := ⟨L.defaultHeader, []⟩

/-- `b` is a block of one transaction, made at `stamp` for the index `i` after
the block with hash `prev`, and signed. -/
def Built (stamp i : Nat) (prev : L.Hash) (b : L.Blk) : Prop :=
  ∃ account tx b', L.appendTransaction (L.newBlock stamp i prev) tx = some b' ∧ b = L.sign account b'

/-- What is relied on of the blocks the nodes make: a block carries the index
it was made for, and no two made at different moments have the same header; the
index of `block_header()` is `invalid_block_index`. -/
structure Sound : Prop where
  blockIndex_default : L.blockIndex L.defaultHeader = 0
  blockIndex_built {st i : Nat} {p : L.Hash} {b : L.Blk} : L.Built st i p b → L.blockIndex b.header = i
  distinct {st i st' i' : Nat} {p p' : L.Hash} {b b' : L.Blk} :
    L.Built st i p b → L.Built st' i' p' b' → b.header = b'.header → st = st'

variable {L}

theorem Sound.ne_default (h : L.Sound) {st i : Nat} {p : L.Hash} {b : L.Blk} (hb : L.Built st i p b)
    (hi : 0 < i) : b.header ≠ L.defaultHeader := by
  intro e
  have := h.blockIndex_built hb
  rw [e, h.blockIndex_default] at this
  omega

end Core

/-! ## A small instance -/

/-- A header as its index, its previous hash and its stamp. -/
structure SampleHeader where
  index : Nat
  prev : Nat
  stamp : Nat
deriving DecidableEq

/-- A transaction as its fields; all signatures are valid. -/
structure SampleTransaction where
  sender : Nat
  receiver : Nat
  value : UInt64
  coinbase : Bool
deriving DecidableEq

/-- Blocks over natural numbers, with an injective header hash. -/
def Core.sample : Core where
  Hash := Nat
  HashString := Nat
  Address := Nat
  Account := Nat
  Header := SampleHeader
  Transaction := SampleTransaction
  nullHash := 0
  defaultHeader := ⟨0, 0, 0⟩
  blockIndex := SampleHeader.index
  getPrevHash := SampleHeader.prev
  getHeaderHash h := Nat.pair h.index (Nat.pair h.prev h.stamp)
  getHashString h := Nat.pair h.index (Nat.pair h.prev h.stamp)
  txFrom := SampleTransaction.sender
  txTo := SampleTransaction.receiver
  value := SampleTransaction.value
  coinbase := SampleTransaction.coinbase
  txValid _ := true
  addressEmpty _ := false
  address := id
  newBlock stamp i prev := ⟨⟨i, prev, stamp⟩, []⟩
  newCoinbase _ account receiver value := ⟨account, receiver, value, true⟩
  newTransaction _ _ sender receiver value := ⟨sender, receiver, value, false⟩
  appendTransaction b tx := some { b with transactions := b.transactions ++ [tx] }
  sign _ b := b
  verify _ := true
  valid _ := true
  merkleRootHash _ := 0
  hashMerkleRoot _ := 0
  headerLt h h' := Nat.pair h.index (Nat.pair h.prev h.stamp) < Nat.pair h'.index (Nat.pair h'.prev h'.stamp)

theorem Core.sample_getHeaderHash_injective : Function.Injective sample.getHeaderHash := by
  rintro ⟨i, p, st⟩ ⟨i', p', st'⟩ h
  obtain ⟨rfl, h⟩ := Nat.pair_eq_pair.mp h
  obtain ⟨rfl, rfl⟩ := Nat.pair_eq_pair.mp h
  rfl

theorem Core.sample_built {st i : Nat} {p : sample.Hash} {b : sample.Blk} (h : sample.Built st i p b) :
    b.header = (⟨i, p, st⟩ : SampleHeader) := by
  obtain ⟨_, _, _, h, rfl⟩ := h
  cases h; rfl

theorem Core.sample_sound : sample.Sound where
  blockIndex_default := rfl
  blockIndex_built h := congrArg SampleHeader.index (sample_built h)
  distinct h h' e := by
    rw [sample_built h, sample_built h'] at e
    exact congrArg SampleHeader.stamp e

end Bryllite
