import Bryllite.Framework.Balances
import Bryllite.Framework.Run
import Bryllite.NodeServerMono.BlockChain
import Mathlib.Algebra.Order.BigOperators.Group.List
import Mathlib.Tactic.Linarith

/-!
# The balances of a chain against an exact ledger

The exact ledger of a list of transactions: what an account received
(`received`) and what it sent in transactions that are not coinbase (`sent`),
as integers. `Booked` is a chain with the transactions of the blocks it
accepted. A block is booked exactly (`Conserves`) if, when it is accepted, the
total grows by its coinbase values, every balance after each of its
transactions is what the account received minus what it sent, and no account
sends more than it has received.

`update_balance` does not look at the sender's balance, so this holds when,
and only when, every sender that is debited has an entry with enough in it
(`Covered`): `ledger_iff`.
-/

namespace Bryllite.NodeServerMono

open Std (TreeMap)
open Bryllite.Framework

variable {L : Core}

/-! ## The exact ledger -/

/-- What `a` received. -/
def received (txs : List L.Transaction) (a : L.Address) : Nat :=
  (txs.map fun tx => if L.txTo tx = a then (L.value tx).toNat else 0).sum

/-- What `a` sent in transactions that are not coinbase. -/
def sent (txs : List L.Transaction) (a : L.Address) : Nat :=
  (txs.map fun tx => if L.coinbase tx = false ∧ L.txFrom tx = a then (L.value tx).toNat else 0).sum

/-- The coinbase values. -/
def coinbaseSum (txs : List L.Transaction) : Nat :=
  (txs.map fun tx => if L.coinbase tx then (L.value tx).toNat else 0).sum

/-- All values. -/
def volume (txs : List L.Transaction) : Nat := (txs.map fun tx => (L.value tx).toNat).sum

theorem received_append (txs ts : List L.Transaction) (a : L.Address) :
    received (txs ++ ts) a = received txs a + received ts a := by
  simp only [received, List.map_append, List.sum_append]

theorem sent_append (txs ts : List L.Transaction) (a : L.Address) :
    sent (txs ++ ts) a = sent txs a + sent ts a := by
  simp only [sent, List.map_append, List.sum_append]

theorem volume_append (txs ts : List L.Transaction) : volume (txs ++ ts) = volume txs + volume ts := by
  simp only [volume, List.map_append, List.sum_append]

theorem received_single (tx : L.Transaction) (a : L.Address) :
    received [tx] a = if L.txTo tx = a then (L.value tx).toNat else 0 := by
  simp only [received, List.map_cons, List.map_nil, List.sum_cons, List.sum_nil, Nat.add_zero]

theorem sent_single (tx : L.Transaction) (a : L.Address) :
    sent [tx] a = if L.coinbase tx = false ∧ L.txFrom tx = a then (L.value tx).toNat else 0 := by
  simp only [sent, List.map_cons, List.map_nil, List.sum_cons, List.sum_nil, Nat.add_zero]

theorem volume_single (tx : L.Transaction) : volume [tx] = (L.value tx).toNat := by
  simp only [volume, List.map_cons, List.map_nil, List.sum_cons, List.sum_nil, Nat.add_zero]

theorem received_le_volume (txs : List L.Transaction) (a : L.Address) : received txs a ≤ volume txs :=
  List.sum_le_sum fun tx _ => by split <;> omega

/-! ## One transaction -/

/-- The sender of `tx`, unless it is coinbase, has an entry with enough in it. -/
def CoveredIn (balances : TreeMap L.Address UInt64) (tx : L.Transaction) : Prop :=
  L.coinbase tx = false → ∃ x, balances[L.txFrom tx]? = some x ∧ L.value tx ≤ x

instance (balances : TreeMap L.Address UInt64) (tx : L.Transaction) : Decidable (CoveredIn balances tx) :=
  decidable_of_iff (L.coinbase tx = false → (balances[L.txFrom tx]?).any (L.value tx ≤ ·) = true)
    (by simp [CoveredIn, Option.any_eq_true])

/-- The balances once the sender has paid: one without an entry gets one of 0. -/
def debited (m : TreeMap L.Address UInt64) (tx : L.Transaction) : TreeMap L.Address UInt64 :=
  if L.coinbase tx then m
  else match m[L.txFrom tx]? with
    | some x => m.insert (L.txFrom tx) (x - L.value tx)
    | none => m.insert (L.txFrom tx) 0

theorem updateBalanceFor_eq (m : TreeMap L.Address UInt64) (tx : L.Transaction) :
    BlockChain.updateBalanceFor m tx = credit (debited m tx) (L.txTo tx) (L.value tx) :=
  credit_match (debited m tx) _ _

/-- A covered sender has the value, and pays it. -/
theorem CoveredIn.debit {m : TreeMap L.Address UInt64} {tx : L.Transaction} (h : CoveredIn m tx)
    (hc : L.coinbase tx = false) :
    L.value tx ≤ balance m (L.txFrom tx) ∧ debited m tx = debit m (L.txFrom tx) (L.value tx) := by
  obtain ⟨x, hx, hv⟩ := h hc
  have hb : balance m (L.txFrom tx) = x := by rw [balance_eq, hx, Option.getD_some]
  rw [Framework.debit, hb]
  exact ⟨hv, by simp only [debited, hc, hx, Bool.false_eq_true, if_false]⟩

theorem debited_covered {m : TreeMap L.Address UInt64} {tx : L.Transaction} (h : CoveredIn m tx)
    (a : L.Address) : (balance (debited m tx) a).toNat + sent [tx] a = (balance m a).toNat := by
  rw [sent_single]
  cases hc : L.coinbase tx with
  | true => simp [debited, hc]
  | false =>
    obtain ⟨hv, hd⟩ := h.debit hc
    rw [hd, balance_debit]
    by_cases ha : L.txFrom tx = a
    · subst ha
      have hle := UInt64.le_iff_toNat_le.mp hv
      simp only [if_true, true_and, UInt64.toNat_sub_of_le _ _ hv]
      omega
    · simp [ha]

theorem sumBalances_debited {m : TreeMap L.Address UInt64} {tx : L.Transaction} (h : CoveredIn m tx) :
    sumBalances (debited m tx) + (if L.coinbase tx then 0 else (L.value tx).toNat) = sumBalances m := by
  cases hc : L.coinbase tx with
  | true => simp [debited, hc]
  | false =>
    obtain ⟨hv, hd⟩ := h.debit hc
    rw [hd]
    exact sumBalances_debit hv

/-- The credit, without wrap-around. -/
theorem toNat_balance_credit {m : TreeMap L.Address UInt64} {k : L.Address} {v : UInt64}
    (hb : (balance m k).toNat + v.toNat < 2 ^ 64) (a : L.Address) :
    (balance (credit m k v) a).toNat = (balance m a).toNat + if k = a then v.toNat else 0 := by
  rw [balance_credit]
  by_cases ha : k = a
  · subst ha
    simp only [if_true, UInt64.toNat_add, Nat.mod_eq_of_lt hb]
  · simp [ha]

/-- The balances are those of the exact ledger of `txs`, and every account
that received something has an entry. -/
structure Exact (m : TreeMap L.Address UInt64) (txs : List L.Transaction) : Prop where
  balance (a : L.Address) : (balance m a).toNat + sent txs a = received txs a
  entry (a : L.Address) : 0 < received txs a → ∃ x, m[a]? = some x

theorem exact_empty : Exact (L := L) ∅ [] :=
  ⟨fun _ => by rw [balance_eq]; rfl, fun a h => absurd h (by simp [received])⟩

section Step

variable {m : TreeMap L.Address UInt64} {txs : List L.Transaction} {tx : L.Transaction}

theorem mem_updateBalanceFor {a : L.Address} (h : L.txTo tx = a ∨ ∃ x, m[a]? = some x) :
    ∃ x, (BlockChain.updateBalanceFor m tx)[a]? = some x := by
  have hd : (∃ x, m[a]? = some x) → ∃ x, (debited m tx)[a]? = some x := by
    rintro ⟨x, hx⟩
    unfold debited
    split
    · exact ⟨x, hx⟩
    · split <;>
      · rw [getElem?_insert_of_mem]
        split
        · exact ⟨_, rfl⟩
        · exact ⟨x, hx⟩
  rw [updateBalanceFor_eq, credit, getElem?_insert_of_mem]
  rcases h with h | h
  · exact ⟨_, by rw [if_pos h]⟩
  · split
    · exact ⟨_, rfl⟩
    · exact hd h

/-- No sum of balances that the ledger reaches wraps around. -/
theorem Exact.fits (h : Exact m txs) (hc : CoveredIn m tx) (hv : volume (txs ++ [tx]) < 2 ^ 64) :
    (Framework.balance (debited m tx) (L.txTo tx)).toNat + (L.value tx).toNat < 2 ^ 64 := by
  have hb := h.balance (L.txTo tx)
  have hd := debited_covered hc (L.txTo tx)
  have hr := received_le_volume txs (L.txTo tx)
  rw [volume_append, volume_single] at hv
  omega

/-- A covered transaction keeps the balances exact. -/
theorem Exact.step (h : Exact m txs) (hc : CoveredIn m tx) (hv : volume (txs ++ [tx]) < 2 ^ 64) :
    Exact (BlockChain.updateBalanceFor m tx) (txs ++ [tx]) := by
  have hf := h.fits hc hv
  refine ⟨fun a => ?_, fun a ha => ?_⟩
  · have hb := h.balance a
    have hd := debited_covered hc a
    rw [updateBalanceFor_eq, toNat_balance_credit hf, received_append, sent_append, received_single]
    omega
  · refine mem_updateBalanceFor ?_
    rw [received_append, received_single] at ha
    by_cases hto : L.txTo tx = a
    · exact .inl hto
    · exact .inr (h.entry a (by simpa [hto] using ha))

/-- A covered transaction moves its value, or creates it if it is coinbase. -/
theorem Exact.total_step (h : Exact m txs) (hc : CoveredIn m tx) (hv : volume (txs ++ [tx]) < 2 ^ 64) :
    sumBalances (BlockChain.updateBalanceFor m tx) = sumBalances m + coinbaseSum [tx] := by
  have hd := sumBalances_debited hc
  rw [updateBalanceFor_eq, sumBalances_credit (h.fits hc hv)]
  simp only [coinbaseSum, List.map_cons, List.map_nil, List.sum_cons, List.sum_nil, Nat.add_zero]
  cases hb : L.coinbase tx <;> simp only [hb, if_true, Bool.false_eq_true, if_false] at hd ⊢ <;> omega

/-- In an exact ledger, a sender can send what it has received exactly when
its entry covers it. -/
theorem Exact.covered_iff (h : Exact m txs) (hp : 0 < L.value tx) :
    CoveredIn m tx ↔ (L.coinbase tx = false →
      sent txs (L.txFrom tx) + (L.value tx).toNat ≤ received txs (L.txFrom tx)) := by
  have hb := h.balance (L.txFrom tx)
  have hp := UInt64.lt_iff_toNat_lt.mp hp
  refine forall_congr' fun _ => ⟨?_, fun hs => ?_⟩
  · rintro ⟨x, hx, hv⟩
    have := UInt64.le_iff_toNat_le.mp hv
    simp only [balance_eq, hx, Option.getD_some] at hb
    omega
  · obtain ⟨x, hx⟩ := h.entry (L.txFrom tx) (by simp at hp; omega)
    refine ⟨x, hx, UInt64.le_iff_toNat_le.mpr ?_⟩
    simp only [balance_eq, hx, Option.getD_some] at hb
    omega

end Step

/-! ## Blocks and chains -/

/-- A list of covered transactions. -/
theorem Exact.run {m : TreeMap L.Address UInt64} {txs ts : List L.Transaction} (h : Exact m txs)
    (hv : volume (txs ++ ts) < 2 ^ 64) (hc : Along BlockChain.updateBalanceFor CoveredIn m ts) :
    Exact (run BlockChain.updateBalanceFor m ts) (txs ++ ts) ∧
      sumBalances (run BlockChain.updateBalanceFor m ts) = sumBalances m + coinbaseSum ts := by
  induction ts generalizing m txs with
  | nil => simpa [coinbaseSum] using h
  | cons tx ts ih =>
    have hv1 : volume (txs ++ [tx]) < 2 ^ 64 := by
      rw [← List.singleton_append, ← List.append_assoc, volume_append] at hv; omega
    obtain ⟨he, ht⟩ := ih (h.step hc.1 hv1) (by simpa using hv) hc.2
    refine ⟨by simpa using he, ?_⟩
    rw [run_cons, ht, h.total_step hc.1 hv1]
    simp only [coinbaseSum, List.map_cons, List.map_nil, List.sum_cons, List.sum_nil]
    omega

/-- A chain and the transactions of the blocks it accepted, in order. -/
structure Booked (L : Core) where
  chain : BlockChain L := {}
  booked : List L.Transaction := []

namespace Booked

/-- A call of `append_block`. -/
def append (s : Booked L) (b : L.Blk) : Booked L :=
  match s.chain.appendBlock b with
  | some c => ⟨c, s.booked ++ b.transactions⟩
  | none => s

/-- If `b` is accepted, every transaction of it is covered when its turn comes. -/
def Covered (s : Booked L) (b : L.Blk) : Prop :=
  (s.chain.appendBlock b).isSome →
    Along BlockChain.updateBalanceFor CoveredIn s.chain.accountBalances b.transactions

instance (s : Booked L) (b : L.Blk) : Decidable (s.Covered b) :=
  inferInstanceAs (Decidable (_ → _))

/-- If `b` is accepted: the sum of all balances grows by its coinbase values,
the balances are what was received minus what was sent, after the block and
after each of its transactions, and no account sends more than it received. -/
def Conserves (s : Booked L) (b : L.Blk) : Prop :=
  ∀ c, s.chain.appendBlock b = some c →
    sumBalances c.accountBalances = sumBalances s.chain.accountBalances + coinbaseSum b.transactions ∧
    (∀ a, ((c.balanceOf a).toNat : ℤ) =
      received (s.booked ++ b.transactions) a - sent (s.booked ++ b.transactions) a) ∧
    ∀ ts tx rest, b.transactions = ts ++ tx :: rest →
      (L.coinbase tx = false → sent (s.booked ++ ts) (L.txFrom tx) + (L.value tx).toNat ≤
        received (s.booked ++ ts) (L.txFrom tx)) ∧
      ∀ a, ((balance (run BlockChain.updateBalanceFor s.chain.accountBalances (ts ++ [tx])) a).toNat : ℤ) =
        received (s.booked ++ (ts ++ [tx])) a - sent (s.booked ++ (ts ++ [tx])) a

variable {s : Booked L} {b : L.Blk}

theorem Exact.cast {m : TreeMap L.Address UInt64} {txs : List L.Transaction} (h : Exact m txs)
    (a : L.Address) : ((balance m a).toNat : ℤ) = received txs a - sent txs a := by
  have := h.balance a
  omega

theorem value_pos {c : BlockChain L} (h : s.chain.appendBlock b = some c) {tx : L.Transaction}
    (ht : tx ∈ b.transactions) : 0 < L.value tx := by
  have := List.all_eq_true.mp (BlockChain.appendBlock_eq_some h).2.1 tx ht
  simp only [Bool.and_eq_true, decide_eq_true_eq] at this
  exact this.2

/-- From exact balances, a block is booked exactly if and only if it is covered. -/
theorem conserves_iff (h : Exact s.chain.accountBalances s.booked)
    (hv : (s.chain.appendBlock b).isSome → volume (s.booked ++ b.transactions) < 2 ^ 64) :
    s.Conserves b ↔ s.Covered b := by
  cases hb : s.chain.appendBlock b with
  | none => simp [Conserves, Covered, hb]
  | some c =>
    have hv := hv (by simp [hb])
    have hp : ∀ ts rest, b.transactions = ts ++ rest → volume (s.booked ++ ts) < 2 ^ 64 := by
      intro ts rest e
      rw [e, ← List.append_assoc, volume_append] at hv
      omega
    constructor
    · intro hs _
      obtain ⟨-, -, hs⟩ := hs c hb
      -- The transactions before a prefix's last one are covered, so it meets an exact ledger.
      have : ∀ ts rest, b.transactions = ts ++ rest →
          Along BlockChain.updateBalanceFor CoveredIn s.chain.accountBalances ts := by
        intro ts
        induction ts using List.reverseRecOn with
        | nil => exact fun _ _ => trivial
        | append_singleton ts tx ih =>
          intro rest e
          have e' : b.transactions = ts ++ tx :: rest := by rw [e, List.append_assoc, List.singleton_append]
          have hc := ih (tx :: rest) e'
          refine (along_append _).mpr ⟨hc, ?_, trivial⟩
          refine ((h.run (hp ts _ e') hc).1.covered_iff (value_pos hb (by rw [e']; simp))).mpr ?_
          exact (hs ts tx rest e').1
      exact this b.transactions [] (by simp)
    · intro hc c' hc'
      have hc := hc (by simp [hb])
      obtain ⟨-, -, -, hbal⟩ := BlockChain.appendBlock_eq_some hc'
      have hrun : c'.accountBalances =
          run BlockChain.updateBalanceFor s.chain.accountBalances b.transactions :=
        hbal
      have hpre : ∀ ts rest, b.transactions = ts ++ rest →
          Exact (run BlockChain.updateBalanceFor s.chain.accountBalances ts) (s.booked ++ ts) :=
        fun ts rest e => (h.run (hp ts rest e) ((along_append rest).mp (e ▸ hc)).1).1
      refine ⟨?_, fun a => ?_, fun ts tx rest e => ⟨?_, fun a => ?_⟩⟩
      · rw [hrun, (h.run hv hc).2]
      · rw [show c'.balanceOf a = balance c'.accountBalances a from rfl, hrun]
        exact Exact.cast (hpre _ [] (by simp)) a
      · exact ((hpre ts _ e).covered_iff (value_pos hb (by rw [e]; simp))).mp
          ((along_iff.mp hc) ts tx rest e)
      · exact Exact.cast (hpre _ rest (by rw [e]; simp)) a

theorem volume_le_run (s : Booked L) (bs : List L.Blk) :
    volume s.booked ≤ volume (run append s bs).booked := by
  refine run_inv_of_all (I := fun t : Booked L => volume s.booked ≤ volume t.booked)
    (fun t b ht => ?_) (le_refl _)
  unfold append
  split
  · rw [volume_append]; omega
  · exact ht

theorem exact_append (h : Exact s.chain.accountBalances s.booked)
    (hv : volume (s.append b).booked < 2 ^ 64) (hc : s.Covered b) :
    Exact (s.append b).chain.accountBalances (s.append b).booked := by
  unfold append at hv ⊢
  cases hb : s.chain.appendBlock b with
  | none => exact h
  | some c =>
    simp only [hb] at hv ⊢
    rw [(BlockChain.appendBlock_eq_some hb).2.2.2]
    exact (h.run hv (hc (by simp [hb]))).1

theorem along_conserves_iff (bs : List L.Blk) (h : Exact s.chain.accountBalances s.booked)
    (hv : volume (run append s bs).booked < 2 ^ 64) :
    Along append Conserves s bs ↔ Along append Covered s bs := by
  induction bs generalizing s with
  | nil => rfl
  | cons b bs ih =>
    have hv' : volume (s.append b).booked < 2 ^ 64 := lt_of_le_of_lt (volume_le_run _ bs) hv
    have hb : s.Conserves b ↔ s.Covered b := conserves_iff h fun hs => by
      obtain ⟨c, hc⟩ := Option.isSome_iff_exists.mp hs
      simpa only [append, hc] using hv'
    rw [along_cons, along_cons, hb]
    exact and_congr_right fun hc => ih (exact_append h hv' hc) hv

end Booked

/-- **The ledger of a chain.** Over every sequence of `append_block` calls
from the empty chain, with all values accepted adding up to less than `2⁶⁴`:
every accepted block is booked exactly if and only if every transaction of an
accepted block is covered when its turn comes. -/
theorem ledger_iff (bs : List L.Blk) (hv : volume (run Booked.append ({} : Booked L) bs).booked < 2 ^ 64) :
    Along Booked.append Booked.Conserves {} bs ↔ Along Booked.append Booked.Covered {} bs :=
  Booked.along_conserves_iff bs exact_empty hv

/-- A block of `Core.sample` with the index `i`. -/
def sampleBlock (i : Nat) (txs : List SampleTransaction) : Core.sample.Blk := ⟨⟨i, 0, i⟩, txs⟩

/-- A reward of 100, then a payment out of it. -/
theorem ledger_iff_sample :
    Along Booked.append Booked.Conserves ({} : Booked Core.sample)
      [sampleBlock 1 [⟨1, 1, 100, true⟩], sampleBlock 2 [⟨1, 2, 30, false⟩]] :=
  (ledger_iff _ (by decide)).mpr (by decide)

/-- A payment of 7 from an account without an entry: the payee's 7 are
created, and no coinbase value is in the block. -/
theorem ledger_unknown_sender :
    volume (run Booked.append ({} : Booked Core.sample) [sampleBlock 1 [⟨5, 6, 7, false⟩]]).booked < 2 ^ 64 ∧
      ¬ Along Booked.append Booked.Conserves ({} : Booked Core.sample) [sampleBlock 1 [⟨5, 6, 7, false⟩]] :=
  ⟨by decide, fun h => absurd (h.1 _ rfl).1 (by decide)⟩

end Bryllite.NodeServerMono
