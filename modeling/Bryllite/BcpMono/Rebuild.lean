import Bryllite.BcpMono.Ledger
import Mathlib.Data.UInt

/-!
# Rebuilding the balances (bcp_mono)

`rebuild_balance` does not clear the balances: it carries out the stored transactions
a second time, over the balances the first time left. So balances stay what they are
exactly if, of the transactions that go through the second time, every account
receives as much as it sends. Where no transaction destroys value, this is so only if
none creates any either, and then no account has anything (`rebuild_iff`).
-/

namespace Bryllite.BcpMono

open Std (TreeMap)
open Bryllite.Framework
open BlockChain (buildBalanceForTx)

variable {L : Core}

/-! ## Balances as a function of the account -/

/-- The balances after a transaction that goes through. -/
def settle (f : L.Address → UInt64) (tx : L.Transaction) : L.Address → UInt64 := fun a =>
  f a - (if Pays tx ∧ L.txFrom tx = a then L.value tx else 0) +
    if Credits tx ∧ L.txTo tx = a then L.value tx else 0

/-- The transactions that go through, from the balances `f`. -/
def carried (f : L.Address → UInt64) : List L.Transaction → List L.Transaction
  | [] => []
  | tx :: txs =>
    if L.value tx ≠ 0 ∧ (Pays tx → L.value tx ≤ f (L.txFrom tx)) then tx :: carried (settle f tx) txs
    else carried f txs

/-- What `a` sends. -/
def debits (txs : List L.Transaction) (a : L.Address) : UInt64 :=
  (txs.map fun tx => if Pays tx ∧ L.txFrom tx = a then L.value tx else 0).sum

/-- What `a` receives. -/
def credits (txs : List L.Transaction) (a : L.Address) : UInt64 :=
  (txs.map fun tx => if Credits tx ∧ L.txTo tx = a then L.value tx else 0).sum

/-- From the balances `f`, every account receives as much as it sends. -/
def Balanced (f : L.Address → UInt64) (txs : List L.Transaction) : Prop :=
  ∀ a, credits (carried f txs) a = debits (carried f txs) a

variable {m : TreeMap L.Address UInt64} {tx : L.Transaction} {txs : List L.Transaction}

theorem debits_cons (tx : L.Transaction) (txs : List L.Transaction) (a : L.Address) :
    debits (tx :: txs) a = (if Pays tx ∧ L.txFrom tx = a then L.value tx else 0) + debits txs a := by
  simp only [debits, List.map_cons, List.sum_cons]

theorem credits_cons (tx : L.Transaction) (txs : List L.Transaction) (a : L.Address) :
    credits (tx :: txs) a = (if Credits tx ∧ L.txTo tx = a then L.value tx else 0) + credits txs a := by
  simp only [credits, List.map_cons, List.sum_cons]

theorem balance_of_goesThrough (hg : GoesThrough m tx) : balance (buildBalanceForTx m tx) = settle (balance m) tx := by
  funext a
  rw [buildBalanceForTx_of_goesThrough hg, balance_credited, balance_paid, settle]

/-- What transactions do to a balance. -/
theorem balance_run (m : TreeMap L.Address UInt64) (txs : List L.Transaction) (a : L.Address) :
    balance (run buildBalanceForTx m txs) a + debits (carried (balance m) txs) a =
      balance m a + credits (carried (balance m) txs) a := by
  induction txs generalizing m with
  | nil => rfl
  | cons tx txs ih =>
    rw [run_cons]
    by_cases hg : GoesThrough m tx
    · have hc : carried (balance m) (tx :: txs) = tx :: carried (balance (buildBalanceForTx m tx)) txs := by
        rw [balance_of_goesThrough hg]
        exact if_pos hg
      have hstep : balance (buildBalanceForTx m tx) a + (if Pays tx ∧ L.txFrom tx = a then L.value tx else 0) =
          balance m a + if Credits tx ∧ L.txTo tx = a then L.value tx else 0 := by
        rw [balance_of_goesThrough hg, settle, UInt64.add_assoc, UInt64.add_comm (ite _ _ _), ← UInt64.add_assoc,
          UInt64.sub_add_cancel]
      have hrest := ih (buildBalanceForTx m tx)
      rw [hc, debits_cons, credits_cons]
      generalize (if Pays tx ∧ L.txFrom tx = a then L.value tx else 0) = paid at hstep ⊢
      generalize (if Credits tx ∧ L.txTo tx = a then L.value tx else 0) = got at hstep ⊢
      calc balance _ a + (paid + debits _ a) = paid + (balance _ a + debits _ a) := by ac_rfl
        _ = balance (buildBalanceForTx m tx) a + paid + credits _ a := by rw [hrest]; ac_rfl
        _ = balance m a + (got + credits _ a) := by rw [hstep, UInt64.add_assoc]
    · have hc : carried (balance m) (tx :: txs) = carried (balance m) txs := if_neg hg
      rw [buildBalanceForTx_of_not_goesThrough hg, hc]
      exact ih m

/-- Balances stay what they are exactly if they are balanced. -/
theorem balance_run_iff (m : TreeMap L.Address UInt64) (txs : List L.Transaction) :
    balance (run buildBalanceForTx m txs) = balance m ↔ Balanced (balance m) txs := by
  constructor
  · intro h a
    have := balance_run m txs a
    rw [h] at this
    exact ((UInt64.add_right_inj _).mp this).symm
  · intro h
    funext a
    have := balance_run m txs a
    rw [h a] at this
    exact (UInt64.add_left_inj _).mp this

/-! ## Value that nothing destroys -/

/-- The sum of all balances grows by what is created, modulo `2⁶⁴`. -/
theorem sumBalances_step_mod (hb : ¬Burns tx) :
    sumBalances (buildBalanceForTx m tx) ≡ sumBalances m + minted [tx] [MOD 2 ^ 64] := by
  have hm : minted [tx] = if Mints tx then (L.value tx).toNat else 0 := by rw [minted_cons]; rfl
  rw [hm]
  by_cases hg : GoesThrough m tx
  · have hsum := sumBalances_paid_credit hg
    rw [if_neg hb, Nat.add_zero] at hsum
    rw [buildBalanceForTx_of_goesThrough hg, ← hsum]
    unfold credited
    split
    · exact sumBalances_credit_mod _ _ _
    · exact Nat.ModEq.refl _
  · rw [buildBalanceForTx_of_not_goesThrough hg, minted_of_not_goesThrough hg]
    exact Nat.ModEq.refl _

theorem sumBalances_run_mod (m : TreeMap L.Address UInt64) (hb : ∀ tx ∈ txs, ¬Burns tx) :
    sumBalances (run buildBalanceForTx m txs) ≡ sumBalances m + minted txs [MOD 2 ^ 64] := by
  induction txs generalizing m with
  | nil => exact Nat.ModEq.refl _
  | cons tx txs ih =>
    have hstep := sumBalances_step_mod (m := m) (hb tx List.mem_cons_self)
    rw [run_cons, show minted (tx :: txs) = minted [tx] + minted txs from minted_append [tx] txs, ← Nat.add_assoc]
    exact (ih _ fun tx h => hb tx (List.mem_cons_of_mem _ h)).trans (hstep.add_right _)

theorem value_of_minted_eq_zero (h : minted txs = 0) (htx : tx ∈ txs) (hm : Mints tx) : L.value tx = 0 := by
  have hz := List.sum_eq_zero_iff_forall_eq_nat.mp h _ (List.mem_map_of_mem htx)
  rw [if_pos hm] at hz
  exact UInt64.toNat_inj.mp hz

/-- No account has anything. -/
def Unfunded (m : TreeMap L.Address UInt64) : Prop := ∀ a, balance m a = 0

/-- Where nobody has anything and nothing is created, nobody gets anything. -/
theorem Unfunded.step (h : Unfunded m) (hm : Mints tx → L.value tx = 0) : Unfunded (buildBalanceForTx m tx) := by
  intro a
  by_cases hg : GoesThrough m tx
  · have hp : ¬Pays tx := fun hp => hg.1 (UInt64.le_antisymm (h (L.txFrom tx) ▸ hg.2 hp) UInt64.zero_le)
    have hc : ¬Credits tx := fun hc => hg.1 (hm ⟨hp, hc⟩)
    rw [balance_of_goesThrough hg, settle, if_neg fun h => hp h.1, if_neg fun h => hc h.1, h a]
    rfl
  · rw [buildBalanceForTx_of_not_goesThrough hg]
    exact h a

theorem Unfunded.run (h : Unfunded m) (hm : ∀ tx ∈ txs, Mints tx → L.value tx = 0) : Unfunded (run buildBalanceForTx m txs) :=
  run_inv (P := fun _ tx => Mints tx → L.value tx = 0) (fun _ _ hi hp => hi.step hp) h (along_of_forall hm)

/-! ## The chain -/

namespace BlockChain

variable {c c' : BlockChain L}

/-- All stored transactions, in the order of the blocks. -/
def transactions (c : BlockChain L) : List L.Transaction := c.blocks.toList.flatMap fun e => e.2.transactions

/-- `append_block( index, block, true )`. -/
def append (c : BlockChain L) (e : Nat × L.Blk) : BlockChain L := (c.appendBlock e.1 e.2 true).getD c

theorem mem_transactions {tx : L.Transaction} :
    tx ∈ c.transactions ↔ ∃ i b, c.getBlock i = some b ∧ tx ∈ b.transactions := by
  simp only [transactions, List.mem_flatMap, Prod.exists, mem_toList]
  rfl

/-- `rebuild_balance` carries out all stored transactions. -/
theorem rebuildBalance_eq (c : BlockChain L) :
    c.rebuildBalance = { c with balances := run buildBalanceForTx c.balances c.transactions } := by
  unfold rebuildBalance transactions
  generalize c.blocks.toList = l
  induction l generalizing c with
  | nil => rfl
  | cons e l ih =>
    rw [List.foldl_cons, ih, List.flatMap_cons, run_append]
    rfl

theorem balanceOf_rebuildBalance (c : BlockChain L) :
    c.rebuildBalance.balanceOf = balance (run buildBalanceForTx c.balances c.transactions) := by
  rw [rebuildBalance_eq]
  rfl

/-- However often it is done. -/
theorem rebuilds_iff (c : BlockChain L) :
    (∀ k a, (rebuildBalance^[k] c).balanceOf a = c.balanceOf a) ↔ Balanced c.balanceOf c.transactions := by
  constructor
  · intro h
    refine (balance_run_iff c.balances c.transactions).mp (funext fun a => ?_)
    rw [← balanceOf_rebuildBalance]
    exact h 1 a
  · intro h k
    suffices hk : (rebuildBalance^[k] c).blocks = c.blocks ∧ (rebuildBalance^[k] c).balanceOf = c.balanceOf from
      fun a => congrFun hk.2 a
    induction k with
    | zero => exact ⟨rfl, rfl⟩
    | succ k ih =>
      obtain ⟨hblocks, hbal⟩ := ih
      rw [Function.iterate_succ_apply']
      generalize rebuildBalance^[k] c = c' at hblocks hbal ⊢
      have ht : c'.transactions = c.transactions := by rw [transactions, hblocks, transactions]
      refine ⟨by rw [rebuildBalance_eq, hblocks], ?_⟩
      rw [balanceOf_rebuildBalance, ← hbal]
      refine (balance_run_iff c'.balances c'.transactions).mpr ?_
      rw [ht, show balance c'.balances = c.balanceOf from hbal]
      exact h

/-- As long as no stored transaction creates value, nobody has anything. -/
theorem unfunded_append {e : Nat × L.Blk}
    (h : (∀ tx ∈ c.transactions, Mints tx → L.value tx = 0) → Unfunded c.balances) :
    (∀ tx ∈ (c.append e).transactions, Mints tx → L.value tx = 0) → Unfunded (c.append e).balances := by
  unfold append
  cases hc : c.appendBlock e.1 e.2 true with
  | none => exact h
  | some c' =>
    show (∀ tx ∈ c'.transactions, Mints tx → L.value tx = 0) → Unfunded c'.balances
    intro hm
    obtain ⟨hfree, hblocks⟩ := appendBlock_eq_some hc
    have hbal : c'.balances = run buildBalanceForTx c.balances e.2.transactions := by
      unfold appendBlock at hc
      split at hc
      · cases hc
      · cases hc
        rfl
    have hget : ∀ i, c'.getBlock i = if e.1 = i then some e.2 else c.getBlock i := fun i => by
      rw [getBlock, hblocks, getElem?_insert_of_mem]
      rfl
    rw [hbal]
    refine (h fun tx htx => hm tx ?_).run fun tx htx => hm tx ?_
    · obtain ⟨i, b, hb, htx⟩ := mem_transactions.mp htx
      refine mem_transactions.mpr ⟨i, b, ?_, htx⟩
      rw [hget, if_neg, hb]
      rintro rfl
      rw [hfree] at hb
      cases hb
    · exact mem_transactions.mpr ⟨e.1, e.2, by rw [hget, if_pos rfl], htx⟩

/-- **Rebuilding the balances.** After any calls of `append_block`, rebuilding the
balances, any number of times, leaves them what they are if and only if the stored
transactions are balanced from them. Where no stored transaction destroys value, and
what they create is below `2⁶⁴`, this is so if and only if none creates any. -/
theorem rebuild_iff (calls : List (Nat × L.Blk)) :
    let c := run append {} calls
    let Unchanged := ∀ k a, (rebuildBalance^[k] c).balanceOf a = c.balanceOf a
    (Unchanged ↔ Balanced c.balanceOf c.transactions) ∧
      ((∀ tx ∈ c.transactions, ¬Burns tx) → minted c.transactions < 2 ^ 64 →
        (Unchanged ↔ ∀ tx ∈ c.transactions, Mints tx → L.value tx = 0)) := by
  intro c Unchanged
  refine ⟨rebuilds_iff c, fun hb hv => ⟨fun h tx htx hm => ?_, fun hm => (rebuilds_iff c).mpr ?_⟩⟩
  · have hsame : balance (run buildBalanceForTx c.balances c.transactions) = balance c.balances :=
      (balance_run_iff c.balances c.transactions).mpr ((rebuilds_iff c).mp h)
    have hmod := sumBalances_run_mod c.balances hb
    rw [sumBalances_congr fun a => congrFun hsame a] at hmod
    have hzero : minted c.transactions = 0 := by
      have : minted c.transactions ≡ 0 [MOD 2 ^ 64] := Nat.ModEq.add_left_cancel' (sumBalances c.balances) hmod.symm
      exact this.eq_of_lt_of_lt hv (by decide)
    exact value_of_minted_eq_zero hzero htx hm
  · have hnone : Unfunded c.balances :=
      run_inv_of_all (I := fun c : BlockChain L => (∀ tx ∈ c.transactions, Mints tx → L.value tx = 0) → Unfunded c.balances)
        (fun _ _ => unfunded_append) (fun _ _ => rfl) hm
    refine (balance_run_iff c.balances c.transactions).mp (funext fun a => ?_)
    rw [hnone.run hm a, hnone a]

/-- The small instance with an empty address. -/
def sampleWithEmpty : Core := { Core.sample with addressEmpty := fun (a : Nat) => decide (a = 0) }

/-- A reward of 100, which is paid on and then destroyed. -/
theorem rebuild_iff_sample :
    let reward : sampleWithEmpty.Transaction := (⟨1, 1, 100, true⟩ : SampleTransaction)
    let payment : sampleWithEmpty.Transaction := (⟨1, 2, 100, false⟩ : SampleTransaction)
    let burn : sampleWithEmpty.Transaction := (⟨2, 0, 100, false⟩ : SampleTransaction)
    let calls : List (Nat × sampleWithEmpty.Blk) :=
      [(1, { header := (⟨1, 0, 0⟩ : SampleHeader), transactions := [reward] }),
        (2, { header := (⟨2, 0, 1⟩ : SampleHeader), transactions := [payment, burn] })]
    let c := run append {} calls
    Burns burn ∧ (run append {} (calls.take 1)).balanceOf (1 : Nat) = 100 ∧
      ∀ k a, (rebuildBalance^[k] c).balanceOf a = c.balanceOf a := by
  intro reward payment burn calls c
  have hburns : Burns burn := ⟨⟨by decide +kernel, by decide +kernel⟩, by unfold Credits; decide +kernel⟩
  refine ⟨hburns, by decide +kernel, (rebuild_iff calls).1.mpr fun a => ?_⟩
  have hcarried : carried c.balanceOf c.transactions = [reward, payment, burn] := by decide +kernel
  have hpays : Pays payment := ⟨by decide +kernel, by decide +kernel⟩
  have hcredits : Credits payment := by unfold Credits; decide +kernel
  have hmints : Mints reward := ⟨by unfold Pays; decide +kernel, by unfold Credits; decide +kernel⟩
  rw [hcarried]
  simp only [credits_cons, debits_cons, hburns.1, hburns.2, hpays, hcredits, hmints.1, hmints.2, true_and, false_and,
    if_false, zero_add]
  -- the payment is of the reward's receiver, and the burn of the payment's
  rfl

/-- A reward of 100 becomes one of 200. -/
theorem rebuild_doubles :
    let calls : List (Nat × Core.sample.Blk) :=
      [(1, { header := (⟨1, 0, 0⟩ : SampleHeader), transactions := ([⟨1, 1, 100, true⟩] : List SampleTransaction) })]
    let c := run append {} calls
    calls.Pairwise (fun e e' => e.1 < e'.1) ∧ c.balanceOf (1 : Nat) = 100 ∧
      c.rebuildBalance.balanceOf (1 : Nat) = 200 ∧
      ¬∀ k a, (rebuildBalance^[k] c).balanceOf a = c.balanceOf a := by
  intro calls c
  have hc : c.balanceOf (1 : Nat) = 100 := by decide +kernel
  have hr : c.rebuildBalance.balanceOf (1 : Nat) = 200 := by decide +kernel
  refine ⟨List.pairwise_singleton _ _, hc, hr, fun h => ?_⟩
  exact absurd ((hr.symm.trans (h 1 (1 : Nat))).trans hc) (by decide)

end BlockChain

end Bryllite.BcpMono
