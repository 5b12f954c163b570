import Bryllite.BcpMono.BlockChain
import Bryllite.Framework.Balances
import Bryllite.Framework.Run

/-!
# The balances of a chain (bcp_mono)

What a transaction does to the balances: nothing, or its sender pays and its receiver
is credited, if there are these (`buildBalanceForTx_eq`). A sender pays only what it
has, so nothing is overdrawn. The sum of all balances changes by the transactions with
no sender that pays, and by those with no receiver (`transfers_conserve`).
-/

namespace Bryllite.BcpMono

open Std (TreeMap)
open Bryllite.Framework
open BlockChain (buildBalanceForTx)

variable {L : Core}

/-! ## One transaction -/

/-- The sender of the transaction has to pay. -/
def Pays (tx : L.Transaction) : Prop := L.addressEmpty (L.txFrom tx) = false ∧ L.txFrom tx ≠ L.txTo tx

/-- The transaction has a receiver. -/
def Credits (tx : L.Transaction) : Prop := L.addressEmpty (L.txTo tx) = false

/-- It moves its value, -/
def Moves (tx : L.Transaction) : Prop := Pays tx ∧ Credits tx

/-- creates it: nobody pays, -/
def Mints (tx : L.Transaction) : Prop := ¬Pays tx ∧ Credits tx

/-- or destroys it: nobody is credited. -/
def Burns (tx : L.Transaction) : Prop := Pays tx ∧ ¬Credits tx

/-- The sender has the value. -/
def Affords (m : TreeMap L.Address UInt64) (tx : L.Transaction) : Prop := L.value tx ≤ balance m (L.txFrom tx)

/-- The transaction has a value, and its sender has it if it has to pay. -/
def GoesThrough (m : TreeMap L.Address UInt64) (tx : L.Transaction) : Prop :=
  L.value tx ≠ 0 ∧ (Pays tx → Affords m tx)

instance : DecidablePred (Pays (L := L)) := fun _ => inferInstanceAs (Decidable (_ ∧ _))
instance : DecidablePred (Credits (L := L)) := fun _ => inferInstanceAs (Decidable (_ = _))
instance : DecidablePred (Moves (L := L)) := fun _ => inferInstanceAs (Decidable (_ ∧ _))
instance : DecidablePred (Mints (L := L)) := fun _ => inferInstanceAs (Decidable (_ ∧ _))
instance : DecidablePred (Burns (L := L)) := fun _ => inferInstanceAs (Decidable (_ ∧ _))
instance (m : TreeMap L.Address UInt64) : DecidablePred (Affords m) := fun _ => inferInstanceAs (Decidable (_ ≤ _))
instance (m : TreeMap L.Address UInt64) : DecidablePred (GoesThrough m) :=
  fun _ => inferInstanceAs (Decidable (_ ∧ _))

/-- The balances once the sender has paid, -/
def paid (m : TreeMap L.Address UInt64) (tx : L.Transaction) : TreeMap L.Address UInt64 :=
  if Pays tx then debit m (L.txFrom tx) (L.value tx) else m

/-- and once the receiver is credited. -/
def credited (m : TreeMap L.Address UInt64) (tx : L.Transaction) : TreeMap L.Address UInt64 :=
  if Credits tx then credit m (L.txTo tx) (L.value tx) else m

variable {m : TreeMap L.Address UInt64} {tx : L.Transaction}

/-- What the loop does with a transaction. -/
theorem buildBalanceForTx_eq (m : TreeMap L.Address UInt64) (tx : L.Transaction) :
    buildBalanceForTx m tx = if GoesThrough m tx then credited (paid m tx) tx else m := by
  have hcredit : ∀ m : TreeMap L.Address UInt64,
      (if L.addressEmpty (L.txTo tx) then m else credit m (L.txTo tx) (L.value tx)) = credited m tx := by
    intro m
    by_cases hc : Credits tx
    · rw [credited, if_pos hc, if_neg (by rw [hc]; exact Bool.false_ne_true)]
    · rw [credited, if_neg hc, if_pos (Bool.not_eq_false _ ▸ hc)]
  have hmatch : ∀ m : TreeMap L.Address UInt64, _ = credited m tx := fun m =>
    (if_congr Iff.rfl rfl (credit_match m (L.txTo tx) (L.value tx))).trans (hcredit m)
  have hpays : (!L.addressEmpty (L.txFrom tx) && decide (L.txFrom tx ≠ L.txTo tx)) = true ↔ Pays tx := by
    rw [Bool.and_eq_true, Bool.not_eq_true', decide_eq_true_eq, Pays]
  unfold buildBalanceForTx
  dsimp only
  by_cases hv : L.value tx = 0
  · rw [if_pos hv, if_neg fun h => h.1 hv]
  rw [if_neg hv]
  by_cases hp : Pays tx
  · have hgoes : GoesThrough m tx ↔ Affords m tx := ⟨fun h => h.2 hp, fun h => ⟨hv, fun _ => h⟩⟩
    rw [if_pos (hpays.mpr hp), paid, if_pos hp]
    simp only [hgoes, Affords, balance_eq, debit]
    cases hb : m[L.txFrom tx]? with
    | none =>
      dsimp only
      rw [Option.getD_none, if_neg]
      exact fun h => hv (UInt64.le_antisymm h UInt64.zero_le)
    | some x => exact if_congr Iff.rfl (hmatch _) rfl
  · rw [if_neg fun h => hp (hpays.mp h), if_pos (show GoesThrough m tx from ⟨hv, fun h => absurd h hp⟩), paid,
      if_neg hp]
    exact hmatch m

theorem buildBalanceForTx_of_goesThrough (h : GoesThrough m tx) :
    buildBalanceForTx m tx = credited (paid m tx) tx := by
  rw [buildBalanceForTx_eq, if_pos h]

theorem buildBalanceForTx_of_not_goesThrough (h : ¬GoesThrough m tx) : buildBalanceForTx m tx = m := by
  rw [buildBalanceForTx_eq, if_neg h]

theorem balance_paid (m : TreeMap L.Address UInt64) (tx : L.Transaction) (a : L.Address) :
    balance (paid m tx) a = balance m a - if Pays tx ∧ L.txFrom tx = a then L.value tx else 0 := by
  unfold paid
  by_cases hp : Pays tx
  · rw [if_pos hp, balance_debit]
    simp only [hp, true_and]
  · rw [if_neg hp, if_neg fun h => hp h.1, UInt64.sub_zero]

theorem balance_credited (m : TreeMap L.Address UInt64) (tx : L.Transaction) (a : L.Address) :
    balance (credited m tx) a = balance m a + if Credits tx ∧ L.txTo tx = a then L.value tx else 0 := by
  unfold credited
  by_cases hc : Credits tx
  · rw [if_pos hc, balance_credit]
    simp only [hc, true_and]
  · rw [if_neg hc, if_neg fun h => hc h.1, UInt64.add_zero]

theorem sumBalances_paid (h : GoesThrough m tx) :
    sumBalances (paid m tx) + (if Pays tx then (L.value tx).toNat else 0) = sumBalances m := by
  unfold paid
  by_cases hp : Pays tx
  · rw [if_pos hp, if_pos hp]
    exact sumBalances_debit (h.2 hp)
  · rw [if_neg hp, if_neg hp, Nat.add_zero]

/-! ## Sums over transactions -/

/-- The values that transactions create. -/
def minted (txs : List L.Transaction) : Nat :=
  (txs.map fun tx => if Mints tx then (L.value tx).toNat else 0).sum

/-- The values that transactions destroy, of those whose sender has the value in turn. -/
def burned (m : TreeMap L.Address UInt64) : List L.Transaction → Nat
  | [] => 0
  | tx :: txs =>
    (if Burns tx ∧ Affords m tx then (L.value tx).toNat else 0) + burned (buildBalanceForTx m tx) txs

theorem minted_append (txs txs' : List L.Transaction) : minted (txs ++ txs') = minted txs + minted txs' := by
  simp only [minted, List.map_append, List.sum_append]

theorem minted_cons (tx : L.Transaction) (txs : List L.Transaction) :
    minted (tx :: txs) = (if Mints tx then (L.value tx).toNat else 0) + minted txs := by
  simp only [minted, List.map_cons, List.sum_cons]

/-- A credit does not wrap around, if the sum of all balances and what is created does not. -/
theorem credit_fits (hg : GoesThrough m tx) (hc : Credits tx) (hv : sumBalances m + minted [tx] < 2 ^ 64) :
    (balance (paid m tx) (L.txTo tx)).toNat + (L.value tx).toNat < 2 ^ 64 := by
  have hle := balance_le_sum (paid m tx) (L.txTo tx)
  have hsum := sumBalances_paid hg
  rw [minted_cons] at hv
  by_cases hp : Pays tx
  · rw [if_pos hp] at hsum
    omega
  · rw [if_neg hp] at hsum
    rw [if_pos ⟨hp, hc⟩] at hv
    omega

/-- The balances after a transaction that goes through, as numbers. -/
theorem toNat_balance (hg : GoesThrough m tx) (hv : sumBalances m + minted [tx] < 2 ^ 64) (a : L.Address) :
    (balance (buildBalanceForTx m tx) a).toNat + (if Pays tx ∧ L.txFrom tx = a then (L.value tx).toNat else 0) =
      (balance m a).toNat + if Credits tx ∧ L.txTo tx = a then (L.value tx).toNat else 0 := by
  rw [buildBalanceForTx_of_goesThrough hg, balance_credited]
  by_cases hc : Credits tx ∧ L.txTo tx = a
  · have hfit := credit_fits hg hc.1 hv
    have hpay : ¬(Pays tx ∧ L.txFrom tx = a) := fun h => h.1.2 (h.2.trans hc.2.symm)
    rw [hc.2, balance_paid, if_neg hpay, UInt64.sub_zero] at hfit
    rw [if_pos hc, if_pos hc, if_neg hpay, balance_paid, if_neg hpay, UInt64.sub_zero, UInt64.toNat_add,
      Nat.mod_eq_of_lt hfit, Nat.add_zero]
  · rw [if_neg hc, if_neg hc, UInt64.add_zero, Nat.add_zero, balance_paid]
    by_cases hp : Pays tx ∧ L.txFrom tx = a
    · obtain ⟨hp, rfl⟩ := hp
      have hle := UInt64.le_iff_toNat_le.mp (hg.2 hp)
      rw [if_pos ⟨hp, rfl⟩, if_pos ⟨hp, rfl⟩, UInt64.toNat_sub_of_le _ _ (hg.2 hp)]
      omega
    · rw [if_neg hp, if_neg hp, UInt64.sub_zero, Nat.add_zero]

/-- What the payer loses goes to the receiver, and makes up for what is created or is
destroyed. -/
theorem sumBalances_paid_credit (hg : GoesThrough m tx) :
    sumBalances (paid m tx) + (if Credits tx then (L.value tx).toNat else 0) +
        (if Burns tx then (L.value tx).toNat else 0) =
      sumBalances m + if Mints tx then (L.value tx).toNat else 0 := by
  have hsum := sumBalances_paid hg
  by_cases hp : Pays tx
  · have hm : ¬Mints tx := fun h => h.1 hp
    rw [if_pos hp] at hsum
    rw [if_neg hm]
    by_cases hc : Credits tx
    · have hb : ¬Burns tx := fun h => h.2 hc
      rw [if_pos hc, if_neg hb]
      omega
    · have hb : Burns tx := ⟨hp, hc⟩
      rw [if_neg hc, if_pos hb]
      omega
  · have hb : ¬Burns tx := fun h => hp h.1
    rw [if_neg hp] at hsum
    rw [if_neg hb]
    by_cases hc : Credits tx
    · have hm : Mints tx := ⟨hp, hc⟩
      rw [if_pos hc, if_pos hm]
      omega
    · have hm : ¬Mints tx := fun h => hc h.2
      rw [if_neg hc, if_neg hm]
      omega

/-- A transaction that does not go through creates nothing. -/
theorem minted_of_not_goesThrough (hg : ¬GoesThrough m tx) : (if Mints tx then (L.value tx).toNat else 0) = 0 := by
  split
  · rename_i hm
    have hz : L.value tx = 0 := by
      by_contra hz
      exact hg ⟨hz, fun hp => absurd hp hm.1⟩
    rw [hz, UInt64.toNat_zero]
  · rfl

/-- The sum of all balances changes by what the transaction creates or destroys. -/
theorem sumBalances_step (hv : sumBalances m + minted [tx] < 2 ^ 64) :
    sumBalances (buildBalanceForTx m tx) + burned m [tx] = sumBalances m + minted [tx] := by
  have hb : burned m [tx] = if Burns tx ∧ Affords m tx then (L.value tx).toNat else 0 := rfl
  have hm : minted [tx] = if Mints tx then (L.value tx).toNat else 0 := by rw [minted_cons]; rfl
  by_cases hg : GoesThrough m tx
  · have hburns : (Burns tx ∧ Affords m tx) ↔ Burns tx := and_iff_left_of_imp fun h => hg.2 h.1
    have hcredited : sumBalances (credited (paid m tx) tx) =
        sumBalances (paid m tx) + if Credits tx then (L.value tx).toNat else 0 := by
      unfold credited
      split
      · rename_i hc
        exact sumBalances_credit (credit_fits hg hc hv)
      · rfl
    simp only [hburns] at hb
    rw [buildBalanceForTx_of_goesThrough hg, hcredited, hb, hm]
    exact sumBalances_paid_credit hg
  · -- It is void: it has no value, or its sender does not have it.
    have hburned : burned m [tx] = 0 := by
      rw [hb]
      split
      · rename_i h
        have hz : L.value tx = 0 := by
          by_contra hz
          exact hg ⟨hz, fun _ => h.2⟩
        rw [hz, UInt64.toNat_zero]
      · rfl
    rw [buildBalanceForTx_of_not_goesThrough hg, hburned, hm, minted_of_not_goesThrough hg]

/-! ## A block -/

/-- The transaction is carried out exactly: it takes from its sender alone, and its
value; it moves the value if both are there and the sender has it; and it changes
nothing if the sender has to pay and does not have it. -/
structure Conserves (m : TreeMap L.Address UInt64) (tx : L.Transaction) : Prop where
  covered (a : L.Address) : balance (buildBalanceForTx m tx) a < balance m a →
    a = L.txFrom tx ∧ (balance (buildBalanceForTx m tx) a).toNat + (L.value tx).toNat = (balance m a).toNat
  moved : Moves tx → Affords m tx →
    (balance (buildBalanceForTx m tx) (L.txFrom tx)).toNat + (L.value tx).toNat = (balance m (L.txFrom tx)).toNat ∧
      (balance (buildBalanceForTx m tx) (L.txTo tx)).toNat = (balance m (L.txTo tx)).toNat + (L.value tx).toNat ∧
      (∀ a, a ≠ L.txFrom tx → a ≠ L.txTo tx → balance (buildBalanceForTx m tx) a = balance m a) ∧
      sumBalances (buildBalanceForTx m tx) = sumBalances m
  refused : Pays tx → ¬Affords m tx → buildBalanceForTx m tx = m

/-- A transaction without value moves nothing, and so exactly. -/
theorem conserves_zero (h : L.value tx = 0) : Conserves m tx := by
  have hm : buildBalanceForTx m tx = m := buildBalanceForTx_of_not_goesThrough fun hg => hg.1 h
  have hz : (L.value tx).toNat = 0 := by rw [h, UInt64.toNat_zero]
  refine ⟨fun a ha => ?_, fun _ _ => ?_, fun _ _ => hm⟩
  · rw [hm] at ha
    exact absurd ha (UInt64.lt_irrefl _)
  · rw [hm, hz]
    exact ⟨rfl, rfl, fun _ _ _ => rfl, rfl⟩

theorem conserves (hv : sumBalances m + minted [tx] < 2 ^ 64) : Conserves m tx := by
  by_cases hz : L.value tx = 0
  · exact conserves_zero hz
  by_cases hg : GoesThrough m tx
  · have hnat := toNat_balance hg hv
    refine ⟨fun a ha => ?_, fun hm haff => ?_, fun hp ha => absurd (hg.2 hp) ha⟩
    · have hlt := UInt64.lt_iff_toNat_lt.mp ha
      have := hnat a
      by_cases hp : Pays tx ∧ L.txFrom tx = a
      · have hc : ¬(Credits tx ∧ L.txTo tx = a) := fun h => hp.1.2 (hp.2.trans h.2.symm)
        rw [if_pos hp, if_neg hc] at this
        exact ⟨hp.2.symm, this⟩
      · rw [if_neg hp] at this
        omega
    · obtain ⟨hp, hc⟩ := hm
      have hmint : minted [tx] = 0 := by
        rw [minted_cons, if_neg fun h : Mints tx => h.1 hp]
        rfl
      have hburn : burned m [tx] = 0 := by
        rw [burned, burned, if_neg fun h : Burns tx ∧ Affords m tx => h.1.2 hc]
      have hsum := sumBalances_step hv
      rw [hmint, hburn] at hsum
      refine ⟨?_, ?_, fun a hf ht => ?_, hsum⟩
      · have := hnat (L.txFrom tx)
        rwa [if_pos ⟨hp, rfl⟩, if_neg fun h => hp.2 h.2.symm] at this
      · have := hnat (L.txTo tx)
        rwa [if_neg fun h => hp.2 h.2, if_pos ⟨hc, rfl⟩] at this
      · have := hnat a
        rw [if_neg fun h => hf h.2.symm, if_neg fun h => ht h.2.symm] at this
        exact UInt64.toNat_inj.mp this
  · have hm : buildBalanceForTx m tx = m := buildBalanceForTx_of_not_goesThrough hg
    refine ⟨fun a ha => ?_, fun hmv haff => absurd ⟨hz, fun _ => haff⟩ hg, fun _ _ => hm⟩
    rw [hm] at ha
    exact absurd ha (UInt64.lt_irrefl _)

/-- A list of transactions: every one is carried out exactly, and the sum of all
balances grows by what they create less what they destroy. -/
theorem run_conserves (txs : List L.Transaction) (hv : sumBalances m + minted txs < 2 ^ 64) :
    Along buildBalanceForTx Conserves m txs ∧
      sumBalances (run buildBalanceForTx m txs) + burned m txs = sumBalances m + minted txs := by
  induction txs generalizing m with
  | nil => exact ⟨trivial, rfl⟩
  | cons tx txs ih =>
    have hcons : minted (tx :: txs) = minted [tx] + minted txs := minted_append [tx] txs
    have hburned : burned m (tx :: txs) = burned m [tx] + burned (buildBalanceForTx m tx) txs := rfl
    rw [hcons] at hv
    have hv1 : sumBalances m + minted [tx] < 2 ^ 64 := by omega
    have hstep := sumBalances_step hv1
    obtain ⟨halong, hsum⟩ := ih (m := buildBalanceForTx m tx) (by omega)
    refine ⟨⟨conserves hv1, halong⟩, ?_⟩
    rw [run_cons, hcons, hburned]
    omega

/-- **Transfers conserve value.** If the sum of all balances and the values a block
creates is below `2⁶⁴`, every transaction of the block is carried out exactly in its
turn, and the sum of all balances grows by what the block creates less what it destroys. -/
theorem transfers_conserve (c : BlockChain L) (b : L.Blk)
    (hv : sumBalances c.balances + minted b.transactions < 2 ^ 64) :
    Along buildBalanceForTx Conserves c.balances b.transactions ∧
      sumBalances (c.buildBalanceFor b).balances + burned c.balances b.transactions =
        sumBalances c.balances + minted b.transactions :=
  run_conserves b.transactions hv

/-- A reward, a payment out of it, and one that is not covered. -/
theorem transfers_conserve_sample :
    let b : Core.sample.Blk :=
      { header := (⟨1, 0, 0⟩ : SampleHeader)
        transactions := ([⟨1, 1, 100, true⟩, ⟨1, 2, 30, false⟩, ⟨2, 3, 31, false⟩] : List SampleTransaction) }
    Along buildBalanceForTx Conserves (∅ : TreeMap Core.sample.Address UInt64) b.transactions ∧
      sumBalances (({} : BlockChain Core.sample).buildBalanceFor b).balances = 100 := by
  intro b
  obtain ⟨halong, hsum⟩ := transfers_conserve ({} : BlockChain Core.sample) b (by decide +kernel)
  exact ⟨halong, hsum.trans (by decide +kernel)⟩

end Bryllite.BcpMono
