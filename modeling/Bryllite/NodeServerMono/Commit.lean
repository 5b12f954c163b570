import Bryllite.NodeServerMono.Election

/-!
# Who committed the block

`find_commit_block` counts the peers that sent some block with the elected
header, and returns the last such block. When the blocks it accepts have the
same transactions (`Call.Agrees`), that block was sent by all of these peers
(`commit_quorum`); when they do not, one peer decides the body
(`commit_quorum_two_bodies`).
-/

namespace Bryllite.NodeServerMono

open Bryllite.Framework
open BcpServer (qualifyVotes)

variable {L : Core} {n : Nat}

/-- A commit that `add_verified_block` accepts has the transactions of those
accepted before. -/
def Call.Agrees (n : Nat) (s : Recorded L) : Call L → Prop
  | .commit p b => s.server.verifiedBlocks[p]? = none → s.server.getElectedBlockHeader n = some b.header →
      ∀ e ∈ s.server.verifiedBlocks.toList, e.2.transactions = b.transactions
  | _ => True

instance (n : Nat) (s : Recorded L) : DecidablePred (Call.Agrees n s)
  | .commit _ b => inferInstanceAs (Decidable (_ = none → _ = some b.header → ∀ e ∈ _, _ = _))
  | .newRound _ _ | .userHeader _ _ | .propose _ _ | .vote _ _ | .clear | .candidate _ | .myVote _ =>
    inferInstanceAs (Decidable True)

/-- Verified blocks and commit block are changed by commits and clears alone. -/
theorem Call.perform_verifiedBlocks (s : BcpServer L) {c : Call L} (hc : c ≠ .clear)
    (hc' : ∀ p b, c ≠ .commit p b) : (c.perform n s).verifiedBlocks = s.verifiedBlocks ∧
      (c.perform n s).commitBlock = s.commitBlock := by
  cases c with
  | newRound p r =>
    simp only [perform]
    rcases s.newRound_cases p r with h | ⟨-, h⟩ <;> rw [h] <;> exact ⟨rfl, rfl⟩
  | userHeader a h =>
    simp only [perform]
    rcases s.userHeader_cases a h with h | ⟨-, h⟩ <;> rw [h] <;> exact ⟨rfl, rfl⟩
  | propose p h =>
    simp only [perform]
    rcases s.propose_cases p h with h | ⟨-, h⟩ <;> rw [h] <;> exact ⟨rfl, rfl⟩
  | vote p h =>
    simp only [perform]
    rcases s.vote_cases p h with h | ⟨-, h⟩ <;> rw [h] <;> exact ⟨rfl, rfl⟩
  | commit p b => exact absurd rfl (hc' p b)
  | clear => exact absurd rfl hc
  | candidate b => exact ⟨rfl, rfl⟩
  | myVote h => exact ⟨rfl, rfl⟩

/-- The verified blocks were sent since the last clear, and have the
transactions of the commit block. -/
structure Sent (n : Nat) (s : Recorded L) : Prop where
  elect : Elect n s.server
  sent (p : Int) (b : L.Blk) : s.server.verifiedBlocks[p]? = some b → Call.commit p b ∈ s.calls
  agree (p : Int) (b : L.Blk) : s.server.verifiedBlocks[p]? = some b →
    b.transactions = s.server.commitBlock.transactions

namespace Sent

variable {s : Recorded L}

/-- A call that leaves the verified blocks and the commit block as they are. -/
theorem of_eq {c : Call L} (hs : Sent n s) (he : Elect n (c.perform n s.server)) (hc : c ≠ .clear)
    (h1 : (c.perform n s.server).verifiedBlocks = s.server.verifiedBlocks)
    (h2 : (c.perform n s.server).commitBlock = s.server.commitBlock) : Sent n (s.call n c) where
  elect := he
  sent p b h := by
    have := hs.sent p b (h1 ▸ h)
    cases c with
    | clear => exact absurd rfl hc
    | _ => exact List.mem_append_left _ this
  agree p b h := by
    show b.transactions = (c.perform n s.server).commitBlock.transactions
    rw [h2]; exact hs.agree p b (h1 ▸ h)

theorem commit (hs : Sent n s) {p : Int} {b : L.Blk} (hc : (Call.commit p b).Agrees n s)
    (he : Elect n ((Call.commit p b).perform n s.server)) : Sent n (s.call n (.commit p b)) := by
  rcases s.server.verified_cases n p b with h | ⟨hp, hb, h⟩
  · exact hs.of_eq he (by simp) (congrArg BcpServer.verifiedBlocks h) (congrArg BcpServer.commitBlock h)
  have hi : ((Call.commit p b).perform n s.server).verifiedBlocks = s.server.verifiedBlocks.insert p b :=
    congrArg BcpServer.verifiedBlocks h
  have hb' : ((Call.commit p b).perform n s.server).commitBlock = b := congrArg BcpServer.commitBlock h
  refine ⟨he, fun q c hq => ?_, fun q c hq => ?_⟩ <;>
    (replace hq : (s.server.verifiedBlocks.insert p b)[q]? = some c := hi ▸ hq
     rw [getElem?_insert_of_mem] at hq
     split at hq)
  · rename_i e
    subst e
    cases hq
    exact List.mem_append_right _ List.mem_cons_self
  · exact List.mem_append_left _ (hs.sent q c hq)
  · cases hq
    exact (congrArg Block.transactions hb').symm
  · -- An earlier block: it has the transactions of the new one.
    have := hc hp hb (q, c) (mem_toList.mpr hq)
    show c.transactions = ((Call.commit p b).perform n s.server).commitBlock.transactions
    rw [hb']; exact this

theorem call (hs : Sent n s) {c : Call L} (hr : c.Registered n) (hc : c.Agrees n s) :
    Sent n (s.call n c) := by
  have he : Elect n (c.perform n s.server) := hs.elect.perform hr
  by_cases h : c = .clear
  · subst h
    exact ⟨he, fun _ _ hp => absurd hp getElem?_empty_ne, fun _ _ hp => absurd hp getElem?_empty_ne⟩
  by_cases h' : ∃ p b, c = .commit p b
  · obtain ⟨p, b, rfl⟩ := h'
    exact hs.commit hc he
  · have hf := c.perform_verifiedBlocks (n := n) s.server h fun p b e => h' ⟨p, b, e⟩
    exact hs.of_eq he h hf.1 hf.2

theorem init : Sent n (Recorded.init : Recorded L) :=
  ⟨Elect.init, fun _ _ h => absurd h getElem?_empty_ne, fun _ _ h => absurd h getElem?_empty_ne⟩

/-- All verified blocks are the commit block. -/
theorem eq_commitBlock (hs : Sent n s) {p : Int} {b : L.Blk} (h : s.server.verifiedBlocks[p]? = some b) :
    b = s.server.commitBlock := by
  rcases hs.elect.commit with h0 | ⟨q, hq⟩
  · exact absurd (h0 ▸ h) getElem?_empty_ne
  · have hh := (hs.elect.verified p b h).symm.trans (hs.elect.verified q _ hq)
    have ht := hs.agree p b h
    obtain ⟨header, transactions⟩ := b
    simp only [Option.some.injEq] at hh
    simp only at ht
    rw [hh, ht]

end Sent

/-- Where accepted commits agree in their transactions, a block found for
commit was sent, since the last clear, by a majority of the peers. -/
theorem commit_quorum {es : List (Event L)} (hr : ∀ e ∈ es, ∀ c ∈ e.calls, c.Registered n)
    (ha : Recorded.AlongCalls n (fun s c => c.Agrees n s) Recorded.init es) :
    let s := run (Recorded.step n) Recorded.init es
    ∀ b, s.server.findCommitBlock n = some b → n / 2 + 1 ≤ {p : Int | Call.commit p b ∈ s.calls}.ncard := by
  intro s b hb
  have hs : Sent n s := Recorded.run_inv_calls (I := Sent n)
    (P := fun s c => c.Registered n ∧ c.Agrees n s) (fun s c hs hc => hs.call hc.1 hc.2)
    (fun s tc st hs => ⟨hs.elect.setClock tc st, hs.sent, hs.agree⟩) Sent.init
    ((Recorded.alongCalls_of_forall hr).and ha |>.imp fun s e h => h.1.and h.2)
  unfold BcpServer.findCommitBlock at hb
  split at hb
  · rename_i hq
    cases hb
    have hfin : {p : Int | Call.commit p s.server.commitBlock ∈ s.calls}.Finite := by
      refine (List.finite_toSet (s.calls.filterMap fun c => match c with
        | .commit p _ => some p
        | _ => none)).subset fun p hp => ?_
      exact List.mem_filterMap.mpr ⟨_, hp, rfl⟩
    have hc := valueCount_eq_ncard s.server.verifiedBlocks fun _ => true
    have hsize : valueCount s.server.verifiedBlocks (fun _ => true) = s.server.verifiedBlocks.size := by
      rw [valueCount, List.countP_true, Std.TreeMap.length_toList]
    refine hq.trans (hsize ▸ hc ▸ Set.ncard_le_ncard (fun p hp => ?_) hfin)
    obtain ⟨c, hp, -⟩ := hp
    have := hs.sent p c hp
    rwa [hs.eq_commitBlock hp] at this
  · cases hb

/-- Two of three peers commit one body. -/
theorem commit_quorum_sample :
    let v : Core.sample.Header := (⟨1, 0, 7⟩ : SampleHeader)
    let s := run (Recorded.step 3) Recorded.init
      [.call (.vote 0 v), .call (.vote 1 v), .call (.commit 0 ⟨v, []⟩), .call (.commit 1 ⟨v, []⟩)]
    s.server.findCommitBlock 3 = some ⟨v, []⟩ ∧
      2 ≤ {p : Int | (Call.commit p ⟨v, []⟩ : Call Core.sample) ∈ s.calls}.ncard := by
  intro v s
  have hf : s.server.findCommitBlock 3 = some ⟨v, []⟩ := by decide
  exact ⟨hf, commit_quorum (n := 3) (by decide) (by decide) _ hf⟩

/-- Two of three peers commit the elected header, each with a body of its own:
the block found is the last, which one peer sent. -/
theorem commit_quorum_two_bodies :
    let v : Core.sample.Header := (⟨1, 0, 7⟩ : SampleHeader)
    let tx : Core.sample.Transaction := (⟨5, 6, 7, false⟩ : SampleTransaction)
    let es : List (Event Core.sample) :=
      [.call (.vote 0 v), .call (.vote 1 v), .call (.commit 0 ⟨v, []⟩), .call (.commit 1 ⟨v, [tx]⟩)]
    let s := run (Recorded.step 3) Recorded.init es
    (∀ e ∈ es, ∀ c ∈ e.calls, c.Registered 3) ∧ s.server.findCommitBlock 3 = some ⟨v, [tx]⟩ ∧
      ¬3 / 2 + 1 ≤ {p : Int | Call.commit p ⟨v, [tx]⟩ ∈ s.calls}.ncard := by
  intro v tx es s
  refine ⟨by decide, by decide, ?_⟩
  have hs : {p : Int | Call.commit p ⟨v, [tx]⟩ ∈ s.calls} = {1} := by
    ext p
    show Call.commit p _ ∈ [Call.vote 0 v, .vote 1 v, .commit 0 ⟨v, []⟩, .commit 1 ⟨v, [tx]⟩] ↔ p = 1
    simp
  rw [hs, Set.ncard_singleton]
  decide

end Bryllite.NodeServerMono
