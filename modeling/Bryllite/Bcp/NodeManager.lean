import Bryllite.Bcp.Node
import Bryllite.Framework.Run
import Mathlib.Data.List.FinRange

/-!
# The nodes (bcp.cpp)

The class `node_manager`, and `sendto` and `sendall` of the nodes: all messages
are delivered at once, and what their receivers send is delivered before the
next receiver is called. The messages that follow from one another have ranks
that fall (`rank_lt`), so calls are nested no deeper than `depth`, and nothing
is lost (`deliver_eq`).

What every node keeps, as long as the messages have a property that they then
keep as well, holds after every run (`Keeps.run`).
-/

namespace Bryllite.Bcp

open Bryllite.Framework

variable {L : Lib} {n : Nat}

/-- How deep the calls are nested that follow from a message. -/
def NodeMessage.rank : NodeMessage L → Nat
  | .newRound _ | .propose _ | .commit _ => 0
  | .blockAck _ => 1
  | .blockReq _ _ => 2
  | .vote _ => 3

/-- `node_manager`: the nodes, and a count of the calls, by which the blocks
that are made at different moments differ. -/
structure NodeManager (L : Lib) (n : Nat) where
  nodes : Fin n → Node L n
  moment : Nat := 0

namespace NodeManager

/-- An event at node `k`; what the node sends is delivered by `next`. A message
that a node sends to itself by `sendto` is dropped, and any other reaches its
receiver as one of the receiver's own. -/
def call (next : Fin n → Fin n → NodeMessage L → NodeManager L n → NodeManager L n) (k : Fin n)
    (event : Event L n) (w : NodeManager L n) : NodeManager L n :=
  let r := (w.nodes k).handle (w.moment, event)
  let w := { nodes := Function.update w.nodes k r.1, moment := w.moment + 1 }
  match r.2 with
  | none => w
  | some (.sendall m) => (List.finRange n).foldl (fun w j => next j k m w) w
  | some (.sendto j m) => if j = k then w else next j j m w

/-- `onMessage` at node `k`, with calls nested as deep as `depth`. -/
def deliver (depth : Nat) (k sender : Fin n) (m : NodeMessage L) (w : NodeManager L n) : NodeManager L n :=
  match depth with
  | 0 => w
  | depth + 1 => w.call (deliver depth) k (.message sender m)

/-- The depth that no message exceeds. -/
def depth : Nat := 4

/-- `onMessage` at node `k`. -/
def onMessage (k sender : Fin n) (m : NodeMessage L) (w : NodeManager L n) : NodeManager L n :=
  w.deliver depth k sender m

/-- `onMain` at a node, at a time. -/
def onMain (w : NodeManager L n) (e : Fin n × Nat) : NodeManager L n :=
  w.call onMessage e.1 (.main e.2)

/-- The nodes just started. -/
def start (keyPair : Fin n → L.Account) (blockCommitCnt : Fin n → Nat) : NodeManager L n where
  nodes k := .start (keyPair k) (blockCommitCnt k)

end NodeManager

/-! ## The depth -/

/-- The message that is sent. -/
def Send.message : Send L n → NodeMessage L
  | .sendall m | .sendto _ m => m

namespace Node

variable {s : Node L n} {stamp : Nat} {x : Send L n}

/-- What a node sends when it enters a state. -/
theorem setState_sends {state : NodeState} (h : (s.setState stamp state).2 = some x) :
    (state = .propose ∧ ∃ hd, x.message = .propose hd) ∨ (state = .vote ∧ ∃ hd, x.message = .vote hd) ∨
      (state = .commit ∧ ∃ i hash, x.message = .blockReq i hash) := by
  unfold setState at h
  split at h
  · cases h
  · cases state with
    | null | waiting | newRound => cases h
    | propose =>
      obtain rfl := Option.some.inj h
      exact .inl ⟨rfl, _, rfl⟩
    | vote =>
      obtain rfl := Option.some.inj h
      exact .inr (.inl ⟨rfl, _, rfl⟩)
    | commit =>
      obtain rfl := Option.some.inj h
      exact .inr (.inr ⟨rfl, _, _, rfl⟩)

/-- What follows from a message has a lower rank. -/
theorem rank_lt {sender : Fin n} {m : NodeMessage L} (h : (s.onMessage stamp sender m).2 = some x) :
    x.message.rank < m.rank := by
  cases m with
  | newRound r =>
    simp only [onMessage, onMessageNewRound] at h
    split at h
    · cases h
    · split at h
      · rcases setState_sends h with ⟨h, -⟩ | ⟨h, -⟩ | ⟨h, -⟩ <;> cases h
      · cases h
  | propose hd =>
    simp only [onMessage, onMessagePropose] at h
    split at h <;> cases h
  | vote hd =>
    simp only [onMessage, onMessageVote] at h
    split at h
    · rcases setState_sends h with ⟨h, -⟩ | ⟨h, -⟩ | ⟨-, i, hash, h⟩
      · cases h
      · cases h
      · rw [h]
        exact Nat.lt_succ_self 2
    · cases h
  | blockReq i hash =>
    simp only [onMessage, onMessageBlockReq] at h
    split at h
    · cases h
    · split at h
      · cases h
      · obtain rfl := Option.some.inj h
        exact Nat.lt_succ_self 1
  | blockAck b =>
    simp only [onMessage, onMessageBlockAck] at h
    split at h
    · obtain rfl := Option.some.inj h
      exact Nat.lt_succ_self 0
    · cases h
  | commit b =>
    simp only [onMessage, onMessageCommit] at h
    split at h
    · split at h <;> cases h
    · cases h

end Node

namespace NodeManager

variable {w : NodeManager L n}

theorem rank_lt_depth (m : NodeMessage L) : m.rank < depth := by
  cases m <;> simp [NodeMessage.rank, depth]

/-- A call depends on what is delivered of the message that is sent only. -/
theorem call_congr {next next' : Fin n → Fin n → NodeMessage L → NodeManager L n → NodeManager L n} {k : Fin n}
    {event : Event L n} (h : ∀ x, ((w.nodes k).handle (w.moment, event)).2 = some x →
      ∀ j i w, next j i x.message w = next' j i x.message w) : w.call next k event = w.call next' k event := by
  unfold call
  dsimp only
  split
  · rfl
  · rename_i m hm
    exact List.foldl_ext _ _ _ fun w j _ => h _ hm j k w
  · rename_i j m hm
    split
    · rfl
    · exact h _ hm j j _

theorem deliver_succ {d : Nat} {m : NodeMessage L} (hm : m.rank < d) (k sender : Fin n) (w : NodeManager L n) :
    w.deliver (d + 1) k sender m = w.deliver d k sender m := by
  induction d generalizing m k sender w with
  | zero => exact absurd hm (Nat.not_lt_zero _)
  | succ d ih =>
    exact call_congr fun x hx j i w => ih ((Node.rank_lt hx).trans_le (Nat.le_of_lt_succ hm)) j i w

/-- At any depth that its rank does not exceed, a message is delivered with all
that follows from it. -/
theorem deliver_eq {d : Nat} {m : NodeMessage L} (hm : m.rank < d) (k sender : Fin n) (w : NodeManager L n) :
    w.deliver d k sender m = w.onMessage k sender m := by
  have hle : ∀ {d d'}, m.rank < d → d ≤ d' → w.deliver d' k sender m = w.deliver d k sender m := by
    intro d d' hd hd'
    induction hd' with
    | refl => rfl
    | step hle ih => exact (deliver_succ (hd.trans_le hle) k sender w).trans ih
  rcases Nat.le_total d depth with h | h
  · exact (hle hm h).symm
  · exact hle (rank_lt_depth m) h

/-- `onMessage`, with what follows. -/
theorem onMessage_eq (k sender : Fin n) (m : NodeMessage L) (w : NodeManager L n) :
    w.onMessage k sender m = w.call onMessage k (.message sender m) := by
  rw [← deliver_eq (Nat.lt_succ_self m.rank)]
  exact call_congr fun x hx j i w => deliver_eq (Node.rank_lt hx) j i w

/-! ## What the nodes keep -/

/-- The nodes keep `I`, each of its own state, as long as what they receive has
`M`; and then what they send has `M`. -/
def Keeps (I : Fin n → Node L n → Prop) (M : NodeMessage L → Prop) : Prop :=
  ∀ (k : Fin n) (s : Node L n) (stamp : Nat) (event : Event L n), I k s →
    (∀ i m, event = .message i m → M m) →
    I k (s.handle (stamp, event)).1 ∧ ∀ x, (s.handle (stamp, event)).2 = some x → M x.message

variable {I : Fin n → Node L n → Prop} {M : NodeMessage L → Prop}

theorem Keeps.call (h : Keeps I M)
    {next : Fin n → Fin n → NodeMessage L → NodeManager L n → NodeManager L n}
    (hnext : ∀ j i m w, M m → (∀ k, I k (w.nodes k)) → ∀ k, I k ((next j i m w).nodes k)) (i : Fin n)
    {event : Event L n} (he : ∀ i m, event = .message i m → M m) (hw : ∀ k, I k (w.nodes k)) (k : Fin n) :
    I k ((w.call next i event).nodes k) := by
  obtain ⟨hi, hsent⟩ := h i (w.nodes i) w.moment event (hw i) he
  have hlocal : ∀ k, I k (Function.update w.nodes i ((w.nodes i).handle (w.moment, event)).1 k) := by
    intro k
    by_cases hk : k = i
    · subst hk
      rwa [Function.update_self]
    · rw [Function.update_of_ne hk]
      exact hw k
  unfold NodeManager.call
  dsimp only
  split
  · exact hlocal k
  · rename_i m hm
    have hall : ∀ (l : List (Fin n)) (w : NodeManager L n), (∀ k, I k (w.nodes k)) →
        ∀ k, I k ((l.foldl (fun w j => next j i m w) w).nodes k) := fun l => by
      induction l with
      | nil => exact fun _ hw => hw
      | cons j l ih => exact fun w hw => ih _ (hnext j i m w (hsent _ hm) hw)
    exact hall _ _ hlocal k
  · rename_i j m hm
    split
    · exact hlocal k
    · exact hnext j j m _ (hsent _ hm) hlocal k

theorem Keeps.onMessage (h : Keeps I M) (j sender : Fin n) {m : NodeMessage L} (hm : M m)
    (hw : ∀ k, I k (w.nodes k)) (k : Fin n) : I k ((w.onMessage j sender m).nodes k) := by
  have hd : ∀ d j i m (w : NodeManager L n), M m → (∀ k, I k (w.nodes k)) →
      ∀ k, I k ((w.deliver d j i m).nodes k) := fun d => by
    induction d with
    | zero => exact fun _ _ _ _ _ hw => hw
    | succ d ih =>
      exact fun j i m w hm hw => h.call ih j (fun i' m' e => by cases e; exact hm) hw
  exact hd depth j sender m w hm hw k

/-- What the nodes keep holds after every run. -/
theorem Keeps.run (h : Keeps I M) (hw : ∀ k, I k (w.nodes k)) (es : List (Fin n × Nat)) (k : Fin n) :
    I k ((run onMain w es).nodes k) :=
  run_inv_of_all (I := fun w : NodeManager L n => ∀ k, I k (w.nodes k))
    (fun _ e hw => h.call (fun j i _ _ hm hw => h.onMessage j i hm hw) e.1 (fun _ _ e => by cases e) hw) hw k

end NodeManager

end Bryllite.Bcp
