import Bryllite.BcpMono.Delivery
import Bryllite.Framework.OncePerWindow
import Bryllite.Framework.Run

/-!
# When a node announces (bcp_mono)

`_current_round_time` and `_new_round_message_sent` are the last round in which a
node called `request_new_round` and whether it has announced in it (`announcer`).
Nothing else writes them, and nothing else announces (`Quiet`), so a node is a machine
of `Framework.OncePerWindow`. The constructor sets neither: a node announces once in
every round exactly if what it starts with happens to be old enough (`announces_iff`).
-/

namespace Bryllite.BcpMono

open Bryllite.Framework

variable {L : Core} {n : Nat}

/-- What `request_new_round` reads and writes of a node. -/
def Node.announcer (s : Node L) : Windowed Int := ⟨s.currentRoundTime, s.newRoundMessageSent⟩

/-- A call of `request_new_round`: its round, and whether it is early in it. -/
def Clock.window (clock : Clock) : Int × Bool :=
  (getCurrentRound clock, decide (getCurrentRoundTime clock < bcpTimeoutPop))

namespace NodeManager

/-- What node `i` announces by a message. -/
def announced (i : Fin n) (e : Fin n × NodeMessage L) : Option Nat :=
  match e.2 with
  | .newRound r => if e.1 = i then some r else none
  | _ => none

/-- The rounds that node `i` announced. -/
def announcements (i : Fin n) (w : NodeManager L n) : List Nat := w.sent.filterMap (announced i)

theorem announcements_of_sent {w w' : NodeManager L n} {j : Fin n} {m : NodeMessage L}
    (h : w'.sent = w.sent ++ [(j, m)]) (hm : ∀ r, m ≠ .newRound r) (i : Fin n) :
    w'.announcements i = w.announcements i := by
  unfold announcements
  rw [h, List.filterMap_append]
  cases m with
  | newRound r => exact absurd rfl (hm r)
  | _ => exact List.append_nil _

/-- No node's announcer changes, and nothing is announced. -/
structure Quiet (w w' : NodeManager L n) : Prop where
  announcer (k : Fin n) : (w'.nodes k).announcer = (w.nodes k).announcer
  announcements (k : Fin n) : w'.announcements k = w.announcements k

namespace Quiet

variable {w w' w'' : NodeManager L n} {i : Fin n} {clock : Clock}

theorem refl (w : NodeManager L n) : w.Quiet w := ⟨fun _ => rfl, fun _ => rfl⟩

theorem trans (h : w.Quiet w') (h' : w'.Quiet w'') : w.Quiet w'' :=
  ⟨fun k => (h'.announcer k).trans (h.announcer k), fun k => (h'.announcements k).trans (h.announcements k)⟩

theorem modify {f : Node L → Node L} (h : ∀ s, (f s).announcer = s.announcer) : w.Quiet (w.modify i f) :=
  ⟨forall_modify (P := fun k s => s.announcer = (w.nodes k).announcer) (h _) fun _ => rfl, fun _ => rfl⟩

theorem sends (m : NodeMessage L) (hm : ∀ r, m ≠ .newRound r) : w.Quiet { w with sent := w.sent ++ [(i, m)] } :=
  ⟨fun _ => rfl, announcements_of_sent rfl hm⟩

theorem announcer_onMessage (m : NodeMessage L) (s : Node L) : (s.onMessage m).announcer = s.announcer := by
  cases m <;> rfl

theorem requestCommit (i : Fin n) (b : L.Blk) : w.Quiet (w.requestCommit i b) := by
  refine ⟨fun k => ?_, announcements_of_sent (m := .commit b) rfl fun _ => nofun⟩
  rw [NodeManager.requestCommit, nodes_sendallLocal, announcer_onMessage]

theorem onMessage (i sender : Fin n) (m : NodeMessage L) : w.Quiet (w.onMessage i sender m) := by
  have hack : ∀ (w : NodeManager L n) (i : Fin n) b, w.Quiet (w.onMessageCommitBlockAck i b) := by
    intro w i b
    unfold onMessageCommitBlockAck
    have h1 : w.Quiet (w.modify i fun s => { s with commitBlock := b }) := .modify fun _ => rfl
    dsimp only
    split
    · exact h1.trans (.requestCommit i b)
    · exact h1
  cases m with
  | blockHeightReq h => exact .modify fun _ => rfl
  | commitBlockReq h =>
    show w.Quiet (w.onMessageCommitBlockReq i sender h)
    unfold onMessageCommitBlockReq
    split
    · exact hack w sender _
    · exact .refl w
  | commitBlockAck b => exact hack w i b
  | blockHeightAck h | newRound r | propose h | vote h | commit b => exact .modify fun _ => rfl

theorem sendall {m : NodeMessage L} (hm : ∀ r, m ≠ .newRound r) : w.Quiet (w.sendall i m) := by
  have hfold : ∀ (l : List (Fin n)) (w : NodeManager L n), w.Quiet (l.foldl (fun w k => w.onMessage k i m) w) := by
    intro l
    induction l with
    | nil => exact fun w => .refl w
    | cons k l ih => exact fun w => (Quiet.onMessage k i m).trans (ih _)
  exact (Quiet.sends m hm).trans (hfold _ _)

theorem setState (state : NodeState) : w.Quiet (w.setState i clock state) := by
  unfold NodeManager.setState
  split
  · exact .refl w
  · have h1 : w.Quiet (w.modify i fun s => { s with nodeState := state }) := .modify fun _ => rfl
    refine h1.trans ?_
    generalize w.modify i _ = w'
    cases state with
    | null => exact .refl w'
    | sync => exact .modify (f := fun s => { s with syncTime := clock.timestamp }) fun _ => rfl
    | waiting => exact .modify (f := Node.clear) fun _ => rfl
    | newRound =>
      show w'.Quiet (w'.onStateNewRoundBegin i)
      unfold onStateNewRoundBegin
      dsimp only
      split
      · exact .refl w'
      · rename_i b _
        exact ⟨(Quiet.modify (f := fun s => { s with
          newBlock := L.sign (w'.nodes i).keyPair b
          userBlockHeader := s.userBlockHeader ++ [(L.sign (w'.nodes i).keyPair b).header] })
            fun _ => rfl).announcer, fun _ => rfl⟩
    | propose =>
      show w'.Quiet (w'.onStateProposeBegin i)
      unfold onStateProposeBegin
      split
      · exact .refl w'
      · exact .sendall fun _ => nofun
    | vote =>
      show w'.Quiet (w'.onStateVoteBegin i)
      unfold onStateVoteBegin
      split
      · exact .refl w'
      · exact .sendall fun _ => nofun
    | commit => exact .sendall fun _ => nofun

theorem setState_modify {f : Node L → Node L} (h : ∀ s, (f s).announcer = s.announcer) (state : NodeState) :
    w.Quiet ((w.modify i f).setState i clock state) :=
  (Quiet.modify h).trans (.setState state)

theorem requestBlockSync (i : Fin n) : w.Quiet (w.requestBlockSync i) := by
  have h1 : w.Quiet (w.modify i fun s => { s with syncTargetBlockHeight := [] }) := .modify fun _ => rfl
  exact h1.trans (.sendall fun _ => nofun)

end Quiet

/-! ## The polls -/

variable {w : NodeManager L n} {i : Fin n} {clock : Clock}

/-- The part of `request_new_round` after the round is entered: `w'` are the nodes then. -/
theorem announce_entered {w' : NodeManager L n}
    (hi : (w'.nodes i).announcer = (w.nodes i).announcer.enter clock.window.1)
    (ho : ∀ k, k ≠ i → w'.nodes k = w.nodes k) (hs : w'.sent = w.sent) (r : Nat) (k : Fin n) :
    let v := if !(w'.nodes i).newRoundMessageSent && decide (getCurrentRoundTime clock < bcpTimeoutPop) then
        (w'.modify i fun s => { s with newRoundMessageSent := true }).sendall i (.newRound r)
      else w'
    (v.nodes k).announcer =
        (if k = i then (w.nodes i).announcer.call clock.window else (w.nodes k).announcer) ∧
      v.announcements k = w.announcements k ++
        if k = i ∧ (w.nodes i).announcer.acts clock.window = true then [r] else [] := by
  have hdone : (w'.nodes i).newRoundMessageSent = ((w.nodes i).announcer.enter clock.window.1).done :=
    congrArg Windowed.done hi
  have hacts : (!(w'.nodes i).newRoundMessageSent && decide (getCurrentRoundTime clock < bcpTimeoutPop)) =
      (w.nodes i).announcer.acts clock.window := by
    rw [hdone]
    rfl
  rw [hacts]
  cases ha : (w.nodes i).announcer.acts clock.window with
  | true =>
    have hearly : clock.window.2 = true := (Bool.and_eq_true _ _ ▸ ha).2
    rw [if_pos rfl, sendall_newRound]
    refine ⟨?_, ?_⟩
    · rw [nodes_sendallLocal, Quiet.announcer_onMessage]
      by_cases hk : k = i
      · subst hk
        rw [nodes_modify_self, if_pos rfl]
        show (⟨(w'.nodes k).announcer.window, true⟩ : Windowed Int) = _
        rw [hi, Windowed.call, hearly, Bool.or_true]
      · rw [nodes_modify_of_ne hk, if_neg hk, ho k hk]
    · show List.filterMap (announced k) (w'.sent ++ [(i, .newRound r)]) = _
      rw [hs, List.filterMap_append]
      refine congrArg (w.announcements k ++ ·) ?_
      by_cases hk : k = i
      · simp [announced, hk]
      · simp [announced, hk, Ne.symm hk]
  | false =>
    have hd : (((w.nodes i).announcer.enter clock.window.1).done || clock.window.2) =
        ((w.nodes i).announcer.enter clock.window.1).done := by
      unfold Windowed.acts at ha
      revert ha
      cases ((w.nodes i).announcer.enter clock.window.1).done <;> cases clock.window.2 <;> simp
    rw [if_neg Bool.false_ne_true]
    refine ⟨?_, ?_⟩
    · by_cases hk : k = i
      · subst hk
        rw [if_pos rfl, hi, Windowed.call, hd]
      · rw [if_neg hk, ho k hk]
    · rw [if_neg (by simp), List.append_nil]
      exact congrArg (List.filterMap (announced k)) hs

/-- The machine of the node takes the call, and the node announces if the machine acts. -/
theorem requestNewRound_announcer (clock : Clock) (r : Nat) (k : Fin n) :
    ((w.requestNewRound i clock r).nodes k).announcer =
        (if k = i then (w.nodes i).announcer.call clock.window else (w.nodes k).announcer) ∧
      (w.requestNewRound i clock r).announcements k = w.announcements k ++
        if k = i ∧ (w.nodes i).announcer.acts clock.window = true then [r] else [] := by
  refine announce_entered ?_ (fun k hk => nodes_modify_of_ne hk _) rfl r k
  rw [nodes_modify_self]
  unfold Windowed.enter
  by_cases hc : (w.nodes i).currentRoundTime < getCurrentRound clock
  · rw [if_pos hc, if_pos (show (w.nodes i).announcer.window < clock.window.1 from hc)]
    rfl
  · rw [if_neg hc, if_neg (show ¬(w.nodes i).announcer.window < clock.window.1 from hc)]

theorem onMain_of_waiting (clock : Clock) (hs : (w.nodes i).nodeState = .waiting) :
    (w.requestNewRound i clock ((w.nodes i).blockChain.size + 1)).Quiet (w.onMain (i, clock)) := by
  have hmain : w.onMain (i, clock) = w.onStateWaitingMain i clock := by
    unfold onMain
    dsimp only
    rw [hs]
  rw [hmain]
  unfold onStateWaitingMain
  dsimp only
  generalize w.requestNewRound i clock _ = w'
  split
  · split
    · refine .setState_modify ?_ _
      exact fun _ => rfl
    · split
      · exact .setState _
      · exact .refl _
  · exact .refl _

theorem onMain_of_not_waiting (clock : Clock) (hs : (w.nodes i).nodeState ≠ .waiting) : w.Quiet (w.onMain (i, clock)) := by
  unfold onMain
  dsimp only
  cases hst : (w.nodes i).nodeState with
  | null => exact .refl w
  | waiting => exact absurd hst hs
  | sync =>
    show w.Quiet (w.onStateSyncMain i clock)
    unfold onStateSyncMain
    have h1 : w.Quiet (w.setState i clock .waiting) := .setState _
    generalize w.setState i clock .waiting = w' at h1
    dsimp only
    split
    · have h2 : w'.Quiet (w'.modify i fun s => { s with syncTime := clock.timestamp }) := .modify fun _ => rfl
      exact h1.trans (h2.trans (.requestBlockSync i))
    · split
      · split
        · exact h1.trans (.setState _)
        · exact h1
      · exact h1
  | newRound =>
    show w.Quiet (w.onStateNewRoundMain i clock)
    unfold onStateNewRoundMain
    split
    · exact .setState _
    · exact .refl w
  | propose =>
    show w.Quiet (w.onStateProposeMain i clock)
    unfold onStateProposeMain
    split
    · exact .setState _
    · exact .refl w
  | vote =>
    show w.Quiet (w.onStateVoteMain i clock)
    unfold onStateVoteMain
    split
    · exact .setState _
    · split
      · refine .setState_modify ?_ _
        exact fun _ => rfl
      · exact .refl w
  | commit =>
    show w.Quiet (w.onStateCommitMain i clock)
    unfold onStateCommitMain
    split
    · exact .setState _
    · split
      · refine .setState_modify ?_ _
        exact fun _ => rfl
      · exact .refl w

/-! ## Runs -/

/-- Node `i` calls `request_new_round` in the poll. -/
def Requests (i : Fin n) (w : NodeManager L n) (e : Fin n × Clock) : Prop :=
  e.1 = i ∧ (w.nodes i).nodeState = .waiting

instance (i : Fin n) (w : NodeManager L n) : DecidablePred (Requests i w) :=
  fun _ => inferInstanceAs (Decidable (_ ∧ _))

end NodeManager

/-- The nodes, and the clocks at which a node has called `request_new_round`. -/
structure Asked (L : Core) (n : Nat) where
  manager : NodeManager L n
  past : List Clock := []

namespace Asked

/-- `onMain`, where the calls of node `i` are kept. -/
def onMain (i : Fin n) (a : Asked L n) (e : Fin n × Clock) : Asked L n where
  manager := a.manager.onMain e
  past := if a.manager.Requests i e then a.past ++ [e.2] else a.past

/-- In the poll node `i` announces its next index, if this is its first early call of
the round, and otherwise announces nothing. -/
def AnnouncesOnce (i : Fin n) (a : Asked L n) (e : Fin n × Clock) : Prop :=
  (a.manager.onMain e).announcements i = a.manager.announcements i ++
    if a.manager.Requests i e ∧ FirstEarly (a.past.map Clock.window) e.2.window then
      [(a.manager.nodes i).blockChain.size + 1]
    else []

instance (i : Fin n) (a : Asked L n) : DecidablePred (AnnouncesOnce i a) :=
  fun _ => inferInstanceAs (Decidable (_ = _))

variable {a : Asked L n} {i : Fin n} {e : Fin n × Clock}

/-- A poll in which node `i` makes no call. -/
theorem onMain_of_not_requests (h : ¬a.manager.Requests i e) :
    ((a.onMain i e).manager.nodes i).announcer = (a.manager.nodes i).announcer ∧ a.AnnouncesOnce i e := by
  unfold AnnouncesOnce
  rw [if_neg fun hf => h hf.1, List.append_nil]
  show ((a.manager.onMain e).nodes i).announcer = _ ∧ _
  by_cases hs : (a.manager.nodes e.1).nodeState = .waiting
  · -- Another node calls.
    have hi : i ≠ e.1 := fun hi => h ⟨hi.symm, hi ▸ hs⟩
    have hq := NodeManager.onMain_of_waiting e.2 hs
    obtain ⟨h1, h2⟩ := NodeManager.requestNewRound_announcer (w := a.manager) (i := e.1) e.2
      ((a.manager.nodes e.1).blockChain.size + 1) i
    rw [if_neg hi] at h1
    rw [if_neg fun hf => hi hf.1, List.append_nil] at h2
    exact ⟨(hq.announcer i).trans h1, (hq.announcements i).trans h2⟩
  · have hq := NodeManager.onMain_of_not_waiting e.2 hs
    exact ⟨hq.announcer i, hq.announcements i⟩

/-- A poll in which it makes one. -/
theorem onMain_of_requests (h : a.manager.Requests i e) :
    ((a.onMain i e).manager.nodes i).announcer = (a.manager.nodes i).announcer.call e.2.window ∧
      (a.AnnouncesOnce i e ↔
        ((a.manager.nodes i).announcer.acts e.2.window = true ↔ FirstEarly (a.past.map Clock.window) e.2.window)) := by
  obtain ⟨j, clock⟩ := e
  obtain ⟨rfl, hs⟩ := h
  have hq := NodeManager.onMain_of_waiting clock hs
  obtain ⟨h1, h2⟩ := NodeManager.requestNewRound_announcer (w := a.manager) (i := j) clock
    ((a.manager.nodes j).blockChain.size + 1) j
  refine ⟨(hq.announcer j).trans (h1.trans (if_pos rfl)), ?_⟩
  unfold AnnouncesOnce
  rw [hq.announcements j, h2, List.append_cancel_left_eq]
  have hr : a.manager.Requests j (j, clock) := ⟨rfl, hs⟩
  by_cases ha : (a.manager.nodes j).announcer.acts clock.window = true <;>
    by_cases hf : FirstEarly (a.past.map Clock.window) clock.window <;> simp [ha, hf, hr]

/-- The node is the machine of its calls, and announces once a round where that acts
as it should. -/
theorem run_announcer (a₀ : Asked L n) (h₀ : a₀.past = []) (es : List (Fin n × Clock)) :
    let a := run (onMain i) a₀ es
    let s₀ := (a₀.manager.nodes i).announcer
    (a.manager.nodes i).announcer = run Windowed.call s₀ (a.past.map Clock.window) ∧
      (Along (onMain i) (AnnouncesOnce i) a₀ es ↔ ActsOn s₀ (a.past.map Clock.window)) := by
  induction es using List.reverseRecOn with
  | nil =>
    dsimp only
    rw [run_nil, h₀]
    exact ⟨rfl, iff_of_true trivial (actsOn_nil _)⟩
  | append_singleton es e ih =>
    dsimp only at ih ⊢
    rw [run_append, along_append]
    generalize hb : run (onMain i) a₀ es = b at ih ⊢
    obtain ⟨h1, h2⟩ := ih
    generalize (a₀.manager.nodes i).announcer = s₀ at h1 h2 ⊢
    show ((b.onMain i e).manager.nodes i).announcer = run _ s₀ ((b.onMain i e).past.map _) ∧
      (_ ∧ b.AnnouncesOnce i e ∧ True ↔ ActsOn s₀ ((b.onMain i e).past.map _))
    rw [and_true, h2]
    by_cases hr : b.manager.Requests i e
    · obtain ⟨h3, h4⟩ := onMain_of_requests hr
      have hp : (b.onMain i e).past.map Clock.window = b.past.map Clock.window ++ [e.2.window] := by
        rw [onMain, if_pos hr, List.map_append]
        rfl
      rw [hp, actsOn_append_singleton, h3, h4, h1]
      refine ⟨?_, Iff.rfl⟩
      rw [run_append]
      rfl
    · obtain ⟨h3, h4⟩ := onMain_of_not_requests hr
      rw [show (b.onMain i e).past = b.past from if_neg hr]
      exact ⟨h3.trans h1, and_iff_left h4⟩

end Asked

/-- A node whose calls of `request_new_round` are in order announces in every round at
its first early call, and not otherwise, exactly if its early calls in rounds no later
than the `_current_round_time` it starts with are all in one round, and there are none
if it starts with `_new_round_message_sent`. -/
theorem announces_iff (i : Fin n) (keyPair : Fin n → L.Account) (syncTime : Fin n → Nat)
    (newRoundMessageSent : Fin n → Bool) (currentRoundTime : Fin n → Int) (es : List (Fin n × Clock)) :
    let a : Asked L n := { manager := .start keyPair syncTime newRoundMessageSent currentRoundTime }
    let calls := (run (Asked.onMain i) a es).past
    (calls.map Clock.ntp).Pairwise (· ≤ ·) →
      (Along (Asked.onMain i) (Asked.AnnouncesOnce i) a es ↔
        ∀ c ∈ calls, getCurrentRoundTime c < bcpTimeoutPop → getCurrentRound c ≤ currentRoundTime i →
          newRoundMessageSent i = false ∧ ∀ c' ∈ calls, getCurrentRoundTime c' < bcpTimeoutPop →
            getCurrentRound c' ≤ currentRoundTime i → getCurrentRound c' = getCurrentRound c) := by
  intro a calls hsorted
  have hw : (calls.map Clock.window).Pairwise fun e e' => e.1 ≤ e'.1 := by
    rw [List.pairwise_map] at hsorted ⊢
    exact hsorted.imp fun h => Int.ofNat_le.mpr (Nat.div_le_div_right h)
  rw [(Asked.run_announcer (i := i) a rfl es).2, actsOn_iff hw]
  simp only [List.forall_mem_map, Clock.window, decide_eq_true_eq, Int.ofNat_inj]
  rfl

/-- Node 0 of two starts in round 0, calls twice in the first seconds of round 1, later
in it, and in round 3. -/
theorem announces_iff_sample :
    let a : Asked Core.sample 2 :=
      { manager := .start (fun i => (i.val : Nat)) (fun _ => 30000) (fun _ => true) fun _ => 0 }
    let es : List (Fin 2 × Clock) := [(0, ⟨30, 30000⟩), (0, ⟨30, 30000⟩), (0, ⟨33, 33000⟩), (0, ⟨45, 45000⟩),
      (0, ⟨91, 91000⟩)]
    Along (Asked.onMain 0) (Asked.AnnouncesOnce 0) a es ∧
      (run (Asked.onMain 0) a es).manager.announcements 0 = [1, 1] :=
  ⟨(announces_iff 0 _ _ _ _ _ (by decide +kernel)).mpr (by decide +kernel), by decide +kernel⟩

/-- A node whose `_current_round_time` starts in a later round announces in one of the
rounds before it, and not in the next. -/
theorem announces_uninitialised :
    let a : Asked Core.sample 3 :=
      { manager := .start (fun i => (i.val : Nat)) (fun _ => 30000) (fun _ => false) fun _ => 50 }
    let es : List (Fin 3 × Clock) := [(0, ⟨30, 30000⟩), (0, ⟨30, 30000⟩), (0, ⟨60, 60000⟩)]
    let calls := (run (Asked.onMain 0) a es).past
    (calls.map Clock.ntp).Pairwise (· ≤ ·) ∧ calls = [⟨30, 30000⟩, ⟨60, 60000⟩] ∧
      ¬Along (Asked.onMain 0) (Asked.AnnouncesOnce 0) a es := by
  decide +kernel

end Bryllite.BcpMono
