import Bryllite.BcpMono.Agreement

/-!
# What a waiting node recognises (bcp_mono)

A waiting node looks at the announcements it heard since it entered waiting, over
all the block times it waited: several indices can have more than half as many as
there are nodes. It acts on the first of them alone. So an older index that has them
hides its own next one (`recognises_iff`, `recognises_hidden`).
-/

namespace Bryllite.BcpMono

open Bryllite.Framework

variable {L : Core} {n : Nat}

/-- Index `v` was announced more than `n / 2` times. -/
def Exceeds (n : Nat) (heard : List Nat) (v : Nat) : Prop := n / 2 < heard.count v

instance (n : Nat) (heard : List Nat) : DecidablePred (Exceeds n heard) := fun _ => inferInstanceAs (Decidable (_ < _))

/-- What a waiting node should do with the announcements it heard, if the index after
its chain is `next`: `s` is the node after. -/
structure Recognises (n : Nat) (heard : List Nat) (next : Nat) (s : Node L) : Prop where
  newRound : Exceeds n heard next ∧ (∀ v, next < v → ¬Exceeds n heard v) →
    s.newBlockIndex = next ∧ s.nodeState = .newRound
  sync : (∃ v, next < v ∧ Exceeds n heard v) ∧ ¬Exceeds n heard next → s.nodeState = .sync
  stays : ¬(Exceeds n heard next ∧ ∀ v, next < v → ¬Exceeds n heard v) →
    ¬((∃ v, next < v ∧ Exceeds n heard v) ∧ ¬Exceeds n heard next) → s.nodeState = .waiting

/-- Of the announcements of indices that exceed, the first is of an older index. -/
def Hidden (n : Nat) (heard : List Nat) (next : Nat) : Prop :=
  ∃ pre u post, heard = pre ++ u :: post ∧ u < next ∧ Exceeds n heard u ∧ ∀ v ∈ pre, ¬Exceeds n heard v

theorem hidden_iff {heard : List Nat} {next : Nat} :
    Hidden n heard next ↔ ∃ u, getValueIfCountExceeds heard (n / 2) = some u ∧ u < next := by
  simp only [getValueIfCountExceeds_eq_some_iff]
  constructor
  · rintro ⟨pre, u, post, h, hu, hx, hpre⟩
    exact ⟨u, ⟨hx, pre, post, h, hpre⟩, hu⟩
  · rintro ⟨u, ⟨hx, pre, post, h, hpre⟩, hu⟩
    exact ⟨pre, u, post, h, hu, hx, hpre⟩

namespace NodeManager

variable {w : NodeManager L n} {i : Fin n} {clock : Clock}

theorem setState_newRound (clock : Clock) (hs : (w.nodes i).nodeState ≠ .newRound) :
    ((w.setState i clock .newRound).nodes i).nodeState = .newRound ∧
      ((w.setState i clock .newRound).nodes i).newBlockIndex = (w.nodes i).newBlockIndex := by
  rw [setState, if_neg hs]
  show ((onStateNewRoundBegin i _).nodes i).nodeState = _ ∧ ((onStateNewRoundBegin i _).nodes i).newBlockIndex = _
  unfold onStateNewRoundBegin
  dsimp only
  split
  · rw [nodes_modify_self]
    exact ⟨rfl, rfl⟩
  · dsimp only
    rw [nodes_modify_self, nodes_modify_self]
    exact ⟨rfl, rfl⟩

theorem setState_sync (hs : (w.nodes i).nodeState ≠ .sync) :
    ((w.setState i clock .sync).nodes i).nodeState = .sync := by
  rw [setState, if_neg hs]
  show ((onStateSyncBegin i clock _).nodes i).nodeState = _
  rw [onStateSyncBegin, nodes_modify_self, nodes_modify_self]

/-- What a waiting node does with the first index that exceeds. -/
theorem onMain_waiting (clock : Clock) (hs : (w.nodes i).nodeState = .waiting) :
    let next := (w.nodes i).blockChain.size + 1
    let heard := ((w.requestNewRound i clock next).nodes i).receivedNewRound
    let s := (w.onMain (i, clock)).nodes i
    let first := getValueIfCountExceeds heard (n / 2)
    (first = some next → s.newBlockIndex = next ∧ s.nodeState = .newRound) ∧
      (∀ v, first = some v → next < v → s.nodeState = .sync) ∧
      ((∀ v, first = some v → v < next) → s.nodeState = .waiting) := by
  intro next heard s first
  have hk := Agree.kept_requestNewRound w i clock next
  have hs' : ((w.requestNewRound i clock next).nodes i).nodeState = .waiting := (hk.node i).nodeState.trans hs
  have hmain : s = (w.onStateWaitingMain i clock).nodes i := by
    show (w.onMain (i, clock)).nodes i = _
    unfold onMain
    dsimp only
    rw [hs]
  have hfirst : getValueIfCountExceeds ((w.requestNewRound i clock next).nodes i).receivedNewRound (n / 2) = first :=
    rfl
  rw [hmain]
  unfold onStateWaitingMain
  dsimp only
  rw [hfirst]
  refine ⟨fun h => ?_, fun v h hlt => ?_, fun h => ?_⟩
  · simp only [h, next, if_true]
    obtain ⟨h1, h2⟩ := setState_newRound (i := i) clock
      (w := (w.requestNewRound i clock next).modify i fun s => { s with newBlockIndex := next })
      (by rw [nodes_modify_self]; exact hs'.trans_ne (by decide))
    rw [nodes_modify_self] at h2
    exact ⟨h2, h1⟩
  · rw [h]
    dsimp only
    rw [if_neg (Nat.ne_of_lt hlt), if_pos hlt]
    exact setState_sync (hs'.trans_ne (by decide))
  · cases hv : first with
    | none => exact hs'
    | some v =>
      have hlt := h v hv
      dsimp only
      rw [if_neg (Nat.ne_of_gt hlt), if_neg (Nat.lt_asymm hlt)]
      exact hs'

/-- A waiting node does with what it heard what it should exactly if the first index
that exceeds is an older one where its next index and a greater one both exceed, and
is not where just one of the two kinds does. -/
theorem recognises_iff (hs : (w.nodes i).nodeState = .waiting) :
    let next := (w.nodes i).blockChain.size + 1
    let heard := ((w.requestNewRound i clock next).nodes i).receivedNewRound
    let Both := Exceeds n heard next ∧ ∃ v, next < v ∧ Exceeds n heard v
    Recognises n heard next ((w.onMain (i, clock)).nodes i) ↔
      (Both → Hidden n heard next) ∧ (Hidden n heard next → Both ∨ ∀ v, next ≤ v → ¬Exceeds n heard v) := by
  intro next heard Both
  obtain ⟨hnew, hsync, hstay⟩ := onMain_waiting clock hs
  generalize (w.onMain (i, clock)).nodes i = s at hnew hsync hstay ⊢
  rw [hidden_iff]
  cases hf : getValueIfCountExceeds heard (n / 2) with
  | none =>
    have hmain : s.nodeState = .waiting := hstay fun v hv => absurd (hf.symm.trans hv) (by simp)
    have hno : ∀ v, ¬Exceeds n heard v := getValueIfCountExceeds_eq_none_iff.mp hf
    refine iff_of_true ⟨fun h => absurd h.1 (hno _), fun h => ?_, fun _ _ => hmain⟩ ⟨fun h => absurd h.1 (hno _), ?_⟩
    · obtain ⟨v, -, hv⟩ := h.1
      exact absurd hv (hno v)
    · rintro ⟨u, ⟨⟩, -⟩
  | some v =>
    have hv : Exceeds n heard v := (getValueIfCountExceeds_eq_some_iff.mp hf).1
    have hhid : (∃ u, some v = some u ∧ u < next) ↔ v < next := by simp
    rw [hhid]
    rcases Nat.lt_trichotomy next v with hlt | heq | hgt
    · -- The node goes into sync: it should, unless its next index exceeds as well.
      have hmain : s.nodeState = .sync := hsync v hf hlt
      refine ⟨fun h => ⟨fun hb => ?_, fun hg => absurd hg (Nat.lt_asymm hlt)⟩, fun h => ?_⟩
      · have := h.stays (fun ha => ha.2 v hlt hv) fun hb' => hb'.2 hb.1
        exact absurd (this.symm.trans hmain) (by decide)
      · have hnext : ¬Exceeds n heard next := fun hx => absurd (h.1 ⟨hx, v, hlt, hv⟩) (Nat.lt_asymm hlt)
        exact ⟨fun ha => absurd ha.1 hnext, fun _ => hmain, fun _ hb => absurd ⟨⟨v, hlt, hv⟩, hnext⟩ hb⟩
    · -- It starts the round: it should, unless a greater index exceeds as well.
      have hmain : s.newBlockIndex = next ∧ s.nodeState = .newRound := hnew (hf.trans (congrArg some heq.symm))
      rw [← heq] at hv ⊢
      refine ⟨fun h => ⟨fun hb => ?_, fun hg => absurd hg (Nat.lt_irrefl next)⟩, fun h => ?_⟩
      · obtain ⟨u, hu, hux⟩ := hb.2
        have := h.stays (fun ha => ha.2 u hu hux) fun hb' => hb'.2 hv
        exact absurd (this.symm.trans hmain.2) (by decide)
      · have hno : ∀ u, next < u → ¬Exceeds n heard u := fun u hu hux =>
          absurd (h.1 ⟨hv, u, hu, hux⟩) (Nat.lt_irrefl next)
        exact ⟨fun _ => hmain, fun hb => absurd hv hb.2, fun ha _ => absurd ⟨hv, hno⟩ ha⟩
    · -- It stays: it should where both exceed, and where neither does.
      have hmain : s.nodeState = .waiting :=
        hstay fun u hu => Option.some.inj (hf.symm.trans hu) ▸ hgt
      refine ⟨fun h => ⟨fun _ => hgt, fun _ => ?_⟩, fun h => ?_⟩
      · by_cases hx : Exceeds n heard next
        · refine .inl ⟨hx, ?_⟩
          by_contra hno
          have := (h.newRound ⟨hx, fun u hu hux => hno ⟨u, hu, hux⟩⟩).2
          exact absurd (this.symm.trans hmain) (by decide)
        · refine .inr fun u hu hux => ?_
          rcases Nat.eq_or_lt_of_le hu with rfl | hu
          · exact hx hux
          · exact absurd ((h.sync ⟨⟨u, hu, hux⟩, hx⟩).symm.trans hmain) (by decide)
      · rcases h.2 hgt with hb | hno
        · obtain ⟨hx, u, hu, hux⟩ := hb
          exact ⟨fun ha => absurd hux (ha.2 u hu), fun hb => absurd hx hb.2, fun _ _ => hmain⟩
        · refine ⟨fun ha => absurd ha.1 (hno _ (Nat.le_refl _)), fun hb => ?_, fun _ _ => hmain⟩
          obtain ⟨u, hu, hux⟩ := hb.1
          exact absurd hux (hno u (Nat.le_of_lt hu))

/-- Node 2 of three hears its own announcement last, and recognises the quorum. -/
theorem recognises_iff_sample :
    let w : NodeManager Core.sample 3 := run onMain
      (.start (fun i => (i.val : Nat)) (fun _ => 30000) (fun _ => false) fun _ => 0)
      ([(0, 30), (1, 30), (2, 30), (0, 30), (1, 30)].map fun e => (e.1, ⟨e.2, 1000 * e.2⟩))
    let heard := ((w.requestNewRound 2 ⟨30, 30000⟩ 1).nodes 2).receivedNewRound
    heard = [1, 1, 1] ∧ Recognises 3 heard 1 ((w.onMain (2, ⟨30, 30000⟩)).nodes 2) := by
  intro w heard
  have hh : heard = [1, 1, 1] := by decide +kernel
  refine ⟨hh, (recognises_iff (w := w) (i := 2) (by decide +kernel)).mpr ?_⟩
  show (Exceeds 3 heard 1 ∧ (∃ v, 1 < v ∧ Exceeds 3 heard v) → _) ∧ (Hidden 3 heard 1 → _)
  rw [hh]
  refine ⟨fun hb => ?_, fun hg => ?_⟩
  · obtain ⟨-, v, hv, hx⟩ := hb
    have : List.count v [1, 1, 1] = 0 := List.count_eq_zero.mpr (by simp; omega)
    rw [Exceeds, this] at hx
    omega
  · obtain ⟨u, hu, hlt⟩ := hidden_iff.mp hg
    cases hu
    exact absurd hlt (by decide)

/-- Node 2 of three took block 1 alone, and then heard both others announce it again.
When all have it and announce block 2, node 2 still waits. -/
theorem recognises_hidden :
    let es : List (Fin 3 × Nat) := [(0, 30), (1, 30), (2, 30), (0, 30), (1, 30), (2, 30), (0, 30), (0, 36),
      (1, 36), (2, 36), (0, 41), (1, 41), (2, 41), (0, 41), (1, 41), (2, 41), (2, 41), (0, 60), (1, 60),
      (0, 60), (1, 60), (0, 60), (0, 66), (1, 66), (0, 71), (1, 71), (0, 71), (1, 71), (0, 71), (1, 71),
      (0, 90), (1, 90)]
    let w : NodeManager Core.sample 3 := run onMain
      (.start (fun i => (i.val : Nat)) (fun _ => 30000) (fun _ => false) fun _ => 0)
      (es.map fun e => (e.1, ⟨e.2, 1000 * e.2⟩))
    let heard := ((w.requestNewRound 2 ⟨90, 90000⟩ 2).nodes 2).receivedNewRound
    (∀ k, (w.nodes k).blockChain.size = 1) ∧ (w.nodes 2).nodeState = .waiting ∧ heard = [1, 1, 2, 2, 2] ∧
      ¬Recognises 3 heard 2 ((w.onMain (2, ⟨90, 90000⟩)).nodes 2) := by
  intro es w heard
  have hh : heard = [1, 1, 2, 2, 2] := by decide +kernel
  refine ⟨by decide +kernel, by decide +kernel, hh, fun h => ?_⟩
  rw [hh] at h
  have hno : ∀ v, 2 < v → ¬Exceeds 3 [1, 1, 2, 2, 2] v := by
    intro v hv hx
    have : List.count v [1, 1, 2, 2, 2] = 0 := List.count_eq_zero.mpr (by simp; omega)
    rw [Exceeds, this] at hx
    omega
  have hstay : ((w.onMain (2, ⟨90, 90000⟩)).nodes 2).nodeState = .waiting := by decide +kernel
  exact absurd (hstay.symm.trans (h.newRound ⟨by decide, hno⟩).2) (by decide)

end NodeManager

end Bryllite.BcpMono
