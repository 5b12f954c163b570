import Bryllite.Framework.Senders
import Mathlib.Data.Fintype.Card
import Mathlib.Logic.Function.Basic
import Mathlib.Logic.Relation

/-!
# Agreement by commits that are not taken back

Nodes decide values in the order of their indices (`idx`). A node may commit
to a value with its next index, which all record at once in their boxes; it
commits to no other before it has decided. It decides a value with its next
index that it has recorded more than half as many times as there are nodes.
It may empty its box without, if it has decided the indices of all its commits.

The log of all commits is kept beside the nodes. In it no node commits twice
to a value, or to two values with the same index (`Inv.unique`), so what is
decided has the commits of a majority of nodes, whatever the boxes missed
(`Inv.decided`), and two majorities have a node in common (`Inv.agree`).
-/

namespace Bryllite.Framework.Commits

variable {ι B : Type*}

/-- A node: whether it is committed, what it recorded, and what it decided. -/
@[ext]
structure Node (B : Type*) where
  committed : Bool
  box : List B
  decided : List B

/-- The nodes, and all commits. -/
@[ext]
structure State (ι B : Type*) where
  nodes : ι → Node B
  log : List (ι × B)

/-- The number of decisions of node `i`. -/
def State.height (s : State ι B) (i : ι) : Nat := (s.nodes i).decided.length

/-- Node `i` commits, to the value `o` if there is one. -/
def State.commit [DecidableEq ι] (i : ι) (o : Option B) (s : State ι B) : State ι B where
  nodes k :=
    { committed := if k = i then true else (s.nodes k).committed
      box := (s.nodes k).box ++ o.toList
      decided := (s.nodes k).decided }
  log := s.log ++ o.toList.map (i, ·)

/-- Node `i` empties its box and is committed no more, with the decision `o` if
there is one. -/
def State.leave [DecidableEq ι] (i : ι) (o : Option B) (s : State ι B) : State ι B where
  nodes := Function.update s.nodes i
    { committed := false, box := [], decided := (s.nodes i).decided ++ o.toList }
  log := s.log

section Step

variable [Fintype ι] [DecidableEq ι] [DecidableEq B] (idx : B → Nat)

/-- The steps of the nodes. -/
inductive Step (s : State ι B) : State ι B → Prop
  | commit (i : ι) (o : Option B) (hi : (s.nodes i).committed = false)
    (ho : ∀ b, o = some b → idx b = s.height i + 1) : Step s (s.commit i o)
  | clear (i : ι) (h : ∀ b, (i, b) ∈ s.log → idx b ≤ s.height i) : Step s (s.leave i none)
  | decide (i : ι) (b : B) (hb : Fintype.card ι / 2 < (s.nodes i).box.count b)
    (h : idx b = s.height i + 1) : Step s (s.leave i (some b))

/-- The invariant of the steps. -/
structure Inv (s : State ι B) : Prop where
  /-- A node has decided the indices it committed for, but for the one it is
  committed for. -/
  log {i : ι} {b : B} : (i, b) ∈ s.log →
    idx b ≤ s.height i ∨ (s.nodes i).committed = true ∧ idx b = s.height i + 1
  unique {i : ι} {b b' : B} : (i, b) ∈ s.log → (i, b') ∈ s.log → idx b = idx b' → b = b'
  nodup : s.log.Nodup
  box (k : ι) (b : B) : (s.nodes k).box.count b ≤ (s.log.map Prod.snd).count b
  decided {k : ι} {r : Nat} {b : B} : (s.nodes k).decided[r]? = some b →
    idx b = r + 1 ∧ Fintype.card ι / 2 < (s.log.map Prod.snd).count b

namespace Inv

variable {idx} {s : State ι B}

omit [DecidableEq ι] in
/-- Nodes that have done nothing yet. -/
theorem init (hd : ∀ k, (s.nodes k).decided = []) (hb : ∀ k, (s.nodes k).box = [])
    (hl : s.log = []) : Inv idx s where
  log h := by rw [hl] at h; cases h
  unique h := by rw [hl] at h; cases h
  nodup := hl ▸ List.nodup_nil
  box k b := by rw [hb]; exact Nat.zero_le _
  decided h := by rw [hd] at h; cases h

theorem commit (hs : Inv idx s) {i : ι} {o : Option B} (hi : (s.nodes i).committed = false)
    (ho : ∀ b, o = some b → idx b = s.height i + 1) : Inv idx (s.commit i o) := by
  have hmem : ∀ {j b}, (j, b) ∈ (s.commit i o).log → (j, b) ∈ s.log ∨ j = i ∧ o = some b := by
    intro j b h
    rcases List.mem_append.mp h with h | h
    · exact .inl h
    · obtain ⟨b', hb', e⟩ := List.mem_map.mp h
      obtain ⟨rfl, rfl⟩ := Prod.mk.inj e
      exact .inr ⟨rfl, Option.mem_toList.mp hb'⟩
  -- Node `i` has decided every index it committed for, and not that of `o`.
  have hold : ∀ {b b'}, (i, b) ∈ s.log → o = some b' → idx b ≠ idx b' := by
    intro b b' h hb'
    have := ho b' hb'
    rcases hs.log h with h | ⟨h, -⟩
    · omega
    · rw [hi] at h
      cases h
  constructor
  case log =>
    intro j b h
    rcases hmem h with h | ⟨rfl, hb⟩
    · rcases hs.log h with h | ⟨h, h'⟩
      · exact .inl h
      · refine .inr ⟨?_, h'⟩
        show (if j = i then true else _) = true
        rw [h, ite_self]
    · exact .inr ⟨if_pos rfl, ho b hb⟩
  case unique =>
    intro j b b' h h' he
    rcases hmem h with h1 | ⟨hj, hb⟩ <;> rcases hmem h' with h1' | ⟨hj', hb'⟩
    · exact hs.unique h1 h1' he
    · rw [hj'] at h1
      exact absurd he (hold h1 hb')
    · rw [hj] at h1'
      exact absurd he.symm (hold h1' hb)
    · exact Option.some.inj (hb.symm.trans hb')
  case nodup =>
    refine List.nodup_append.mpr ⟨hs.nodup, ?_, ?_⟩
    · cases o with
      | none => exact List.nodup_nil
      | some b => exact List.nodup_singleton _
    · rintro ⟨j, b⟩ h x h' rfl
      obtain ⟨b', hb', e⟩ := List.mem_map.mp h'
      obtain ⟨rfl, rfl⟩ := Prod.mk.inj e
      exact hold h (Option.mem_toList.mp hb') rfl
  case box =>
    intro k b
    have hm : (o.toList.map (i, ·)).map Prod.snd = o.toList := by
      rw [List.map_map]
      exact List.map_id _
    show ((s.nodes k).box ++ o.toList).count b ≤ ((s.log ++ o.toList.map (i, ·)).map Prod.snd).count b
    rw [List.map_append, hm, List.count_append, List.count_append]
    exact Nat.add_le_add_right (hs.box k b) _
  case decided =>
    intro k r b h
    obtain ⟨h1, h2⟩ := hs.decided h
    refine ⟨h1, h2.trans_le ?_⟩
    show _ ≤ ((s.log ++ o.toList.map (i, ·)).map Prod.snd).count b
    rw [List.map_append, List.count_append]
    exact Nat.le_add_right _ _

theorem leave (hs : Inv idx s) {i : ι} {o : Option B}
    (hlog : ∀ b, (i, b) ∈ s.log → idx b ≤ s.height i + o.toList.length)
    (ho : ∀ b, o = some b → Fintype.card ι / 2 < (s.nodes i).box.count b ∧ idx b = s.height i + 1) :
    Inv idx (s.leave i o) := by
  have hself : (s.leave i o).nodes i =
      { committed := false, box := [], decided := (s.nodes i).decided ++ o.toList } :=
    Function.update_self ..
  have hne : ∀ {k}, k ≠ i → (s.leave i o).nodes k = s.nodes k := fun hk => Function.update_of_ne hk ..
  constructor
  case log =>
    intro k b h
    by_cases hk : k = i
    · subst hk
      have := hlog b h
      refine .inl ?_
      rw [State.height, hself, List.length_append]
      exact this
    · rw [State.height, hne hk]
      exact hs.log h
  case unique => exact hs.unique
  case nodup => exact hs.nodup
  case box =>
    intro k b
    by_cases hk : k = i
    · subst hk
      rw [hself]
      exact Nat.zero_le _
    · rw [hne hk]
      exact hs.box k b
  case decided =>
    intro k r b h
    by_cases hk : k = i
    · subst hk
      rw [hself, List.getElem?_append] at h
      split at h
      · exact hs.decided h
      · -- The new decision, which has the commits of a majority in the log.
        rename_i hr
        cases hd : o with
        | none =>
          rw [hd] at h
          cases h
        | some b' =>
          rw [hd, Option.toList_some, List.getElem?_singleton] at h
          split at h
          · obtain ⟨h1, h2⟩ := ho b' hd
            rw [← Option.some.inj h]
            refine ⟨?_, h1.trans_le (hs.box k b')⟩
            rw [h2, State.height]
            omega
          · cases h
    · rw [hne hk] at h
      exact hs.decided h

theorem step {s' : State ι B} (hs : Inv idx s) (h : Step idx s s') : Inv idx s' := by
  cases h with
  | commit i o hi ho => exact hs.commit hi ho
  | clear i h => exact hs.leave h fun b hb => by cases hb
  | decide i b hb h =>
    refine hs.leave (fun b' h' => ?_) fun b' hb' => ?_
    · show idx b' ≤ s.height i + 1
      rcases hs.log h' with h' | ⟨-, h'⟩ <;> omega
    · obtain rfl := Option.some.inj hb'
      exact ⟨hb, h⟩

/-- The nodes that committed to a value. -/
def voters (s : State ι B) (b : B) : Finset ι := ((s.log.filter fun e => e.2 = b).map Prod.fst).toFinset

omit [Fintype ι] in
theorem mem_voters {b : B} {i : ι} : i ∈ voters s b ↔ (i, b) ∈ s.log := mem_senders

/-- There are as many of them as commits to it. -/
theorem card_voters (hs : Inv idx s) (b : B) : (voters s b).card = (s.log.map Prod.snd).count b := by
  have honce : Once s.log b := fun i => List.nodup_iff_count_le_one.mp hs.nodup (i, b)
  exact (count_eq_card_iff.mpr honce).symm

/-- No two nodes decide different values at one position. -/
theorem agree (hs : Inv idx s) {j k : ι} {r : Nat} {b b' : B} (hb : (s.nodes j).decided[r]? = some b)
    (hb' : (s.nodes k).decided[r]? = some b') : b = b' := by
  obtain ⟨hr, hc⟩ := hs.decided hb
  obtain ⟨hr', hc'⟩ := hs.decided hb'
  rw [← hs.card_voters] at hc hc'
  have hlt : (Finset.univ : Finset ι).card < (voters s b).card + (voters s b').card := by
    rw [Finset.card_univ]
    omega
  -- A node that committed to both.
  obtain ⟨i, hi⟩ := Finset.inter_nonempty_of_card_lt_card_add_card (Finset.subset_univ _)
    (Finset.subset_univ _) hlt
  obtain ⟨h, h'⟩ := Finset.mem_inter.mp hi
  exact hs.unique (mem_voters.mp h) (mem_voters.mp h') (hr.trans hr'.symm)

end Inv

end Step

end Bryllite.Framework.Commits
