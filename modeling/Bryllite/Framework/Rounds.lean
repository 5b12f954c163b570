import Bryllite.Framework.Run
import Mathlib.Logic.Function.Basic
import Mathlib.Logic.Relation

/-!
# Agreement in rounds whose messages carry no round

Nodes decide a sequence of values in rounds. A node that is in no round may
announce the index it would decide next; when it has such an announcement of
every node it starts a round, with the boxes it has. What a node in a round
sends, all nodes record in their boxes at once, whether they are in a round or
not; a box elects at most one value, for good (`Ballot`). A node leaves its
round with the elected value or with none, and empties its boxes then, and
only then.

Nothing says which round a recorded message belongs to. Agreement holds
nevertheless if every round is started with empty boxes (`Step.start`), for
any order of the steps (`Inv.agree`, `Inv.step`). A node in a round is one of
those that decided least, so all nodes in a round are in one for the same
index, and their boxes are the same (`same`). A node that missed a decision
has announced itself into a start it can no longer make: the decision left
messages in its boxes (`lag`, `stale`).
-/

namespace Bryllite.Framework.Rounds

/-- What the theory needs of boxes `B` that record messages `M` and elect
values `H`. -/
structure Ballot (B M H : Type*) where
  empty : B
  record : B → M → B
  elected : B → Option H
  /-- The boxes hold nothing but messages about the index `r`. -/
  About : Nat → B → Prop
  /-- The message is one about the index `r`. -/
  Fits : Nat → M → Prop
  about_empty (r : Nat) : About r empty
  about_record {r : Nat} {b : B} {m : M} : About r b → Fits r m → About r (record b m)
  elected_empty : elected empty = none
  elected_record {r : Nat} {b : B} {m : M} {h : H} : About r b → Fits r m → elected b = some h →
    elected (record b m) = some h
  eq_empty_of_record {r : Nat} {b : B} {m : M} : Fits r m → record b m = empty → b = empty

variable {ι B M H : Type*}

/-- A node: whether it is in a round, the index each node announced to it, its
boxes, and what it decided. -/
@[ext]
structure Node (ι B H : Type*) where
  inRound : Bool
  announced : ι → Option Nat
  boxes : B
  decided : List H

/-- The number of decisions of a node. -/
def Node.height (v : Node ι B H) : Nat := v.decided.length

/-- The node, out of its round with the decision `d` or with none. -/
def Node.leave (S : Ballot B M H) (d : Option H) (v : Node ι B H) : Node ι B H where
  inRound := false
  announced _ := none
  boxes := S.empty
  decided := v.decided ++ d.toList

variable [DecidableEq ι]

/-- The node when node `i` announced `r`, which counts if it is the first. -/
def Node.hear (i : ι) (r : Nat) (v : Node ι B H) : Node ι B H :=
  { v with announced := Function.update v.announced i ((v.announced i).or (some r)) }

theorem Node.hear_self (i : ι) (r : Nat) (v : Node ι B H) :
    (v.hear i r).announced i = (v.announced i).or (some r) := Function.update_self ..

theorem Node.hear_of_ne {i j : ι} (hj : j ≠ i) (r : Nat) (v : Node ι B H) :
    (v.hear i r).announced j = v.announced j := Function.update_of_ne hj ..

/-- The steps of the nodes. -/
inductive Step (S : Ballot B M H) (v : ι → Node ι B H) : (ι → Node ι B H) → Prop
  | announce (i : ι) (hi : (v i).inRound = false) : Step S v fun k => (v k).hear i ((v i).height + 1)
  | start (i : ι) (r : Nat) (hi : (v i).inRound = false) (ha : ∀ j, (v i).announced j = some r)
    (hb : (v i).boxes = S.empty) : Step S v (Function.update v i { v i with inRound := true })
  | send (i : ι) (m : M) (hi : (v i).inRound = true) (hm : S.Fits ((v i).height + 1) m) :
    Step S v fun k => { v k with boxes := S.record (v k).boxes m }
  | leave (i : ι) (d : Option H)
    (hd : ∀ h, d = some h → (v i).inRound = true ∧ S.elected (v i).boxes = some h) :
    Step S v (Function.update v i ((v i).leave S d))

/-- A node in a round sends several messages. -/
theorem Step.sends {S : Ballot B M H} {v : ι → Node ι B H} {i : ι} (hi : (v i).inRound = true)
    {ms : List M} (hm : ∀ m ∈ ms, S.Fits ((v i).height + 1) m) : Relation.ReflTransGen (Step S) v
      fun k => { v k with boxes := run S.record (v k).boxes ms } := by
  induction ms generalizing v with
  | nil => exact .refl
  | cons m ms ih =>
    have h := Step.send (S := S) (v := v) i m hi (hm m List.mem_cons_self)
    exact .head h (ih (v := fun k => { v k with boxes := S.record (v k).boxes m }) hi
      fun m hms => hm m (List.mem_cons_of_mem _ hms))

/-- The invariant of the steps. -/
structure Inv (S : Ballot B M H) (v : ι → Node ι B H) : Prop where
  announced {i j : ι} {r : Nat} : (v i).announced j = some r → r ≤ (v j).height + 1
  own {i : ι} {r : Nat} : (v i).announced i = some r → r = (v i).height + 1
  full {i : ι} : (v i).inRound = true → ∀ j, (v i).announced j = some ((v i).height + 1)
  near (i j : ι) : (v j).height ≤ (v i).height + 1
  about {i : ι} : (v i).inRound = true → S.About ((v i).height + 1) (v i).boxes
  /-- Nodes in a round have the same boxes. -/
  same {i j : ι} : (v i).inRound = true → (v j).inRound = true → (v i).boxes = (v j).boxes
  /-- A node in no round that holds the announcement of one in a round recorded
  something if that one did. -/
  lag {k i : ι} : (v k).inRound = false → (v i).inRound = true → (v k).announced i ≠ none →
    (v k).boxes = S.empty → (v i).boxes = S.empty
  agree {i j : ι} {r : Nat} {h h' : H} :
    (v i).decided[r]? = some h → (v j).decided[r]? = some h' → h = h'
  /-- What is decided for the index of a round is what its boxes elect. -/
  elected {i j : ι} : (v i).inRound = true → (v j).height = (v i).height + 1 →
    (v j).decided[(v i).height]? = S.elected (v i).boxes
  /-- A node in no round, with the announcement of one that has decided since,
  recorded something. -/
  stale {i j : ι} : (v i).inRound = false → (v j).height = (v i).height + 1 →
    (v i).announced j = some ((v i).height + 1) → (v i).boxes ≠ S.empty

namespace Inv

variable {S : Ballot B M H} {v : ι → Node ι B H}

omit [DecidableEq ι]

/-- Nodes that have done nothing yet. -/
theorem init (hr : ∀ i, (v i).inRound = false) (ha : ∀ i j, (v i).announced j = none)
    (hd : ∀ i, (v i).decided = []) : Inv S v where
  announced h := by rw [ha] at h; cases h
  own h := by rw [ha] at h; cases h
  full h := by rw [hr] at h; cases h
  near i j := by simp only [Node.height, hd]; exact Nat.zero_le _
  about h := by rw [hr] at h; cases h
  same h := by rw [hr] at h; cases h
  lag _ h := by rw [hr] at h; cases h
  agree h := by rw [hd] at h; cases h
  elected h := by rw [hr] at h; cases h
  stale _ _ h := by rw [ha] at h; cases h

/-- A node in a round has decided least. -/
theorem height_le (hv : Inv S v) {i : ι} (hi : (v i).inRound = true) (j : ι) :
    (v i).height ≤ (v j).height := by
  have := hv.announced (hv.full hi j)
  omega

theorem height_eq (hv : Inv S v) {i j : ι} (hi : (v i).inRound = true) (hj : (v j).inRound = true) :
    (v i).height = (v j).height :=
  Nat.le_antisymm (hv.height_le hi j) (hv.height_le hj i)

/-- The boxes of a round in whose index another node has decided elect something. -/
theorem elected_some (hv : Inv S v) {i j : ι} (hi : (v i).inRound = true)
    (hj : (v j).height = (v i).height + 1) :
    ∃ h, (v j).decided[(v i).height]? = some h ∧ S.elected (v i).boxes = some h := by
  have hlt : (v i).height < (v j).decided.length := by
    have : (v j).decided.length = _ := hj
    omega
  have he := List.getElem?_eq_getElem hlt
  exact ⟨_, he, (hv.elected hi hj).symm.trans he⟩

/-- Another node that has decided for the index of a round decided what the
boxes of the round elect. -/
theorem elected_eq (hv : Inv S v) {i k : ι} {h h' : H} (hi : (v i).inRound = true)
    (hh : S.elected (v i).boxes = some h) (hk : (v k).decided[(v i).height]? = some h') : h' = h := by
  have hlt := (List.getElem?_eq_some_iff.mp hk).1
  have hnear : (v k).decided.length ≤ (v i).height + 1 := hv.near i k
  have he := hv.elected (j := k) hi (show (v k).decided.length = _ by omega)
  rw [hk, hh] at he
  exact Option.some.inj he

theorem send (hv : Inv S v) {i : ι} {m : M} (hi : (v i).inRound = true)
    (hm : S.Fits ((v i).height + 1) m) :
    Inv S fun k => { v k with boxes := S.record (v k).boxes m } := by
  have hfits : ∀ {k}, (v k).inRound = true → S.Fits ((v k).height + 1) m := fun hk => by
    rwa [hv.height_eq hk hi]
  constructor
  case announced => exact hv.announced
  case own => exact hv.own
  case full => exact hv.full
  case near => exact hv.near
  case about =>
    intro k hk
    exact S.about_record (hv.about hk) (hfits hk)
  case same =>
    intro k j hk hj
    exact congrArg (S.record · m) (hv.same hk hj)
  case lag =>
    intro k j hk hj ha he
    have hb : (v k).boxes = S.empty := S.eq_empty_of_record hm he
    show S.record (v j).boxes m = S.empty
    rw [hv.lag hk hj ha hb]
    exact hb ▸ he
  case agree => exact hv.agree
  case elected =>
    intro k j hk hj
    obtain ⟨h, hd, hs⟩ := hv.elected_some hk hj
    show (v j).decided[(v k).height]? = _
    rw [hd, S.elected_record (hv.about hk) (hfits hk) hs]
  case stale =>
    intro k j hk hj ha he
    exact hv.stale hk hj ha (S.eq_empty_of_record hm he)

variable [DecidableEq ι]

theorem announce (hv : Inv S v) {i : ι} (hi : (v i).inRound = false) :
    Inv S fun k => (v k).hear i ((v i).height + 1) := by
  -- An announcement that is there is an old one, or the new one of node `i`.
  have hor : ∀ k j r, ((v k).hear i ((v i).height + 1)).announced j = some r →
      (v k).announced j = some r ∨ j = i ∧ r = (v i).height + 1 := by
    intro k j r h
    by_cases hj : j = i
    · subst hj
      rw [Node.hear_self] at h
      cases ho : (v k).announced j with
      | none =>
        rw [ho, Option.none_or] at h
        cases h
        exact .inr ⟨rfl, rfl⟩
      | some r' =>
        rw [ho, Option.some_or] at h
        exact .inl h
    · rw [Node.hear_of_ne hj] at h
      exact .inl h
  constructor
  case announced =>
    intro k j r h
    rcases hor k j r h with h | ⟨rfl, rfl⟩
    · exact hv.announced h
    · exact Nat.le_refl _
  case own =>
    intro k r h
    rcases hor k k r h with h | ⟨rfl, rfl⟩
    · exact hv.own h
    · rfl
  case full =>
    intro k hk j
    have ho : (v k).announced j = some ((v k).height + 1) := hv.full hk j
    show ((v k).hear i _).announced j = some ((v k).height + 1)
    by_cases hj : j = i
    · subst hj
      rw [Node.hear_self, ho, Option.some_or]
    · rw [Node.hear_of_ne hj, ho]
  case near => exact hv.near
  case about => exact hv.about
  case same => exact hv.same
  case lag =>
    intro k j hk hj ha
    have hji : j ≠ i := by
      rintro rfl
      exact absurd (hi.symm.trans hj) (by decide)
    rw [Node.hear_of_ne hji] at ha
    exact hv.lag hk hj ha
  case agree => exact hv.agree
  case elected => exact hv.elected
  case stale =>
    intro k j hk hj ha
    rcases hor k j _ ha with ha | ⟨rfl, hr⟩
    · exact hv.stale hk hj ha
    · have h1 : (v j).height = (v k).height + 1 := hj
      have h2 : (v k).height + 1 = (v j).height + 1 := hr
      omega

/-- All announced the same index, so the node announced its own. -/
theorem start (hv : Inv S v) {i : ι} {r : Nat} (hi : (v i).inRound = false)
    (ha : ∀ j, (v i).announced j = some r) (hb : (v i).boxes = S.empty) :
    Inv S (Function.update v i { v i with inRound := true }) := by
  obtain rfl : r = (v i).height + 1 := hv.own (ha i)
  have hemp : ∀ {j}, (v j).inRound = true → (v j).boxes = S.empty := fun hj =>
    hv.lag hi hj (by rw [ha]; exact Option.some_ne_none _) hb
  -- All but `inRound` is as before at every node.
  have hu : ∀ k, (Function.update v i { v i with inRound := true } k) =
      { v k with inRound := if k = i then true else (v k).inRound } := fun k => by
    by_cases hk : k = i
    · subst hk
      rw [Function.update_self, if_pos rfl]
    · rw [Function.update_of_ne hk, if_neg hk]
  have hin : ∀ {k}, (if k = i then true else (v k).inRound) = true → k = i ∨ (v k).inRound = true := by
    intro k hk
    by_cases hki : k = i
    · exact .inl hki
    · exact .inr (by rwa [if_neg hki] at hk)
  have hout : ∀ {k}, (if k = i then true else (v k).inRound) = false → (v k).inRound = false := by
    intro k hk
    by_cases hki : k = i
    · rw [if_pos hki] at hk
      cases hk
    · rwa [if_neg hki] at hk
  simp only [funext hu]
  constructor
  case announced => exact hv.announced
  case own => exact hv.own
  case full =>
    intro k hk
    rcases hin hk with rfl | hk
    · exact ha
    · exact hv.full hk
  case near => exact hv.near
  case about =>
    intro k hk
    rcases hin hk with rfl | hk
    · exact (congrArg (S.About _) hb).mpr (S.about_empty _)
    · exact hv.about hk
  case same =>
    intro k j hk hj
    have hbox : ∀ {k}, (if k = i then true else (v k).inRound) = true → (v k).boxes = S.empty := by
      intro k hk
      rcases hin hk with rfl | hk
      · exact hb
      · exact hemp hk
    exact (hbox hk).trans (hbox hj).symm
  case lag =>
    intro k j hk hj hkj he
    rcases hin hj with rfl | hj
    · exact hb
    · exact hv.lag (hout hk) hj hkj he
  case agree => exact hv.agree
  case elected =>
    intro k j hk hj
    rcases hin hk with rfl | hk
    · exact absurd hb (hv.stale hi hj (ha j))
    · exact hv.elected hk hj
  case stale =>
    intro k j hk
    exact hv.stale (hout hk)

/-- What node `i` changes by leaving: it has decided what it had, or beside that
what the boxes of its round elect. -/
structure Left (S : Ballot B M H) (i : ι) (v v' : ι → Node ι B H) : Prop where
  of_ne {k : ι} : k ≠ i → v' k = v k
  inRound : (v' i).inRound = false
  announced (j : ι) : (v' i).announced j = none
  decided : (v' i).decided = (v i).decided ∨ ∃ h, (v i).inRound = true ∧
    S.elected (v i).boxes = some h ∧ (v' i).decided = (v i).decided ++ [h]

theorem left_update {i : ι} {d : Option H}
    (hd : ∀ h, d = some h → (v i).inRound = true ∧ S.elected (v i).boxes = some h) :
    Left S i v (Function.update v i ((v i).leave S d)) := by
  have hself : Function.update v i ((v i).leave S d) i = (v i).leave S d := Function.update_self ..
  refine ⟨fun hk => Function.update_of_ne hk .., by rw [hself]; rfl, fun j => by rw [hself]; rfl, ?_⟩
  rw [hself]
  cases hdd : d with
  | none => exact .inl (List.append_nil _)
  | some h =>
    obtain ⟨h1, h2⟩ := hd h hdd
    exact .inr ⟨h, h1, h2, rfl⟩

namespace Left

omit [DecidableEq ι]

variable {i j k : ι} {r : Nat} {h : H} {v' : ι → Node ι B H}

theorem ne_of_inRound (hl : Left S i v v') (hk : (v' k).inRound = true) : k ≠ i := by
  rintro rfl
  rw [hl.inRound] at hk
  cases hk

theorem ne_of_announced (hl : Left S i v v') (hk : (v' k).announced j ≠ none) : k ≠ i := by
  rintro rfl
  exact hk (hl.announced j)

theorem decided_cases (hl : Left S i v v') (j : ι) : (v' j).decided = (v j).decided ∨ j = i ∧ ∃ h,
    (v i).inRound = true ∧ S.elected (v i).boxes = some h ∧ (v' i).decided = (v i).decided ++ [h] := by
  by_cases hj : j = i
  · subst hj
    exact hl.decided.imp_right fun h => ⟨rfl, h⟩
  · rw [hl.of_ne hj]
    exact .inl rfl

theorem height_of_eq (h : (v' j).decided = (v j).decided) : (v' j).height = (v j).height := congrArg List.length h

theorem height_of_snoc (hi : (v' i).decided = (v i).decided ++ [h]) : (v' i).height = (v i).height + 1 := by
  rw [Node.height, hi, List.length_append]
  rfl

theorem height_le (hl : Left S i v v') (k : ι) : (v k).height ≤ (v' k).height := by
  rcases hl.decided_cases k with h | ⟨rfl, h, -, -, h'⟩
  · exact Nat.le_of_eq (height_of_eq h).symm
  · rw [height_of_snoc h']
    exact Nat.le_succ _

end Left

omit [DecidableEq ι] in
/-- What the boxes of a round elect is what the others decided for its index, if
they did. -/
theorem agree_snoc (hv : Inv S v) {i k : ι} {r : Nat} {h₁ h₂ h : H} (hr : (v i).inRound = true)
    (he : S.elected (v i).boxes = some h) (h1 : (v k).decided[r]? = some h₁)
    (h2 : ((v i).decided ++ [h])[r]? = some h₂) : h₁ = h₂ := by
  rw [List.getElem?_append] at h2
  split at h2
  · exact hv.agree h1 h2
  · rw [List.getElem?_singleton] at h2
    split at h2
    · obtain rfl : r = (v i).height := show r = (v i).decided.length by omega
      rw [← Option.some.inj h2]
      exact hv.elected_eq hr he h1
    · cases h2

omit [DecidableEq ι] in
theorem left (hv : Inv S v) {i : ι} {v' : ι → Node ι B H} (hl : Left S i v v') : Inv S v' := by
  constructor
  case announced =>
    intro k j r h
    rw [hl.of_ne (hl.ne_of_announced (by rw [h]; exact Option.some_ne_none _))] at h
    have := hv.announced h
    have := hl.height_le j
    omega
  case own =>
    intro k r h
    have hk := hl.ne_of_announced (by rw [h]; exact Option.some_ne_none _)
    rw [hl.of_ne hk] at h ⊢
    exact hv.own h
  case full =>
    intro k hk
    have hki := hl.ne_of_inRound hk
    rw [hl.of_ne hki] at hk ⊢
    exact hv.full hk
  case near =>
    intro k j
    have hk := hl.height_le k
    rcases hl.decided_cases j with h | ⟨rfl, h, hr, -, h'⟩
    · have := hv.near k j
      rw [Left.height_of_eq h]
      omega
    · have := hv.height_le hr k
      rw [Left.height_of_snoc h']
      omega
  case about =>
    intro k hk
    have hki := hl.ne_of_inRound hk
    rw [hl.of_ne hki] at hk ⊢
    exact hv.about hk
  case same =>
    intro k j hk hj
    have hki := hl.ne_of_inRound hk
    have hji := hl.ne_of_inRound hj
    rw [hl.of_ne hki] at hk ⊢
    rw [hl.of_ne hji] at hj ⊢
    exact hv.same hk hj
  case lag =>
    intro k j hk hj ha
    have hji := hl.ne_of_inRound hj
    have hki := hl.ne_of_announced ha
    rw [hl.of_ne hki] at hk ha ⊢
    rw [hl.of_ne hji] at hj ⊢
    exact hv.lag hk hj ha
  case agree =>
    intro k j r h₁ h₂ h1 h2
    rcases hl.decided_cases k with hk | ⟨rfl, h, hr, he, hk⟩ <;> rcases hl.decided_cases j with hj | ⟨rfl, h', hr', he', hj⟩
    · rw [hk] at h1
      rw [hj] at h2
      exact hv.agree h1 h2
    · rw [hk] at h1
      rw [hj] at h2
      exact hv.agree_snoc hr' he' h1 h2
    · rw [hk] at h1
      rw [hj] at h2
      exact (hv.agree_snoc hr he h2 h1).symm
    · exact Option.some.inj (h1.symm.trans h2)
  case elected =>
    intro k j hk hj
    have hki := hl.ne_of_inRound hk
    rw [hl.of_ne hki] at hk hj ⊢
    rcases hl.decided_cases j with hjd | ⟨rfl, h, hr, he, hjd⟩
    · rw [Left.height_of_eq hjd] at hj
      rw [hjd]
      exact hv.elected hk hj
    · have hh := hv.height_eq hk hr
      rw [hv.same hk hr, he, hh, hjd]
      exact List.getElem?_concat_length
  case stale =>
    intro k j hk hj ha
    have hki := hl.ne_of_announced (by rw [ha]; exact Option.some_ne_none _)
    rw [hl.of_ne hki] at hk hj ha ⊢
    rcases hl.decided_cases j with hjd | ⟨rfl, h, hr, he, hjd⟩
    · exact hv.stale hk ((Left.height_of_eq hjd).symm.trans hj) ha
    · -- The round of node `j` had elected, so its boxes were not empty.
      intro hb
      have hj := hv.lag hk hr (by rw [ha]; exact Option.some_ne_none _) hb
      rw [hj, S.elected_empty] at he
      cases he

theorem leave (hv : Inv S v) {i : ι} {d : Option H}
    (hd : ∀ h, d = some h → (v i).inRound = true ∧ S.elected (v i).boxes = some h) :
    Inv S (Function.update v i ((v i).leave S d)) := hv.left (left_update hd)

theorem step {v' : ι → Node ι B H} (hv : Inv S v) (h : Step S v v') : Inv S v' := by
  cases h with
  | announce i hi => exact hv.announce hi
  | start i r hi ha hb => exact hv.start hi ha hb
  | send i m hi hm => exact hv.send hi hm
  | leave i d hd => exact hv.leave hd

theorem steps {v' : ι → Node ι B H} (hv : Inv S v) (h : Relation.ReflTransGen (Step S) v v') :
    Inv S v' := by
  induction h with
  | refl => exact hv
  | tail _ h ih => exact ih.step h

end Inv

end Bryllite.Framework.Rounds
