import Bryllite.Framework.SlotRing
import Bryllite.Framework.Run
import Bryllite.P2p.Message

/-!
# Writes (p2p_session and p2p_client)

A write copies its bytes into a slot of the write buffer and starts an
asynchronous write of that slot, which is outstanding until `handle_write` is
called. The slots are used in turn, whether their writes have completed or not.
So the bytes of an outstanding write stay in its slot exactly as long as no
write that is made a multiple of all slots later has other bytes there
(`writes_iff`, `writes_reuse`).
-/

namespace Bryllite.P2p

open Bryllite.Framework

variable {count : Nat}

/-- The write buffer of an open session, and the writes that are outstanding,
with their slots and the bytes that were passed. -/
structure Writer (count : Nat) where
  buffer : SessionBuffer count maxMessageLength
  connected : Bool := true
  outstanding : List (Nat × List UInt8) := []

/-- What a session meets: a call of `write` with the bytes at a pointer, or with
a null pointer, and the completion of the first outstanding write. -/
inductive WriteEvent where
  | write (data : Option (List UInt8))
  | complete

/-- `p2p_session::write`: what it returns, and the session after it. -/
def P2pSession.write (data : Option (List UInt8)) (w : Writer count) : Bool × Writer count :=
  match data with
  | none => (false, w)
  | some data =>
    if h : maxMessageLength < data.length then (false, w)
    else
      let slot := w.buffer.get
      let buffer := w.buffer.copy slot 0 data (by omega)
      (true, { w with buffer := buffer.next, outstanding := w.outstanding ++ [(slot, data)] })

/-- `p2p_client::write`: what it returns, and the client after it. -/
def P2pClient.write (data : Option (List UInt8)) (w : Writer count) : Bool × Writer count :=
  match data with
  | none => (false, w)
  | some data =>
    if h : maxMessageLength < data.length then (false, w)
    else if !w.connected then (false, w)
    else
      let buffer := w.buffer.next
      let slot := buffer.get
      (true, { w with
        buffer := buffer.copy slot 0 data (by omega)
        outstanding := w.outstanding ++ [(slot, data)] })

/-- `p2p_client::write` of a message, which is memory, or of a null pointer. -/
def P2pClient.writeMessage (t : Target) (msg : Option (List UInt8)) (w : Writer count) : Bool × Writer count :=
  match msg with
  | none => (false, w)
  | some msg =>
    if !t.valid msg then (false, w)
    else P2pClient.write (some (msg.take (t.size msg))) w

namespace Writer

/-- `handle_write`, without an error. -/
def complete (w : Writer count) : Writer count := { w with outstanding := w.outstanding.tail }

/-- An event of a session whose `write` is the first argument. -/
def step (write : Option (List UInt8) → Writer count → Bool × Writer count) (w : Writer count) :
    WriteEvent → Writer count
  | .write data => (write data w).2
  | .complete => w.complete

/-- Every outstanding write has the bytes that were passed in its slot. -/
def Intact (w : Writer count) : Prop := ∀ u ∈ w.outstanding, (w.buffer.data u.1).take u.2.length = u.2

/-- A write that is accepted agrees, as far as both go, with every outstanding
write that was made a multiple of `count` writes before. -/
def Agrees (w : Writer count) (e : WriteEvent) : Prop :=
  ∀ data, e = .write (some data) → data.length ≤ maxMessageLength →
    ∀ j u, w.outstanding[j]? = some u → count ∣ w.outstanding.length - j → Agree u.2 data

instance (w : Writer count) : Decidable w.Intact := inferInstanceAs (Decidable (∀ u ∈ w.outstanding, _))

/-- An open session with nothing outstanding. -/
def start (buffer : SessionBuffer count maxMessageLength) : Writer count where
  buffer := buffer

end Writer

/-! ## The slots as a ring -/

/-- The slots and the outstanding writes, where `next` is the slot of the next write. -/
def Writer.ring (next : SessionBuffer count maxMessageLength → Nat) (w : Writer count) : SlotRing UInt8 where
  slots := w.buffer.data
  outstanding := w.outstanding
  next := next w.buffer

/-- A `write` copies into the slot `next`, if it accepts the bytes. -/
structure UsesRing (write : Option (List UInt8) → Writer count → Bool × Writer count)
    (next : SessionBuffer count maxMessageLength → Nat) : Prop where
  next_lt (b : SessionBuffer count maxMessageLength) : next b < count
  rejected (w : Writer count) : write none w = (false, w)
  tooLong (data : List UInt8) (w : Writer count) : maxMessageLength < data.length →
    write (some data) w = (false, w)
  accepted (data : List UInt8) (w : Writer count) : data.length ≤ maxMessageLength → w.connected = true →
    (write (some data) w).1 = true ∧ (write (some data) w).2.connected = true ∧
      (write (some data) w).2.ring next = (w.ring next).push count data

theorem P2pSession.usesRing : UsesRing (@P2pSession.write count) SessionBuffer.currentPos where
  next_lt b := b.currentPos_lt
  rejected _ := rfl
  tooLong data w h := by
    unfold P2pSession.write
    exact dif_pos h
  accepted data w h hc := by
    unfold P2pSession.write
    dsimp only
    rw [dif_neg (Nat.not_lt.mpr h)]
    exact ⟨rfl, hc, rfl⟩

theorem P2pClient.usesRing : UsesRing (@P2pClient.write count) fun b => (b.currentPos + 1) % count where
  next_lt b := Nat.mod_lt _ (Nat.zero_lt_of_lt b.currentPos_lt)
  rejected _ := rfl
  tooLong data w h := by
    unfold P2pClient.write
    exact dif_pos h
  accepted data w h hc := by
    unfold P2pClient.write
    dsimp only
    rw [dif_neg (Nat.not_lt.mpr h), if_neg (by simp [hc])]
    exact ⟨rfl, hc, rfl⟩

namespace UsesRing

variable {write : Option (List UInt8) → Writer count → Bool × Writer count}
  {next : SessionBuffer count maxMessageLength → Nat} {w : Writer count}

/-- What holds of an open session after every event. -/
structure Inv (next : SessionBuffer count maxMessageLength → Nat) (w : Writer count) : Prop where
  connected : w.connected = true
  ring : (w.ring next).Inv count

theorem Inv.step (hr : UsesRing write next) (h : Inv next w) (e : WriteEvent) : Inv next (w.step write e) := by
  cases e with
  | complete => exact ⟨h.connected, h.ring.complete⟩
  | write data =>
    cases data with
    | none =>
      show Inv next (write none w).2
      rw [hr.rejected]
      exact h
    | some data =>
      show Inv next (write (some data) w).2
      rcases Nat.lt_or_ge maxMessageLength data.length with hd | hd
      · rw [hr.tooLong data w hd]
        exact h
      · obtain ⟨-, hc, hp⟩ := hr.accepted data w hd h.connected
        refine ⟨hc, ?_⟩
        rw [hp]
        exact h.ring.push data

theorem intact_iff (next : SessionBuffer count maxMessageLength → Nat) : w.Intact ↔ (w.ring next).Intact := Iff.rfl

/-- An event leaves all outstanding writes intact exactly if what it writes
agrees with those whose slot it may reuse. -/
theorem intact_step_iff (hr : UsesRing write next) (hi : Inv next w) (h : w.Intact) (e : WriteEvent) :
    (w.step write e).Intact ↔ w.Agrees e := by
  cases e with
  | complete => exact iff_of_true (SlotRing.Intact.complete (r := w.ring next) h) fun _ he => by cases he
  | write data =>
    cases data with
    | none =>
      refine iff_of_true ?_ fun _ he => by cases he
      show (write none w).2.Intact
      rw [hr.rejected]
      exact h
    | some data =>
      show (write (some data) w).2.Intact ↔ _
      rcases Nat.lt_or_ge maxMessageLength data.length with hd | hd
      · rw [hr.tooLong data w hd]
        refine iff_of_true h fun _ he hd' => ?_
        cases he
        exact absurd hd (Nat.not_lt.mpr hd')
      · rw [intact_iff next, (hr.accepted data w hd hi.connected).2.2, SlotRing.intact_push_iff hi.ring h]
        refine ⟨fun ha _ he _ => ?_, fun ha => ha data rfl hd⟩
        cases he
        exact ha

theorem Inv.start (hr : UsesRing write next) (b : SessionBuffer count maxMessageLength) :
    Inv next (.start b) where
  connected := rfl
  ring := ⟨hr.next_lt b, fun _ hu => absurd hu List.not_mem_nil, fun j u hu => by cases hu⟩

theorem run_iff (hr : UsesRing write next) (b : SessionBuffer count maxMessageLength) (es : List WriteEvent) :
    Along (Writer.step write) (fun w e => (w.step write e).Intact) (.start b) es ↔
      Along (Writer.step write) Writer.Agrees (.start b) es :=
  along_iff_of_inv (I := fun w => Inv next w ∧ w.Intact) (fun _ e h => hr.intact_step_iff h.1 h.2 e)
    (fun _ e h he => ⟨h.1.step hr e, (hr.intact_step_iff h.1 h.2 e).mpr he⟩)
    ⟨.start hr b, fun _ hu => absurd hu List.not_mem_nil⟩

end UsesRing

/-- In a run of an open session, and of a connected client, the bytes of every
outstanding write stay in its slot, exactly if every write that is accepted
agrees with those outstanding that were made a multiple of 16, and 8, writes
before. -/
theorem writes_iff (b : SessionBuffer 16 maxMessageLength) (b' : SessionBuffer 8 maxMessageLength)
    (es : List WriteEvent) :
    (Along (Writer.step P2pSession.write) (fun w e => (w.step P2pSession.write e).Intact) (.start b) es ↔
      Along (Writer.step P2pSession.write) Writer.Agrees (.start b) es) ∧
    (Along (Writer.step P2pClient.write) (fun w e => (w.step P2pClient.write e).Intact) (.start b') es ↔
      Along (Writer.step P2pClient.write) Writer.Agrees (.start b') es) :=
  ⟨P2pSession.usesRing.run_iff b es, P2pClient.usesRing.run_iff b' es⟩

/-- The 17th write of a session, and the 9th of a client, of one byte each, put
their byte in the slot of the first. -/
theorem writes_reuse :
    let es (k : Nat) : List WriteEvent := (List.range k).map fun i => .write (some [UInt8.ofNat i])
    let w := run (Writer.step P2pSession.write) (.start (.zeros (Nat.zero_lt_succ 15))) (es 17)
    let w' := run (Writer.step P2pClient.write) (.start (.zeros (Nat.zero_lt_succ 7))) (es 9)
    w.outstanding[0]? = some (0, [0]) ∧ (w.buffer.data 0).take 1 = [16] ∧ ¬ w.Intact ∧
      w'.outstanding[0]? = some (1, [0]) ∧ (w'.buffer.data 1).take 1 = [8] ∧ ¬ w'.Intact := by
  decide +kernel

/-- So it is where the writes that are outstanding are fewer than the slots. -/
theorem Writer.agrees_of_length_lt {w : Writer count} (h : w.outstanding.length < count) (e : WriteEvent) :
    w.Agrees e :=
  fun data _ _ => show (w.ring fun _ => 0).Agrees count data from SlotRing.agrees_of_length_lt h

end Bryllite.P2p
