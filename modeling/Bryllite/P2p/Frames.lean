import Bryllite.P2p.Read
import Bryllite.P2p.Write

/-!
# Message framing

A reader that has passed messages on is at the header behind them, or at the
rest of a message whose header is valid, or closed (`Reading`). So what it has
passed on are frames from the beginning of the stream, and when no read can
complete they are all there are before the first header that is not valid,
where the reader has closed (`framing_exact`).
-/

namespace Bryllite.P2p

open Bryllite.Framework

variable {count : Nat} {t : Target} {err : Prop} {r : Reader count} {hs : ReadHandlers count}

/-- A whole header has arrived, and it is not valid. -/
def Target.BadHeader (t : Target) (s : List UInt8) : Prop := t.sizeofMessage ≤ s.length ∧ t.valid s = false

instance (t : Target) (s : List UInt8) : Decidable (t.BadHeader s) := inferInstanceAs (Decidable (_ ∧ _))

theorem Target.BadHeader.append {s : List UInt8} (h : t.BadHeader s) (s' : List UInt8) : t.BadHeader (s ++ s') := by
  refine ⟨?_, ?_⟩
  · rw [List.length_append]
    exact Nat.le_add_right_of_le h.1
  · rw [← valid_take, List.take_append_of_le_length h.1, valid_take]
    exact h.2

/-- What has arrived behind the messages that were passed on. -/
def Reader.rest (r : Reader count) : List UInt8 := r.arrived.drop r.received.flatten.length

/-- What a reader is at. It is closed because of a header that is not valid,
unless reads may have failed, `err`. -/
inductive Reading (t : Target) (err : Prop) (r : Reader count) : Prop
  | header (hc : r.connected = true) (ho : r.op = some (.ofHeader t r.buffer.get))
      (ht : r.arrived.take r.taken = r.received.flatten)
  | body (header : List UInt8) (hh : r.buffer.data r.buffer.get = header) (hc : r.connected = true)
      (ho : r.op = some (.ofBody t r.buffer.get header)) (hv : t.valid header)
      (ht : r.arrived.take r.taken = r.received.flatten ++ header.take t.sizeofMessage)
  | closed (hc : r.connected = false) (ho : r.op = none) (h : err ∨ t.BadHeader r.rest)

/-- What holds of an open connection after every event. -/
structure Reader.Inv (t : Target) (err : Prop) (r : Reader count) : Prop where
  begins : t.framing.Begins r.arrived r.received
  taken_le : r.taken ≤ r.arrived.length
  reading : Reading t err r

/-! ## One event -/

theorem transfer_ofHeader (t : Target) (slot : Nat) : (ReadOp.ofHeader t slot).transfer = t.sizeofMessage :=
  Nat.min_eq_left t.sizeofMessage_le

theorem transfer_ofBody {header : List UInt8} (hv : t.valid header) (slot : Nat) :
    (ReadOp.ofBody t slot header).transfer = t.payloadSize header := by
  have h := Target.sizeofMessage_add_payloadSize hv
  have hle := Target.size_le hv
  apply Nat.min_eq_left
  show t.payloadSize header ≤ maxMessageLength - t.sizeofMessage
  omega

namespace Reader

/-- The reader `r'` is `r` with the bytes of a read in their slot. -/
structure Transferred (op : ReadOp) (r r' : Reader count) : Prop where
  get : r'.buffer.get = r.buffer.get
  connected : r'.connected = r.connected
  arrived : r'.arrived = r.arrived
  received : r'.received = r.received
  idle : r'.op = none
  taken_le : r'.taken ≤ r.arrived.length
  take_taken : r.arrived.take r'.taken = r.arrived.take r.taken ++ r.unread.take op.transfer
  data : r'.buffer.data op.slot = patch (r.buffer.data op.slot) op.off (r.unread.take op.transfer)

theorem transferred {op : ReadOp} (h : op.transfer ≤ r.unread.length) (hle : r.taken ≤ r.arrived.length) :
    Transferred op r (r.transfer op h) where
  get := rfl
  connected := rfl
  arrived := rfl
  received := rfl
  idle := rfl
  taken_le := by
    rw [unread, List.length_drop] at h
    show r.taken + op.transfer ≤ r.arrived.length
    omega
  take_taken := List.take_add ..
  data := Function.update_self ..

theorem Transferred.begins {op : ReadOp} {r' : Reader count} (h : Transferred op r r')
    (hb : t.framing.Begins r.arrived r.received) : t.framing.Begins r'.arrived r'.received := by
  rwa [h.arrived, h.received]

/-- The rest of a message leaves its header as it is. -/
theorem Transferred.take_data {slot : Nat} {header : List UInt8} {r' : Reader count}
    (h : Transferred (.ofBody t slot header) r r') :
    (r'.buffer.data slot).take t.sizeofMessage = (r.buffer.data slot).take t.sizeofMessage := by
  have hoff : t.sizeofMessage ≤ (r.buffer.data slot).length := by
    rw [r.buffer.length_data]
    exact Nat.le_succ_of_le t.sizeofMessage_le
  exact (congrArg _ h.data).trans (take_patch_left hoff)

/-- What has arrived, as far as it was transferred and beyond. -/
theorem rest_eq_unread (h : r.taken ≤ r.arrived.length) (ht : r.arrived.take r.taken = r.received.flatten) :
    r.rest = r.unread := by
  rw [rest, ← ht, List.length_take_of_le h, unread]

theorem received_append_rest (h : t.framing.Begins r.arrived r.received) :
    r.received.flatten ++ r.rest = r.arrived := by
  obtain ⟨s, hs⟩ := h.isPrefix
  rw [rest, ← hs, List.drop_left]

namespace Inv

/-- More bytes arrive. -/
theorem arrive (h : r.Inv t err) (bs : List UInt8) : Inv t err { r with arrived := r.arrived ++ bs } where
  begins := h.begins.append bs
  taken_le := by
    rw [List.length_append]
    exact Nat.le_add_right_of_le h.taken_le
  reading := by
    have htake : (r.arrived ++ bs).take r.taken = r.arrived.take r.taken :=
      List.take_append_of_le_length h.taken_le
    cases h.reading with
    | header hc ho ht => exact .header hc ho (htake.trans ht)
    | body header hh hc ho hv ht => exact .body header hh hc ho hv (htake.trans ht)
    | closed hc ho hb =>
      refine .closed hc ho (hb.imp_right fun hb => ?_)
      show t.BadHeader ((r.arrived ++ bs).drop r.received.flatten.length)
      rw [List.drop_append_of_le_length h.begins.isPrefix.length_le]
      exact hb.append bs

/-- A read of a header completes. -/
theorem header (hr : Receives t hs) (h : r.Inv t err) (hc : r.connected = true)
    (ht : r.arrived.take r.taken = r.received.flatten) (hu : t.sizeofMessage ≤ r.unread.length)
    {r' : Reader count} (h' : Transferred (.ofHeader t r.buffer.get) r r') (n : Nat) (hn : n ≤ maxMessageLength)
    (he : n = t.sizeofMessage) : Inv t err (hs.header false n hn r') ∧ (hs.header false n hn r').arrived = r.arrived := by
  have htake := h'.take_taken
  rw [ht, transfer_ofHeader] at htake
  -- The header is in the slot.
  have hdata : (r'.buffer.data r'.buffer.get).take t.sizeofMessage = r.unread.take t.sizeofMessage := by
    have htp : (patch (r.buffer.data r.buffer.get) 0 (r.unread.take t.sizeofMessage)).take _ = _ :=
      take_patch (Nat.zero_le _)
    rw [Nat.zero_add, List.length_take_of_le hu, List.take_zero, List.nil_append] at htp
    have hd := h'.data
    rw [transfer_ofHeader] at hd
    rw [h'.get, ← htp]
    exact congrArg _ hd
  have hb := h'.begins h.begins
  have hle : r'.taken ≤ r'.arrived.length := h'.arrived ▸ h'.taken_le
  rw [hr.header _ n hn he]
  split
  · rename_i hv
    refine ⟨⟨hb, hle, .body _ rfl (h'.connected.trans hc) rfl hv ?_⟩, h'.arrived⟩
    show r'.arrived.take r'.taken = r'.received.flatten ++ _
    rw [hdata, h'.arrived, h'.received]
    exact htake
  · rename_i hv
    refine ⟨⟨hb, hle, .closed rfl h'.idle (.inr ?_)⟩, h'.arrived⟩
    show t.BadHeader (r'.arrived.drop r'.received.flatten.length)
    rw [h'.arrived, h'.received, ← rest, rest_eq_unread h.taken_le ht]
    refine ⟨hu, ?_⟩
    rw [← Target.valid_take, ← hdata, Target.valid_take]
    exact Bool.eq_false_iff.mpr hv

/-- A read of the rest of a message completes. -/
theorem body (hr : Receives t hs) (h : r.Inv t err) {header : List UInt8} (hh : r.buffer.data r.buffer.get = header)
    (hc : r.connected = true) (hv : t.valid header)
    (ht : r.arrived.take r.taken = r.received.flatten ++ header.take t.sizeofMessage)
    (hu : t.payloadSize header ≤ r.unread.length) {r' : Reader count}
    (h' : Transferred (.ofBody t r.buffer.get header) r r') (n : Nat) (he : n = t.payloadSize header) :
    Inv t err (hs.body false n r.buffer.get r') ∧ (hs.body false n r.buffer.get r').arrived = r.arrived := by
  have hhead := h'.take_data
  have htake := h'.take_taken
  have hdata := h'.data
  rw [transfer_ofBody hv] at htake hdata
  rw [hh] at hhead
  have hoff : t.sizeofMessage ≤ (r.buffer.data r.buffer.get).length := by
    rw [r.buffer.length_data]
    exact Nat.le_succ_of_le t.sizeofMessage_le
  -- The slot holds the message, with its header and the bytes behind it.
  let m : Message t := {
    mem := r'.buffer.data r.buffer.get
    valid := (Target.valid_congr hhead).trans hv
    size_le := by
      rw [Target.size_congr hhead, r'.buffer.length_data]
      exact Nat.le_succ_of_le (Target.size_le hv) }
  have hm : m.bytes = header.take t.sizeofMessage ++ r.unread.take (t.payloadSize header) := by
    have hsize : t.size m.mem = t.sizeofMessage + (r.unread.take (t.payloadSize header)).length := by
      rw [Target.size_congr hhead, List.length_take_of_le hu, Target.sizeofMessage_add_payloadSize hv]
    rw [Message.bytes, hsize, ← hh, ← take_patch hoff]
    exact congrArg _ (hh.symm ▸ hdata)
  have hall : r'.arrived.take r'.taken = (r'.received ++ [m.bytes]).flatten := by
    rw [List.flatten_concat, hm, h'.arrived, h'.received, htake, ht, List.append_assoc]
  have hb : t.framing.Begins r'.arrived (r'.received ++ [m.bytes]) := by
    apply (h'.begins h.begins).snoc m.isFrame
    rw [← List.flatten_concat, ← hall]
    exact List.take_prefix _ _
  rw [he, ← Target.payloadSize_congr hhead, hr.body _ _ (h'.connected.trans hc) m.valid]
  exact ⟨⟨hb, h'.arrived ▸ h'.taken_le, .header (h'.connected.trans hc) rfl hall⟩, h'.arrived⟩

end Inv

end Reader

/-- Every event keeps the invariant, and only arrivals add to the stream. -/
theorem ReadHandlers.inv_step (hr : Receives t hs) (h : r.Inv t err) (e : ReadEvent) (he : e = .error → err) :
    (hs.step r e).Inv t err ∧ (hs.step r e).arrived = r.arrived ++ e.bytes := by
  cases e with
  | arrive bs => exact ⟨h.arrive bs, rfl⟩
  | complete =>
    show _ ∧ _ = r.arrived ++ []
    rw [List.append_nil]
    cases h.reading with
    | header hc ho ht =>
      have hlen := transfer_ofHeader t r.buffer.get
      rcases Nat.lt_or_ge r.unread.length (ReadOp.transfer _) with hu | hu
      · rw [step_waiting ho hu]
        exact ⟨h, rfl⟩
      · rw [step_complete ho hu]
        exact h.header hr hc ht (hlen ▸ hu) (Reader.transferred hu h.taken_le) _ _ hlen
    | body header hh hc ho hv ht =>
      have hlen := transfer_ofBody hv r.buffer.get
      rcases Nat.lt_or_ge r.unread.length (ReadOp.transfer _) with hu | hu
      · rw [step_waiting ho hu]
        exact ⟨h, rfl⟩
      · rw [step_complete ho hu]
        exact h.body hr hh hc hv ht (hlen ▸ hu) (Reader.transferred hu h.taken_le) _ hlen
    | closed hc ho hb =>
      rw [(step_of_none ho).1]
      exact ⟨h, rfl⟩
  | error =>
    show _ ∧ _ = r.arrived ++ []
    rw [List.append_nil]
    rcases ho : r.op with _ | op
    · rw [(step_of_none ho).2]
      exact ⟨h, rfl⟩
    · rw [step_error ho, hr.error]
      exact ⟨⟨h.begins, h.taken_le, .closed rfl rfl (.inl (he rfl))⟩, rfl⟩

/-- A connection that has just been opened. -/
theorem ReadHandlers.inv_opened (hr : Receives t hs) (b : SessionBuffer count maxMessageLength) :
    (hs.opened b).Inv t err ∧ (hs.opened b).arrived = [] := by
  unfold opened
  rw [hr.start _ rfl]
  exact ⟨⟨⟨fun _ hm => absurd hm List.not_mem_nil, List.prefix_rfl⟩, Nat.zero_le _, .header rfl rfl rfl⟩, rfl⟩

theorem ReadHandlers.inv_run (hr : Receives t hs) (h : r.Inv t err) {es : List ReadEvent} (he : .error ∈ es → err) :
    (run hs.step r es).Inv t err ∧ (run hs.step r es).arrived = r.arrived ++ stream es := by
  induction es generalizing r with
  | nil => exact ⟨h, (List.append_nil _).symm⟩
  | cons e es ih =>
    obtain ⟨hi, ha⟩ := inv_step hr h e fun hee => he (hee ▸ List.mem_cons_self)
    obtain ⟨hi', ha'⟩ := ih hi fun hm => he (List.mem_cons_of_mem _ hm)
    refine ⟨hi', ?_⟩
    rw [run_cons, ha', ha, List.append_assoc]
    rfl

/-! ## Until no read can complete -/

/-- No read can complete. -/
def Reader.Idle (r : Reader count) : Prop := ∀ op, r.op = some op → r.unread.length < op.transfer

/-- Twice the bytes that were not transferred, and one for a header that was. -/
def Reader.pending (r : Reader count) : Nat :=
  2 * r.unread.length + if r.op.any (·.handler = .body) then 1 else 0

namespace Reader

theorem length_unread_transfer {op : ReadOp} (h : op.transfer ≤ r.unread.length) :
    (r.transfer op h).unread.length = r.unread.length - op.transfer := by
  show (r.arrived.drop (r.taken + op.transfer)).length = (r.arrived.drop r.taken).length - op.transfer
  rw [List.length_drop, List.length_drop, Nat.sub_add_eq]

theorem pending_header (hr : Receives t hs) (n : Nat) (hn : n ≤ maxMessageLength) (he : n = t.sizeofMessage) :
    (hs.header false n hn r).pending ≤ 2 * r.unread.length + 1 := by
  rw [hr.header r n hn he]
  split
  · exact Nat.le_refl _
  · exact Nat.add_le_add_left (by split <;> omega) _

theorem pending_body (hr : Receives t hs) (slot : Nat) (hc : r.connected = true) (hv : t.valid (r.buffer.data slot)) :
    (hs.body false (t.payloadSize (r.buffer.data slot)) slot r).pending = 2 * r.unread.length := by
  rw [hr.body r slot hc hv]
  rfl

theorem step_of_idle (h : r.Idle) : hs.step r .complete = r := by
  rcases ho : r.op with _ | op
  · exact (ReadHandlers.step_of_none ho).1
  · exact ReadHandlers.step_waiting ho (h op ho)

/-- A read that completes leaves less to do. -/
theorem pending_step (hr : Receives t hs) (h : r.Inv t err) (hi : ¬ r.Idle) :
    (hs.step r .complete).pending < r.pending := by
  have hpos := t.sizeofMessage_pos
  cases h.reading with
  | header hc ho ht =>
    have hlen := transfer_ofHeader t r.buffer.get
    rcases Nat.lt_or_ge r.unread.length (ReadOp.transfer _) with hu | hu
    · exact absurd (fun op hop => by rwa [← Option.some.inj (ho.symm.trans hop)]) hi
    · have hp := pending_header (r := r.transfer _ hu) hr _
        (Nat.le_trans (Nat.le_add_left _ _) (ReadOp.off_add_transfer_le _)) hlen
      rw [length_unread_transfer hu] at hp
      rw [ReadHandlers.step_complete ho hu]
      apply Nat.lt_of_le_of_lt hp
      unfold pending
      omega
  | body header hh hc ho hv ht =>
    have hlen := transfer_ofBody hv r.buffer.get
    rcases Nat.lt_or_ge r.unread.length (ReadOp.transfer _) with hu | hu
    · exact absurd (fun op hop => by rwa [← Option.some.inj (ho.symm.trans hop)]) hi
    · have h' := transferred hu h.taken_le
      have hhead := h'.take_data
      rw [hh] at hhead
      have hp := pending_body (r := r.transfer _ hu) hr r.buffer.get hc ((Target.valid_congr hhead).trans hv)
      rw [Target.payloadSize_congr hhead, length_unread_transfer hu] at hp
      rw [ReadHandlers.step_complete ho hu]
      show (hs.body false (ReadOp.transfer _) r.buffer.get _).pending < _
      rw [hlen, hp]
      unfold pending
      rw [ho]
      show 2 * (r.unread.length - _) < 2 * r.unread.length + 1
      omega
  | closed hc ho hb => exact absurd (fun op hop => by rw [ho] at hop; cases hop) hi

/-- After enough completions no read can complete. -/
theorem idle_run (hr : Receives t hs) (h : r.Inv t err) {n : Nat} (hn : r.pending < n ∨ r.Idle) :
    (run hs.step r (List.replicate n .complete)).Idle := by
  induction n generalizing r with
  | zero => exact hn.resolve_left (Nat.not_lt_zero _)
  | succ n ih =>
    rw [List.replicate_succ, run_cons]
    apply ih (ReadHandlers.inv_step hr h .complete fun he => by cases he).1
    by_cases hi : r.Idle
    · rw [step_of_idle hi]
      exact .inr hi
    · have := pending_step hr h hi
      have := hn.resolve_right hi
      exact .inl (by omega)

/-- Where no read can complete, the messages passed on are all that there are,
and the reader has closed exactly if a header behind them is not valid. -/
theorem Inv.idle (h : r.Inv t False) (hi : r.Idle) :
    t.framing.Longest r.arrived r.received ∧ (r.connected = false ↔ t.BadHeader r.rest) := by
  have harr := received_append_rest h.begins
  cases h.reading with
  | header hc ho ht =>
    have hlt : r.rest.length < t.sizeofMessage := by
      rw [rest_eq_unread h.taken_le ht, ← transfer_ofHeader t r.buffer.get]
      exact hi _ ho
    refine ⟨?_, iff_of_false (by rw [hc]; exact Bool.noConfusion) fun hb => absurd hb.1 (Nat.not_le.mpr hlt)⟩
    rw [← harr]
    exact Framing.longest_of_stuck h.begins.isFrame (Framing.stuck_of_length_lt hlt)
  | body header hh hc ho hv ht =>
    have hrest : r.rest = header.take t.sizeofMessage ++ r.unread := by
      apply (List.append_right_inj r.received.flatten).mp
      rw [harr, ← List.append_assoc, ← ht]
      exact (List.take_append_drop ..).symm
    have hmem : (header.take t.sizeofMessage).length = t.sizeofMessage := by
      apply List.length_take_of_le
      rw [← hh, r.buffer.length_data]
      exact Nat.le_succ_of_le t.sizeofMessage_le
    have hhead : r.rest.take t.sizeofMessage = header.take t.sizeofMessage := by rw [hrest, List.take_left' hmem]
    have hv' : t.valid r.rest = true := (Target.valid_congr hhead).trans hv
    have hlt : r.rest.length < t.size r.rest := by
      have hu := hi _ ho
      rw [transfer_ofBody hv] at hu
      rw [Target.size_congr hhead, ← Target.sizeofMessage_add_payloadSize hv, hrest, List.length_append, hmem]
      omega
    refine ⟨?_, iff_of_false (by rw [hc]; exact Bool.noConfusion) fun hb => absurd (hv'.symm.trans hb.2) Bool.noConfusion⟩
    rw [← harr]
    exact Framing.longest_of_stuck h.begins.isFrame
      (Framing.stuck_of_lt_size (Target.framing_size_of_valid hv') hlt)
  | closed hc ho hb =>
    have hb := hb.resolve_left id
    refine ⟨?_, iff_of_true hc hb⟩
    rw [← harr]
    exact Framing.longest_of_stuck h.begins.isFrame
      (Framing.stuck_of_size_none (Target.framing_size_of_not_valid hb.2))

end Reader

/-! ## The sender -/

/-- The bytes of the outstanding writes, in order. -/
def Writer.passed (w : Writer count) : List UInt8 := (w.outstanding.map Prod.snd).flatten

/-- The client after it was asked to write messages. -/
def P2pClient.writeMessages (t : Target) (w : Writer count) (ms : List (Message t)) : Writer count :=
  ms.foldl (fun w m => (writeMessage t (some m.mem) w).2) w

/-- The message is accepted, and its bytes are the next that are sent. -/
theorem P2pClient.writeMessage_of_connected (m : Message t) {w : Writer count} (hc : w.connected = true) :
    (writeMessage t (some m.mem) w).1 = true ∧ (writeMessage t (some m.mem) w).2.connected = true ∧
      (writeMessage t (some m.mem) w).2.passed = w.passed ++ m.bytes := by
  have hw : writeMessage t (some m.mem) w = write (some m.bytes) w := if_neg (by rw [m.valid]; exact Bool.false_ne_true)
  have hle : m.bytes.length ≤ maxMessageLength := by
    rw [m.length_bytes]
    exact Target.size_le m.valid
  obtain ⟨h1, h2, h3⟩ := usesRing.accepted m.bytes w hle hc
  rw [hw]
  refine ⟨h1, h2, ?_⟩
  have ho : (write (some m.bytes) w).2.outstanding = w.outstanding ++ [((w.buffer.currentPos + 1) % count, m.bytes)] :=
    congrArg SlotRing.outstanding h3
  rw [Writer.passed, ho, List.map_append, List.flatten_append, List.map_singleton, List.flatten_singleton]
  rfl

theorem P2pClient.passed_writeMessages (ms : List (Message t)) {w : Writer count} (hc : w.connected = true) :
    (writeMessages t w ms).passed = w.passed ++ (ms.map Message.bytes).flatten := by
  induction ms generalizing w with
  | nil => exact (List.append_nil _).symm
  | cons m ms ih =>
    obtain ⟨-, hc', hp⟩ := writeMessage_of_connected m hc
    rw [List.map_cons, List.flatten_cons, ← List.append_assoc, ← hp]
    exact ih hc'

/-! ## The stream -/

/-- A connection after the events, and then so many completions that no read is
left that can complete. -/
def ReadHandlers.settled (hs : ReadHandlers count) (b : SessionBuffer count maxMessageLength) (es : List ReadEvent)
    (k : Nat) : Reader count :=
  run hs.step (hs.opened b) (es ++ List.replicate (2 * (stream es).length + 2 + k) .complete)

/-- Reads are exact. At any moment the messages passed on are frames from the
beginning of the stream, and a read has room for what it transfers; a reader
without errors is only closed where the header behind these messages is not
valid, and it passes on all frames there are before such a header. -/
structure ReadsExactly (t : Target) (hs : ReadHandlers count) (b : SessionBuffer count maxMessageLength)
    (es : List ReadEvent) : Prop where
  begins : t.framing.Begins (stream es) (run hs.step (hs.opened b) es).received
  inBounds (op : ReadOp) : (run hs.step (hs.opened b) es).op = some op →
    op.exactly ≤ op.max ∧ op.off + op.max ≤ maxMessageLength
  bad_of_closed : .error ∉ es → (run hs.step (hs.opened b) es).connected = false →
    t.BadHeader ((stream es).drop (run hs.step (hs.opened b) es).received.flatten.length)
  settled (k : Nat) : .error ∉ es → t.framing.Longest (stream es) (hs.settled b es k).received ∧
    ((hs.settled b es k).connected = false ↔
      t.BadHeader ((stream es).drop (hs.settled b es k).received.flatten.length))

theorem stream_append_completes (es : List ReadEvent) (n : Nat) :
    stream (es ++ List.replicate n .complete) = stream es := by
  rw [stream, List.flatMap_append, List.flatMap_replicate]
  show stream es ++ (List.replicate n []).flatten = stream es
  rw [List.flatten_replicate_nil, List.append_nil]

theorem error_mem_append_completes {es : List ReadEvent} {n : Nat} :
    .error ∈ es ++ List.replicate n .complete ↔ .error ∈ es := by
  rw [List.mem_append]
  exact or_iff_left fun h => by cases List.eq_of_mem_replicate h

/-- The invariant of a connection, and what has arrived. -/
theorem Receives.inv_opened_run (hr : Receives t hs) (b : SessionBuffer count maxMessageLength) {es : List ReadEvent}
    (he : .error ∈ es → err) :
    (run hs.step (hs.opened b) es).Inv t err ∧ (run hs.step (hs.opened b) es).arrived = stream es := by
  obtain ⟨hi, ha⟩ : (hs.opened b).Inv t err ∧ (hs.opened b).arrived = [] := ReadHandlers.inv_opened hr b
  obtain ⟨hi', ha'⟩ := ReadHandlers.inv_run hr hi he
  refine ⟨hi', ?_⟩
  rw [ha', ha, List.nil_append]

theorem Receives.readsExactly (hr : Receives t hs) (b : SessionBuffer count maxMessageLength) (es : List ReadEvent) :
    ReadsExactly t hs b es where
  begins := by
    obtain ⟨hi, ha⟩ : Reader.Inv t True _ ∧ _ := hr.inv_opened_run b fun _ => trivial
    rw [← ha]
    exact hi.begins
  inBounds op ho := by
    obtain ⟨hi, -⟩ : Reader.Inv t True _ ∧ _ := hr.inv_opened_run b fun _ => trivial
    refine ⟨?_, op.fits⟩
    cases hi.reading with
    | header hc ho' ht =>
      rw [← Option.some.inj (ho'.symm.trans ho)]
      exact t.sizeofMessage_le
    | body header hh hc ho' hv ht =>
      have hs := Target.sizeofMessage_add_payloadSize hv
      have hle := Target.size_le hv
      rw [← Option.some.inj (ho'.symm.trans ho)]
      show t.payloadSize header ≤ maxMessageLength - t.sizeofMessage
      omega
    | closed hc ho' hb =>
      rw [ho'] at ho
      cases ho
  bad_of_closed he hc := by
    obtain ⟨hi, ha⟩ := hr.inv_opened_run b he
    rw [← ha]
    cases hi.reading with
    | header hc' => exact absurd (hc'.symm.trans hc) Bool.noConfusion
    | body _ _ hc' => exact absurd (hc'.symm.trans hc) Bool.noConfusion
    | closed _ _ hb => exact hb.resolve_left id
  settled k he := by
    obtain ⟨hi, ha⟩ := hr.inv_opened_run b he
    -- What is pending is bounded by the stream.
    have hpending : (run hs.step (hs.opened b) es).pending < 2 * (stream es).length + 2 + k := by
      rw [← ha, Reader.pending, Reader.unread, List.length_drop]
      split <;> omega
    have hidle := Reader.idle_run hr hi (.inl hpending)
    have hrun : run hs.step (run hs.step (hs.opened b) es) (List.replicate _ .complete) = hs.settled b es k :=
      List.foldl_append.symm
    rw [hrun] at hidle
    obtain ⟨hi', ha'⟩ := hr.inv_opened_run b (mt error_mem_append_completes.mp he)
    rw [stream_append_completes] at ha'
    rw [← ha']
    exact Reader.Inv.idle hi' hidle

/-- On every stream the client and the server pass on exactly the longest
sequence of frames with valid headers, the same one, and close at the first
header that is not valid. So the messages that a client writes are received as
they are. -/
theorem framing_exact (t : Target) (b : SessionBuffer 16 maxMessageLength) (b' : SessionBuffer 32 maxMessageLength)
    (es : List ReadEvent) :
    ReadsExactly t (P2pClient.handlers t) b es ∧ ReadsExactly t (P2pServer.handlers t) b' es ∧
    (.error ∉ es → ∀ es' k k', .error ∉ es' → stream es' = stream es →
      ((P2pServer.handlers t).settled b' es' k').received = ((P2pClient.handlers t).settled b es k).received) ∧
    (.error ∉ es → ∀ (w : SessionBuffer 8 maxMessageLength) (ms : List (Message t)) k,
      stream es = (P2pClient.writeMessages t (.start w) ms).passed →
        ((P2pClient.handlers t).settled b es k).received = ms.map Message.bytes ∧
        ((P2pServer.handlers t).settled b' es k).received = ms.map Message.bytes) := by
  have hc := (P2pClient.receives t).readsExactly b
  have hs := (P2pServer.receives t).readsExactly b'
  refine ⟨hc es, hs es, fun he es' k k' he' hstream => ?_, fun he w ms k hstream => ?_⟩
  · have hl := ((hs es').settled k' he').1
    rw [hstream] at hl
    exact hl.eq ((hc es).settled k he).1
  · have hl : t.framing.Longest (stream es) (ms.map Message.bytes) := by
      rw [hstream, P2pClient.passed_writeMessages ms rfl]
      apply Framing.longest_flatten
      intro m hm
      obtain ⟨m, -, rfl⟩ := List.mem_map.mp hm
      exact m.isFrame
    exact ⟨((hc es).settled k he).1.eq hl, ((hs es).settled k he).1.eq hl⟩

/-- A message of one byte, in two parts. -/
theorem framing_exact_sample :
    let m : Message .x64 := ⟨[66, 82, 67, 0, 15, 0, 0, 0, 0, 0, 0, 0, 1, 0, 7], by decide, by decide⟩
    let es : List ReadEvent := [.arrive [66, 82], .complete, .arrive [67, 0, 15, 0, 0, 0, 0, 0, 0, 0, 1, 0, 7]]
    ((P2pClient.handlers .x64).settled (.zeros (Nat.zero_lt_succ 15)) es 0).received = [m.bytes] ∧
    ((P2pServer.handlers .x64).settled (.zeros (Nat.zero_lt_succ 31)) es 0).received = [m.bytes] := by
  intro m es
  let w : SessionBuffer 8 maxMessageLength := .zeros (Nat.zero_lt_succ 7)
  have hw := P2pClient.passed_writeMessages [m] (w := .start w) rfl
  exact (framing_exact .x64 (.zeros _) (.zeros _) es).2.2.2 (by decide) w [m] 0 hw.symm

end Bryllite.P2p
