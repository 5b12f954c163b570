import Bryllite.P2p.Dispatch
import Bryllite.P2p.Frames

/-!
# What is left in a read buffer (p2p_server)

The slots of a session's read buffer are used again without being cleared, so behind a
frame there is what earlier frames left in its slot. A handler sees its own message only
exactly if the frame has all fields of the message, and its strings end in it
(`seesOwn_iff`). A shorter ping has the id of the one 32 frames before
(`ping_leftover`).
-/

namespace Bryllite.P2p

open Bryllite.Framework
open Target (readUnsigned)

variable {t : Target} {f : List UInt8}

/-- A session with the read buffer `b`, after events. -/
def sessionAfter (t : Target) (b : SessionBuffer 32 maxMessageLength) (es : List ReadEvent) : Reader 32 :=
  run (P2pServer.handlers t).step ((P2pServer.handlers t).opened b) es

/-- After the events `es`, the event `e` passes the frame `f` on to `onMessage`, and `msg`
is the memory at it. -/
structure Delivers (t : Target) (b : SessionBuffer 32 maxMessageLength) (es : List ReadEvent) (e : ReadEvent)
    (f msg : List UInt8) : Prop where
  received : ((P2pServer.handlers t).step (sessionAfter t b es) e).received = (sessionAfter t b es).received ++ [f]
  dispatched : P2pServer.dispatched t (sessionAfter t b es) e = some msg

/-- Whatever was received before the frame, its handler is called with the same message,
and does the same. -/
def SeesOwn (t : Target) (b : SessionBuffer 32 maxMessageLength) (f : List UInt8) : Prop :=
  ∀ es e msg es' e' msg', Delivers t b es e f msg → Delivers t b es' e' f msg' →
    t.peerMessage msg = t.peerMessage msg' ∧
      ∀ peers, NodeServer.onMessage t peers msg = NodeServer.onMessage t peers msg'

/-- The frame has all fields of its message, and a zero behind the beginning of the last
string of it. -/
def Complete (t : Target) (f : List UInt8) : Prop :=
  (t.msgid f = messagePingId ∨ t.msgid f = messagePongId → t.offsetId + t.sizeofSizeT ≤ f.length) ∧
    (t.msgid f = nodeMessagePeerNotifyId → t.offsetPort + 2 ≤ f.length ∧ 0 ∈ f.drop t.offsetHost)

instance (t : Target) : DecidablePred (Complete t) := fun _ => inferInstanceAs (Decidable (_ ∧ _))

/-! ## Memory that begins with the frame -/

namespace Target

variable {msg msg' : List UInt8}

theorem readUnsigned_congr {off len n : Nat} (h : msg.take n = msg'.take n) (hn : off + len ≤ n) :
    readUnsigned msg off len = readUnsigned msg' off len := by
  rw [readUnsigned, readUnsigned, slice_congr h hn]

/-- Different bytes make different numbers. -/
theorem readUnsigned_ne {off len i : Nat} (hm : off + len ≤ msg.length) (hm' : off + len ≤ msg'.length)
    (hi : i < len) (h : msg[off + i]? ≠ msg'[off + i]?) : readUnsigned msg off len ≠ readUnsigned msg' off len := by
  intro he
  have hlt : ∀ bs : List UInt8, ∀ d ∈ bs.map UInt8.toNat, d < 256 := fun bs d hd => by
    obtain ⟨x, -, rfl⟩ := List.mem_map.mp hd
    exact x.toNat_lt
  have hmap := Nat.ofDigits_inj_of_len_eq (by omega)
    (by rw [List.length_map, List.length_map, length_slice hm, length_slice hm']) (hlt _) (hlt _) he
  have hslice := List.map_injective_iff.mpr (fun _ _ h => UInt8.toNat_inj.mp h) hmap
  rw [← getElem?_slice hi, ← getElem?_slice hi, hslice] at h
  exact h rfl

theorem msgid_of_take {n : Nat} (h : msg.take n = msg'.take n) (hn : t.sizeofMessage ≤ n) :
    t.msgid msg = t.msgid msg' :=
  readUnsigned_congr h hn

theorem offsetId_bounds (t : Target) : t.sizeofMessage ≤ t.offsetId ∧ t.offsetId + t.sizeofSizeT ≤ 24 := by
  cases t <;> decide

theorem offsetPort_bounds (t : Target) :
    t.sizeofMessage + 32 = t.offsetHost ∧ t.offsetHost + 16 ≤ t.offsetPort ∧ t.offsetPort + 2 ≤ 64 := by
  cases t <;> decide

end Target

section Memory

variable {msg msg' : List UInt8}

/-- What is read up to a zero that is in the frame. -/
theorem upTo_of_take {off : Nat} (h : msg.take f.length = f) (hz : 0 ∈ f.drop off) :
    upTo 0 (msg.drop off) = upTo 0 (f.drop off) := by
  have hsplit : msg.drop off = f.drop off ++ msg.drop (off + (f.drop off).length) := by
    have := List.take_append_drop (f.drop off).length (msg.drop off)
    rw [List.drop_drop, List.length_drop, ← List.drop_take, h] at this
    rw [List.length_drop]
    exact this.symm
  rw [hsplit, upTo_append hz]

/-- What `onPeerMessagePeerNotify` reads of a frame that has it all. -/
theorem onPeerMessagePeerNotify_congr (hport : t.offsetPort + 2 ≤ f.length) (hz : 0 ∈ f.drop t.offsetHost)
    (h : msg.take f.length = f) (h' : msg'.take f.length = f) (peers : List (List UInt8 × PeerInfo)) :
    NodeServer.onPeerMessagePeerNotify t peers msg = NodeServer.onPeerMessagePeerNotify t peers msg' := by
  have hz' : 0 ∈ f.drop t.offsetNodeId := by
    rw [Target.offsetHost, ← List.drop_drop] at hz
    exact List.mem_of_mem_drop hz
  unfold NodeServer.onPeerMessagePeerNotify
  rw [upTo_of_take h hz', upTo_of_take h' hz', upTo_of_take h hz, upTo_of_take h' hz,
    Target.readUnsigned_congr (h.trans h'.symm) hport]

/-- A complete frame decides all that is read of it. -/
theorem Complete.same (hc : Complete t f) (hf : t.sizeofMessage ≤ f.length) (h : msg.take f.length = f)
    (h' : msg'.take f.length = f) : t.peerMessage msg = t.peerMessage msg' ∧
      ∀ peers, NodeServer.onMessage t peers msg = NodeServer.onMessage t peers msg' := by
  have hsame : msg.take f.length = msg'.take f.length := h.trans h'.symm
  have hid : t.msgid msg = t.msgid msg' := Target.msgid_of_take hsame hf
  have hidf : t.msgid msg' = t.msgid f := Target.msgid_of_take (h'.trans List.take_length.symm) hf
  obtain ⟨hping, hnotify⟩ := hc
  rw [← hidf] at hping hnotify
  unfold Target.peerMessage NodeServer.onMessage
  rw [hid]
  by_cases h1 : t.msgid msg' = messagePingId
  · have hread := Target.readUnsigned_congr hsame (hping (.inl h1))
    simp only [if_pos h1, NodeServer.onPeerMessagePing, hread]
    exact ⟨trivial, fun _ => trivial⟩
  simp only [if_neg h1]
  by_cases h2 : t.msgid msg' = messagePongId
  · have hread := Target.readUnsigned_congr hsame (hping (.inr h2))
    simp only [if_pos h2, hread]
    exact ⟨trivial, fun _ => rfl⟩
  simp only [if_neg h2]
  by_cases h3 : t.msgid msg' = nodeMessagePeerNotifyId
  · obtain ⟨hport, hz⟩ := hnotify h3
    obtain ⟨hb1, hb2, -⟩ := t.offsetPort_bounds
    have hnode : slice msg t.offsetNodeId 32 = slice msg' t.offsetNodeId 32 :=
      slice_congr hsame (by unfold Target.offsetNodeId; omega)
    have hhost : slice msg t.offsetHost 16 = slice msg' t.offsetHost 16 := slice_congr hsame (by omega)
    simp only [if_pos h3, hnode, hhost, Target.readUnsigned_congr hsame hport,
      onPeerMessagePeerNotify_congr hport hz h h']
    exact ⟨trivial, fun _ => trivial⟩
  · simp only [if_neg h3]
    exact ⟨trivial, fun _ => trivial⟩

end Memory

/-! ## What is passed on -/

/-- The reader has passed on the message that is in a slot. -/
def Passed (t : Target) (slot : Nat) (r r' : Reader 32) : Prop :=
  t.valid (r'.buffer.data slot) ∧
    r'.received = r.received ++ [(r'.buffer.data slot).take (t.size (r'.buffer.data slot))]

theorem P2pServer.received_header (n : Nat) (h : n ≤ maxMessageLength) (r : Reader 32) :
    (handleSessionReadHeader t false n h r).received = r.received := by
  unfold handleSessionReadHeader
  rw [if_neg Bool.false_ne_true]
  dsimp only
  split <;> rfl

theorem P2pServer.received_body (n slot : Nat) (r : Reader 32) :
    (handleSessionReadBody t false n slot r).received = r.received ∨
      Passed t slot r (handleSessionReadBody t false n slot r) := by
  unfold handleSessionReadBody
  rw [if_neg Bool.false_ne_true]
  split
  · exact .inl rfl
  · split
    · exact .inl rfl
    · rename_i hv
      rw [Bool.not_eq_true', Bool.not_eq_false] at hv
      exact .inr ⟨hv, rfl⟩

/-- The server passes on messages that are in the slot of the read that completes. -/
theorem P2pServer.received_step (r : Reader 32) (e : ReadEvent) :
    ((handlers t).step r e).received = r.received ∨
      ∃ op, r.op = some op ∧ Passed t op.slot r ((handlers t).step r e) := by
  cases e with
  | arrive bs => exact .inl rfl
  | error =>
    rcases ho : r.op with _ | op
    · rw [(ReadHandlers.step_of_none ho).2]
      exact .inl rfl
    · rw [ReadHandlers.step_error ho, (P2pServer.receives t).error]
      exact .inl rfl
  | complete =>
    rcases ho : r.op with _ | op
    · rw [(ReadHandlers.step_of_none ho).1]
      exact .inl rfl
    · rcases Nat.lt_or_ge r.unread.length op.transfer with hu | hu
      · rw [ReadHandlers.step_waiting ho hu]
        exact .inl rfl
      · rw [ReadHandlers.step_complete ho hu]
        unfold ReadHandlers.call
        split
        · exact .inl (received_header op.transfer (Nat.le_trans (Nat.le_add_left _ _) op.off_add_transfer_le) _)
        · exact (received_body _ op.slot (r.transfer op hu)).imp id fun h => ⟨op, rfl, h⟩

/-- The memory at a message begins with it. -/
theorem Delivers.take {b : SessionBuffer 32 maxMessageLength} {es : List ReadEvent} {e : ReadEvent} {msg : List UInt8}
    (h : Delivers t b es e f msg) : msg.take f.length = f := by
  obtain ⟨hrec, hdisp⟩ := h
  generalize sessionAfter t b es = r at hrec hdisp
  unfold P2pServer.dispatched at hdisp
  dsimp only at hdisp
  split at hdisp
  · cases hdisp
  rename_i hne
  rcases P2pServer.received_step (t := t) r e with hsame | ⟨op, ho, hv, hf⟩
  · exact absurd (congrArg List.length hsame) hne
  · rw [ho, Option.map_some] at hdisp
    obtain rfl := Option.some.inj hdisp
    rw [hf, List.append_right_inj, List.cons.injEq] at hrec
    generalize ((P2pServer.handlers t).step r e).buffer = buffer at hv hrec ⊢
    have hle : t.size (buffer.data op.slot) ≤ (buffer.data op.slot).length := by
      rw [buffer.length_data]
      exact Nat.le_succ_of_le (Target.size_le hv)
    have hlen : f.length = t.size (buffer.data op.slot) := by rw [← hrec.1, List.length_take_of_le hle]
    rw [hlen, SessionBuffer.memory, List.take_append_of_le_length hle, hrec.1]

/-! ## The delivery of a frame -/

/-- The reader waits for a header, and nothing more has arrived. -/
structure AtHeader (t : Target) (r : Reader 32) : Prop where
  connected : r.connected = true
  op : r.op = some (.ofHeader t r.buffer.get)
  taken : r.taken = r.arrived.length

/-- The events by which a frame is received. -/
def deliveries (f : List UInt8) : List ReadEvent := [.arrive f, .complete, .complete]

theorem isFrame_iff : t.framing.IsFrame f ↔ t.valid f = true ∧ t.size f = f.length := by
  rw [Framing.IsFrame]
  cases hv : t.valid f with
  | false => simp [Target.framing_size_of_not_valid hv]
  | true => simp [Target.framing_size_of_valid hv]

/-- The frame has arrived at `r`, and `r'` has its header and waits for the rest. -/
structure AtBody (t : Target) (f : List UInt8) (r r' : Reader 32) : Prop where
  connected : r'.connected = true
  op : r'.op = some (.ofBody t r.buffer.get (patch (r.buffer.data r.buffer.get) 0 (f.take t.sizeofMessage)))
  get : r'.buffer.get = r.buffer.get
  data : r'.buffer.data =
    Function.update r.buffer.data r.buffer.get (patch (r.buffer.data r.buffer.get) 0 (f.take t.sizeofMessage))
  arrived : r'.arrived = r.arrived ++ f
  taken : r'.taken = r.arrived.length + t.sizeofMessage

theorem AtBody.unread {r r' : Reader 32} (h : AtBody t f r r') : r'.unread = f.drop t.sizeofMessage := by
  rw [Reader.unread, h.arrived, h.taken, List.drop_append, List.drop_eq_nil_of_le (Nat.le_add_right _ _),
    List.nil_append, Nat.add_sub_cancel_left]

/-- The header of a frame that has arrived is read into the slot. -/
theorem AtHeader.header {r : Reader 32} (h : AtHeader t r) (hf : t.framing.IsFrame f) :
    AtBody t f r (run (P2pServer.handlers t).step r [.arrive f, .complete]) := by
  obtain ⟨hv, hsize⟩ := isFrame_iff.mp hf
  have hlen : t.sizeofMessage ≤ f.length := hsize ▸ Target.le_size hv
  let r₀ : Reader 32 := { r with arrived := r.arrived ++ f }
  have hunread : r₀.unread = f := by
    show (r.arrived ++ f).drop r.taken = f
    rw [h.taken, List.drop_left]
  have htransfer := transfer_ofHeader t r.buffer.get
  have hu : (ReadOp.ofHeader t r.buffer.get).transfer ≤ r₀.unread.length := by
    rw [hunread, htransfer]
    exact hlen
  have hstep : run (P2pServer.handlers t).step r [.arrive f, .complete] =
      (P2pServer.handlers t).header false _ _ (r₀.transfer _ hu) :=
    ReadHandlers.step_complete (r := r₀) h.op hu
  have hdata : (r₀.transfer _ hu).buffer.data =
      Function.update r.buffer.data r.buffer.get (patch (r.buffer.data r.buffer.get) 0 (f.take t.sizeofMessage)) := by
    show Function.update r.buffer.data r.buffer.get (patch (r.buffer.data r.buffer.get) 0 (List.take _ _)) = _
    rw [hunread, htransfer]
  have hslot : (r₀.transfer _ hu).buffer.data (r₀.transfer _ hu).buffer.get =
      patch (r.buffer.data r.buffer.get) 0 (f.take t.sizeofMessage) := by
    rw [hdata]
    exact Function.update_self ..
  have hvalid : t.valid (patch (r.buffer.data r.buffer.get) 0 (f.take t.sizeofMessage)) = true :=
    (Target.valid_congr (take_patch_take hlen)).trans hv
  rw [hstep, (P2pServer.receives t).header _ _ _ htransfer, hslot, if_pos hvalid]
  refine ⟨h.connected, rfl, rfl, hdata, rfl, ?_⟩
  show r.taken + (ReadOp.ofHeader t r.buffer.get).transfer = _
  rw [h.taken, htransfer]

/-- The rest of the frame follows, and the frame is passed on. -/
theorem AtBody.deliver {r r' : Reader 32} (h : AtBody t f r r') (hf : t.framing.IsFrame f) :
    AtHeader t ((P2pServer.handlers t).step r' .complete) ∧
      ((P2pServer.handlers t).step r' .complete).received = r'.received ++ [f] ∧
      ((P2pServer.handlers t).step r' .complete).buffer.get = (r.buffer.get + 1) % 32 ∧
      ((P2pServer.handlers t).step r' .complete).buffer.data =
        Function.update r.buffer.data r.buffer.get (patch (r.buffer.data r.buffer.get) 0 f) := by
  obtain ⟨hv, hsize⟩ := isFrame_iff.mp hf
  have hlen : t.sizeofMessage ≤ f.length := hsize ▸ Target.le_size hv
  let header := patch (r.buffer.data r.buffer.get) 0 (f.take t.sizeofMessage)
  have hhead : header.take t.sizeofMessage = f.take t.sizeofMessage := take_patch_take hlen
  have hpayload : t.payloadSize header = (f.drop t.sizeofMessage).length := by
    have := Target.sizeofMessage_add_payloadSize hv
    rw [Target.payloadSize_congr hhead, List.length_drop]
    omega
  have htransfer := transfer_ofBody ((Target.valid_congr hhead).trans hv) r.buffer.get
  have hu : (ReadOp.ofBody t r.buffer.get header).transfer ≤ r'.unread.length := by
    rw [h.unread, htransfer, hpayload]
  -- The slot holds the frame.
  have hdata : (r'.transfer _ hu).buffer.data =
      Function.update r.buffer.data r.buffer.get (patch (r.buffer.data r.buffer.get) 0 f) := by
    show Function.update r'.buffer.data r.buffer.get
      (patch (r'.buffer.data r.buffer.get) t.sizeofMessage (List.take _ _)) = _
    rw [h.unread, htransfer, hpayload, List.take_length, h.data, Function.update_self, Function.update_idem,
      patch_take_drop hlen]
  have hslot : (r'.transfer _ hu).buffer.data r.buffer.get = patch (r.buffer.data r.buffer.get) 0 f := by
    rw [hdata, Function.update_self]
  have hmem : ((r'.transfer _ hu).buffer.data r.buffer.get).take t.sizeofMessage = f.take t.sizeofMessage := by
    rw [hslot, patch_zero, List.take_append_of_le_length hlen]
  have hn : (ReadOp.ofBody t r.buffer.get header).transfer =
      t.payloadSize ((r'.transfer _ hu).buffer.data r.buffer.get) := by
    rw [htransfer, Target.payloadSize_congr hhead, Target.payloadSize_congr hmem]
  have hstep : (P2pServer.handlers t).step r' .complete =
      ((r'.transfer _ hu).onReceived t ((r'.transfer _ hu).buffer.data r.buffer.get)).nextHeader t := by
    refine (ReadHandlers.step_complete h.op hu).trans ?_
    show (P2pServer.handlers t).body false (ReadOp.ofBody t r.buffer.get header).transfer r.buffer.get _ = _
    rw [hn]
    exact (P2pServer.receives t).body _ _ h.connected ((Target.valid_congr hmem).trans hv)
  rw [hstep]
  refine ⟨⟨h.connected, rfl, ?_⟩, ?_, ?_, hdata⟩
  · show r'.taken + (ReadOp.ofBody t r.buffer.get header).transfer = r'.arrived.length
    rw [h.taken, htransfer, hpayload, h.arrived, List.length_append, List.length_drop]
    omega
  · show r'.received ++ [_] = _
    rw [Target.size_congr hmem, hsize, hslot, patch_zero, List.take_left]
  · show (r'.buffer.get + 1) % 32 = _
    rw [h.get]

theorem AtHeader.opened (t : Target) (b : SessionBuffer 32 maxMessageLength) : AtHeader t (sessionAfter t b []) :=
  ⟨rfl, rfl, rfl⟩

theorem sessionAfter_append (b : SessionBuffer 32 maxMessageLength) (es es' : List ReadEvent) :
    sessionAfter t b (es ++ es') = run (P2pServer.handlers t).step (sessionAfter t b es) es' := run_append _

section Session

variable {b : SessionBuffer 32 maxMessageLength} {es : List ReadEvent}

/-- What a session that waits for a header gets: the frame, with what is in the slot
behind it. -/
theorem AtHeader.delivers (h : AtHeader t (sessionAfter t b es)) (hf : t.framing.IsFrame f) :
    ∃ rest, Delivers t b (es ++ [.arrive f, .complete]) .complete f
      (patch ((sessionAfter t b es).buffer.data (sessionAfter t b es).buffer.get) 0 f ++ rest) := by
  have hbody := h.header hf
  rw [← sessionAfter_append] at hbody
  obtain ⟨-, hrec, -, hdata⟩ := hbody.deliver hf
  obtain ⟨rest, hmem⟩ : ∃ rest, ((P2pServer.handlers t).step (sessionAfter t b (es ++ [.arrive f, .complete]))
      .complete).buffer.memory (sessionAfter t b es).buffer.get =
        patch ((sessionAfter t b es).buffer.data (sessionAfter t b es).buffer.get) 0 f ++ rest :=
    ⟨_, by rw [SessionBuffer.memory, hdata, Function.update_self]⟩
  refine ⟨rest, hrec, ?_⟩
  unfold P2pServer.dispatched
  dsimp only
  rw [if_neg (by rw [hrec, List.length_append]; simp), hbody.op, Option.map_some, ← hmem]
  rfl

/-- The session goes on to the next slot, with the frame in the last. -/
theorem AtHeader.next (h : AtHeader t (sessionAfter t b es)) (hf : t.framing.IsFrame f) :
    AtHeader t (sessionAfter t b (es ++ deliveries f)) ∧
      (sessionAfter t b (es ++ deliveries f)).buffer.get = ((sessionAfter t b es).buffer.get + 1) % 32 ∧
      ∀ slot, (sessionAfter t b (es ++ deliveries f)).buffer.data slot =
        if slot = (sessionAfter t b es).buffer.get then patch ((sessionAfter t b es).buffer.data slot) 0 f
        else (sessionAfter t b es).buffer.data slot := by
  obtain ⟨hat, -, hpos, hdata⟩ := (h.header hf).deliver hf
  have hrun : sessionAfter t b (es ++ deliveries f) = (P2pServer.handlers t).step
      (run (P2pServer.handlers t).step (sessionAfter t b es) [.arrive f, .complete]) .complete :=
    sessionAfter_append b es (deliveries f)
  rw [hrun]
  refine ⟨hat, hpos, fun slot => ?_⟩
  rw [hdata, Function.update_apply]
  split
  · rename_i he
    rw [he]
  · rfl

end Session

/-! ## What earlier frames leave -/

/-- The frame `g` is received so many times. -/
def copies (k : Nat) (g : List UInt8) : List ReadEvent := (List.replicate k g).flatMap deliveries

theorem copies_succ (k : Nat) (g : List UInt8) : copies (k + 1) g = copies k g ++ deliveries g := by
  rw [copies, copies, List.replicate_succ', List.flatMap_append, List.flatMap_singleton]

/-- The slots of the last copies begin with the frame. -/
theorem after_copies (b : SessionBuffer 32 maxMessageLength) {g : List UInt8} (hg : t.framing.IsFrame g) (k : Nat) :
    AtHeader t (sessionAfter t b (copies k g)) ∧
      (sessionAfter t b (copies k g)).buffer.get = ((sessionAfter t b []).buffer.get + k) % 32 ∧
      ∀ j < k, ∃ tail, (sessionAfter t b (copies k g)).buffer.data (((sessionAfter t b []).buffer.get + j) % 32) =
        g ++ tail := by
  induction k with
  | zero =>
    have hlt := (sessionAfter t b []).buffer.currentPos_lt
    exact ⟨.opened t b, (Nat.mod_eq_of_lt hlt).symm, fun j hj => absurd hj (Nat.not_lt_zero j)⟩
  | succ k ih =>
    obtain ⟨hat, hpos, hslots⟩ := ih
    obtain ⟨hat', hpos', hdata⟩ := hat.next hg
    rw [copies_succ]
    refine ⟨hat', by rw [hpos', hpos]; omega, fun j hj => ?_⟩
    rw [hdata]
    split
    · exact ⟨_, patch_zero _ _⟩
    · rename_i hne
      -- A slot other than that of the last copy has an earlier one.
      have hjk : j ≠ k := fun he => hne (by rw [he, hpos])
      exact hslots j (by omega)

/-- After as many copies as there are slots, the next slot is that of the first. -/
theorem delivers_copies (b : SessionBuffer 32 maxMessageLength) {g : List UInt8} (hg : t.framing.IsFrame g)
    (hf : t.framing.IsFrame f) (hlen : f.length ≤ g.length) :
    ∃ msg, Delivers t b (copies 32 g ++ [.arrive f, .complete]) .complete f msg ∧
      msg.take g.length = f ++ g.drop f.length := by
  obtain ⟨hat, hpos, hslots⟩ := after_copies b hg 32
  obtain ⟨tail, htail⟩ := hslots 0 (Nat.zero_lt_succ 31)
  obtain ⟨rest, hd⟩ := hat.delivers hf
  refine ⟨_, hd, ?_⟩
  have hslot : (sessionAfter t b (copies 32 g)).buffer.get = ((sessionAfter t b []).buffer.get + 0) % 32 := by
    rw [hpos]
    omega
  have hall : (f ++ g.drop f.length).length = g.length := by
    rw [List.length_append, List.length_drop]
    omega
  rw [hslot, htail, patch_zero, List.drop_append_of_le_length hlen, ← List.append_assoc, List.append_assoc,
    List.take_left' hall]

/-- Two histories after which the byte `i` of the memory at the frame is 0, and 1. -/
def Leaks (t : Target) (b : SessionBuffer 32 maxMessageLength) (f : List UInt8) (i : Nat) : Prop :=
  ∃ es e msg es' e' msg', Delivers t b es e f msg ∧ Delivers t b es' e' f msg' ∧ msg[i]? = some 0 ∧ msg'[i]? = some 1

/-- The header of a frame of `max_message_length` bytes. -/
def longestHeader : Target → List UInt8
  | .x86 => [66, 82, 67, 0, 0, 0, 1, 0, 0, 0]
  | .x64 => [66, 82, 67, 0, 0, 0, 1, 0, 0, 0, 0, 0, 0, 0]

/-- The frame with this header, and `v` behind it. -/
def filled (t : Target) (v : UInt8) : List UInt8 :=
  longestHeader t ++ List.replicate (maxMessageLength - t.sizeofMessage) v

theorem length_longestHeader (t : Target) : (longestHeader t).length = t.sizeofMessage := by
  cases t <;> rfl

theorem longestHeader_valid (t : Target) :
    t.valid (longestHeader t) = true ∧ t.size (longestHeader t) = maxMessageLength := by
  cases t <;> decide

theorem length_filled (t : Target) (v : UInt8) : (filled t v).length = maxMessageLength := by
  rw [filled, List.length_append, List.length_replicate, length_longestHeader]
  exact Nat.add_sub_cancel' t.sizeofMessage_le

theorem isFrame_filled (t : Target) (v : UInt8) : t.framing.IsFrame (filled t v) := by
  have hhead : (filled t v).take t.sizeofMessage = (longestHeader t).take t.sizeofMessage :=
    List.take_append_of_le_length (Nat.le_of_eq (length_longestHeader t).symm)
  obtain ⟨hv, hsize⟩ := longestHeader_valid t
  rw [← Target.valid_congr hhead] at hv
  rw [← Target.size_congr hhead] at hsize
  exact isFrame_iff.mpr ⟨hv, hsize.trans (length_filled t v).symm⟩

theorem getElem?_filled {v : UInt8} {i : Nat} (hi : t.sizeofMessage ≤ i) (hm : i < maxMessageLength) :
    (filled t v)[i]? = some v := by
  rw [filled, List.getElem?_append_right (by rwa [length_longestHeader]), List.getElem?_replicate, if_pos]
  rw [length_longestHeader]
  omega

/-- Behind a frame there is what earlier frames left there, up to the longest of them. -/
theorem leaks_frames (b : SessionBuffer 32 maxMessageLength) (hf : t.framing.IsFrame f) {i : Nat} (hi : f.length ≤ i)
    (hm : i < maxMessageLength) : Leaks t b f i := by
  have hlen : t.sizeofMessage ≤ i := hf.headerLen_le.trans hi
  have hfill : ∀ v, ∃ msg, Delivers t b (copies 32 (filled t v) ++ [.arrive f, .complete]) .complete f msg ∧
      msg[i]? = some v := by
    intro v
    obtain ⟨msg, hd, hmsg⟩ := delivers_copies b (isFrame_filled t v) hf (by rw [length_filled]; omega)
    refine ⟨msg, hd, ?_⟩
    have htake : (msg.take (filled t v).length)[i]? = msg[i]? := List.getElem?_take_of_lt (by rwa [length_filled])
    rw [← htake, hmsg, List.getElem?_append_right hi, List.getElem?_drop, Nat.add_sub_cancel' hi, getElem?_filled hlen hm]
  obtain ⟨msg, hd, h0⟩ := hfill 0
  obtain ⟨msg', hd', h1⟩ := hfill 1
  exact ⟨_, _, msg, _, _, msg', hd, hd', h0, h1⟩

/-- A buffer that has ones in all slots but the first that is used. -/
def marked : SessionBuffer 32 maxMessageLength :=
  .new (fun slot => List.replicate (maxMessageLength + 1) (if slot = 1 then 0 else 1))
    (fun _ => List.length_replicate) (Nat.zero_lt_succ 31)

/-- The last byte of a slot is in no frame; a history decides which slot is used. -/
theorem leaks_marked (hf : t.framing.IsFrame f) {i : Nat} (hi : f.length ≤ i) (hm : i ≤ maxMessageLength) :
    Leaks t marked f i := by
  have hat := AtHeader.opened t marked
  obtain ⟨hat', hpos, hdata⟩ := hat.next hf
  obtain ⟨rest, hd⟩ := hat.delivers hf
  obtain ⟨rest', hd'⟩ := hat'.delivers hf
  have hbyte : ∀ (v : UInt8) rest, (patch (List.replicate (maxMessageLength + 1) v) 0 f ++ rest)[i]? = some v := by
    intro v rest
    rw [patch_zero, List.append_assoc, List.getElem?_append_right hi, List.drop_replicate, List.getElem?_append_left,
      List.getElem?_replicate, if_pos]
    · omega
    · rw [List.length_replicate]
      omega
  refine ⟨_, _, _, _, _, _, hd, hd', ?_, ?_⟩
  · exact hbyte 0 rest
  · rw [hpos, hdata]
    exact hbyte 1 rest'

/-! ## When a handler sees its own message only -/

theorem lt_length_of_getElem? {msg : List UInt8} {i : Nat} {v : UInt8} (h : msg[i]? = some v) : i < msg.length :=
  (List.getElem?_eq_some_iff.mp h).1

/-- A number that is not all in the frame. -/
theorem Leaks.unsigned {b : SessionBuffer 32 maxMessageLength} {off len : Nat} (hl : Leaks t b f (off + (len - 1)))
    (hlen : 0 < len) : ∃ es e msg es' e' msg', Delivers t b es e f msg ∧ Delivers t b es' e' f msg' ∧
      readUnsigned msg off len ≠ readUnsigned msg' off len := by
  obtain ⟨es, e, msg, es', e', msg', hd, hd', h0, h1⟩ := hl
  have hm := lt_length_of_getElem? h0
  have hm' := lt_length_of_getElem? h1
  refine ⟨es, e, msg, es', e', msg', hd, hd', Target.readUnsigned_ne (i := len - 1) (by omega) (by omega) (by omega) ?_⟩
  rw [h0, h1]
  decide

/-- A peer is connected to exactly if it is the one of the message. -/
theorem onPeerMessagePeerNotify_connects (msg nodeId host : List UInt8) (port : Nat) :
    (NodeServer.onPeerMessagePeerNotify t [(nodeId, ⟨nodeId, host, port⟩)] msg).map Prod.fst =
        some [.session ⟨nodeId, host, port⟩, .connectPeer ⟨nodeId, host, port⟩] ↔
      upTo 0 (msg.drop t.offsetNodeId) = some nodeId ∧ upTo 0 (msg.drop t.offsetHost) = some host ∧
        readUnsigned msg t.offsetPort 2 = port := by
  rw [Option.map_eq_some_iff]
  constructor
  · rintro ⟨⟨as, n⟩, h, rfl⟩
    obtain ⟨id, hn, ⟨-, hclose, -⟩ | ⟨peer, host', -, hh, hpeer⟩⟩ := NodeServer.onPeerMessagePeerNotify_cases h
    · cases hclose
    · split at hpeer
      · rename_i heq
        obtain ⟨has, -⟩ := hpeer
        simp only [List.cons.injEq, Action.session.injEq] at has
        obtain ⟨rfl, rfl, hport⟩ := PeerInfo.mk.inj (has.1.trans heq)
        exact ⟨hn, hh, hport.symm⟩
      · cases hpeer.1
  · rintro ⟨hn, hh, rfl⟩
    exact ⟨_, NodeServer.onPeerMessagePeerNotify_of_findPeer hn hh rfl (by simp [NodeServer.findPeer]), rfl⟩

/-- A string that does not end in the frame. -/
theorem Leaks.connects {b : SessionBuffer 32 maxMessageLength} (hl : Leaks t b f f.length)
    (hhost : t.offsetHost ≤ f.length) (hz : 0 ∉ f.drop t.offsetHost) :
    ∃ es e msg es' e' msg', Delivers t b es e f msg ∧ Delivers t b es' e' f msg' ∧
      ∃ peers, (NodeServer.onPeerMessagePeerNotify t peers msg).map Prod.fst ≠
        (NodeServer.onPeerMessagePeerNotify t peers msg').map Prod.fst := by
  obtain ⟨es, e, msg, es', e', msg', hd, hd', h0, h1⟩ := hl
  have hdrop : ∀ {msg : List UInt8} {v : UInt8}, msg.take f.length = f → msg[f.length]? = some v →
      msg.drop t.offsetHost = f.drop t.offsetHost ++ v :: msg.drop (f.length + 1) := by
    intro msg v h hv
    obtain ⟨hlt, hget⟩ := List.getElem?_eq_some_iff.mp hv
    have hsplit := List.take_append_drop f.length msg
    rw [h, List.drop_eq_getElem_cons hlt, hget] at hsplit
    rw [← hsplit, List.drop_append_of_le_length hhost, hsplit]
  have hzero : 0 ∈ msg.drop t.offsetNodeId := by
    have : (0 : UInt8) ∈ msg.drop t.offsetHost := by
      rw [hdrop hd.take h0]
      exact List.mem_append_right _ List.mem_cons_self
    rw [Target.offsetHost, ← List.drop_drop] at this
    exact List.mem_of_mem_drop this
  have hhost0 : upTo 0 (msg.drop t.offsetHost) = some (f.drop t.offsetHost) := by
    rw [hdrop hd.take h0]
    exact upTo_terminated hz _
  have hhost1 : upTo 0 (msg'.drop t.offsetHost) ≠ some (f.drop t.offsetHost) := by
    rw [hdrop hd'.take h1]
    exact upTo_ne hz (by decide) _
  -- The peer is the one of the first memory.
  obtain ⟨nodeId, hnode⟩ : ∃ nodeId, upTo 0 (msg.drop t.offsetNodeId) = some nodeId := ⟨_, if_pos hzero⟩
  have hconn := (onPeerMessagePeerNotify_connects (t := t) msg _ _ _).mpr ⟨hnode, hhost0, rfl⟩
  refine ⟨es, e, msg, es', e', msg', hd, hd', [(nodeId,
    ⟨nodeId, f.drop t.offsetHost, readUnsigned msg t.offsetPort 2⟩)], fun he => hhost1 ?_⟩
  rw [he] at hconn
  exact ((onPeerMessagePeerNotify_connects msg' _ _ _).mp hconn).2.1

/-- Where the memory behind the frame leaks, only complete frames see their own. -/
theorem SeesOwn.complete {b : SessionBuffer 32 maxMessageLength} (h : SeesOwn t b f) (hf : t.framing.IsFrame f)
    (hl : ∀ i, f.length ≤ i → i < 64 ∨ i = f.length → Leaks t b f i) : Complete t f := by
  have hid : ∀ {es e msg}, Delivers t b es e f msg → t.msgid msg = t.msgid f := fun hd =>
    Target.msgid_of_take (hd.take.trans List.take_length.symm) hf.headerLen_le
  have hsize : 0 < t.sizeofSizeT := by cases t <;> decide
  obtain ⟨-, hb⟩ := t.offsetId_bounds
  obtain ⟨-, hb', hb''⟩ := t.offsetPort_bounds
  constructor
  · intro hping
    by_contra hlt
    obtain ⟨es, e, msg, es', e', msg', hd, hd', hne⟩ :=
      (hl (t.offsetId + (t.sizeofSizeT - 1)) (by omega) (by omega)).unsigned hsize
    have hsame := (h _ _ _ _ _ _ hd hd').1
    unfold Target.peerMessage at hsame
    rw [hid hd, hid hd'] at hsame
    by_cases h1 : t.msgid f = messagePingId
    · rw [if_pos h1, if_pos h1] at hsame
      injection hsame with hsame
      injection hsame with hsame
      exact hne hsame
    · have h2 := hping.resolve_left h1
      rw [if_neg h1, if_neg h1, if_pos h2, if_pos h2] at hsame
      injection hsame with hsame
      injection hsame with hsame
      exact hne hsame
  · intro h3
    have h1 : t.msgid f ≠ messagePingId := h3.trans_ne (by decide)
    have h2 : t.msgid f ≠ messagePongId := h3.trans_ne (by decide)
    have hport : t.offsetPort + 2 ≤ f.length := by
      by_contra hlt
      obtain ⟨es, e, msg, es', e', msg', hd, hd', hne⟩ :=
        (hl (t.offsetPort + (2 - 1)) (by omega) (by omega)).unsigned (Nat.zero_lt_succ 1)
      have hsame := (h _ _ _ _ _ _ hd hd').1
      unfold Target.peerMessage at hsame
      rw [hid hd, hid hd', if_neg h1, if_neg h1, if_neg h2, if_neg h2, if_pos h3, if_pos h3] at hsame
      injection hsame with hsame
      injection hsame with _ _ hsame
      exact hne hsame
    refine ⟨hport, ?_⟩
    by_contra hz
    obtain ⟨es, e, msg, es', e', msg', hd, hd', peers, hne⟩ :=
      (hl f.length (Nat.le_refl _) (.inr rfl)).connects (by omega) hz
    have hsame := (h _ _ _ _ _ _ hd hd').2 peers
    unfold NodeServer.onMessage at hsame
    rw [hid hd, hid hd', if_neg h1, if_neg h1, if_neg h2, if_neg h2, if_pos h3, if_pos h3] at hsame
    exact hne hsame

/-- **A handler sees its own message only.** For a frame that the session reader accepts,
on every session, unless the frame is as long as messages can be, and on all sessions in
any case: whatever was received before it, its handler is called with the same message
and does the same, if and only if the frame is complete. -/
theorem seesOwn_iff (hf : t.framing.IsFrame f) :
    (∀ b, f.length < maxMessageLength → (SeesOwn t b f ↔ Complete t f)) ∧ ((∀ b, SeesOwn t b f) ↔ Complete t f) := by
  have hown : ∀ b, Complete t f → SeesOwn t b f := fun b hc es e msg es' e' msg' hd hd' =>
    hc.same hf.headerLen_le hd.take hd'.take
  have hmax : f.length ≤ maxMessageLength := by
    obtain ⟨hv, hsize⟩ := isFrame_iff.mp hf
    exact hsize ▸ Target.size_le hv
  have h64 : 64 < maxMessageLength := by decide
  refine ⟨fun b hlt => ⟨fun h => ?_, hown b⟩, fun h => ?_, fun hc b => hown b hc⟩
  · exact h.complete hf fun i hi hi' => leaks_frames b hf hi (by omega)
  · exact (h marked).complete hf fun i hi hi' => leaks_marked hf hi (by omega)

/-- A ping on a 64-bit target, of `size` bytes in all, with the bytes `id`. -/
def ping (size : UInt8) (id : List UInt8) : List UInt8 := [66, 82, 67, 0, size, 0, 0, 0, 0, 0, 0, 0, 101, 0] ++ id

/-- A whole ping, with its two bytes of padding. -/
theorem seesOwn_iff_sample :
    SeesOwn .x64 (.zeros (Nat.zero_lt_succ 31)) (ping 24 [0, 0, 7, 0, 0, 0, 0, 0, 0, 0]) :=
  ((seesOwn_iff (by decide)).1 (.zeros _) (by decide)).mpr (by decide)

/-- A ping without its id has the id of the ping 32 frames before, and is answered with
it. -/
theorem ping_leftover :
    let b : SessionBuffer 32 maxMessageLength := .zeros (Nat.zero_lt_succ 31)
    let history (id : UInt8) := copies 32 (ping 24 [0, 0, id, 0, 0, 0, 0, 0, 0, 0]) ++ [.arrive (ping 14 []), .complete]
    Target.x64.framing.IsFrame (ping 14 []) ∧
      (∃ msg, Delivers .x64 b (history 7) .complete (ping 14 []) msg ∧
        Target.x64.peerMessage msg = some (.ping 7) ∧
        ∀ peers, NodeServer.onMessage .x64 peers msg = some [.write (.pong 7)]) ∧
      (∃ msg, Delivers .x64 b (history 9) .complete (ping 14 []) msg ∧
        Target.x64.peerMessage msg = some (.ping 9) ∧
        ∀ peers, NodeServer.onMessage .x64 peers msg = some [.write (.pong 9)]) ∧
      ¬SeesOwn .x64 b (ping 14 []) := by
  intro b history
  have hf : Target.x64.framing.IsFrame (ping 14 []) := by decide
  obtain ⟨msg, hd, hmsg⟩ := delivers_copies b (g := ping 24 [0, 0, 7, 0, 0, 0, 0, 0, 0, 0]) (by decide) hf (by decide)
  obtain ⟨msg', hd', hmsg'⟩ := delivers_copies b (g := ping 24 [0, 0, 9, 0, 0, 0, 0, 0, 0, 0]) (by decide) hf (by decide)
  -- With the id, the memory is that of a whole ping.
  obtain ⟨h7, hw7⟩ := Complete.same (t := .x64) (f := ping 14 [0, 0, 7, 0, 0, 0, 0, 0, 0, 0]) (by decide) (by decide)
    hmsg List.take_length
  obtain ⟨h9, hw9⟩ := Complete.same (t := .x64) (f := ping 14 [0, 0, 9, 0, 0, 0, 0, 0, 0, 0]) (by decide) (by decide)
    hmsg' List.take_length
  have h7 : Target.x64.peerMessage msg = some (.ping 7) := h7.trans (by decide)
  have h9 : Target.x64.peerMessage msg' = some (.ping 9) := h9.trans (by decide)
  refine ⟨hf, ⟨msg, hd, h7, fun peers => (hw7 peers).trans rfl⟩,
    ⟨msg', hd', h9, fun peers => (hw9 peers).trans rfl⟩, fun h => ?_⟩
  exact absurd (h7.symm.trans ((h _ _ _ _ _ _ hd hd').1.trans h9)) (by decide)

end Bryllite.P2p
