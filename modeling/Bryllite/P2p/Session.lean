import Bryllite.Framework.Run
import Bryllite.P2p.Handshake
import Bryllite.P2p.Leftover

/-!
# Disconnected sessions (p2p_server.cpp)

`close_session` calls `onDisconnected` whether or not the session was closed before, and the
next read is started after `onMessage` whether or not this has closed it. That read fails,
and the session is reported disconnected again. So it is reported once at most exactly if
no message is delivered whose handler closes it (`disconnected_once_iff`); in any case no
message is delivered afterwards. The server of a node closes the session of a peer that is
not registered, and reports it twice (`disconnected_twice`).
-/

namespace Bryllite.P2p

open Bryllite.Framework

/-- The calls of the virtual methods of a server for a session: `onMessage` with the memory
at the message, and `onDisconnected`. -/
inductive Callback where
  | onMessage (msg : List UInt8)
  | onDisconnected
  deriving DecidableEq

/-- An accepted session as it is read, and what was called for it. Its socket is open while
it is connected. -/
structure Session extends Reader 32 where
  callbacks : List Callback := []

/-- What happens to a session: to its connection, and in `onMessage` if this delivers a
message. -/
structure SessionEvent where
  event : ReadEvent
  handler : List UInt8 → List Action

namespace Session

/-- `close_session`. -/
def closeSession (s : Session) : Session :=
  { s with toReader := s.toReader.close, callbacks := s.callbacks ++ [.onDisconnected] }

/-- What an action of a handler does to the session it was called for. -/
def act (s : Session) : Action → Session
  | .closeSession => closeSession s
  | .write _ => s
  | .session _ => s
  | .connectPeer _ => s

/-- `onMessage`, with the slot of the message. -/
def onMessage (t : Target) (handler : List UInt8 → List Action) (slot : Nat) (s : Session) : Session :=
  let msg := s.buffer.memory slot
  (handler msg).foldl act
    { s with toReader := s.toReader.onReceived t (s.buffer.data slot), callbacks := s.callbacks ++ [.onMessage msg] }

/-- `session_read_header`. -/
def sessionReadHeader (t : Target) (s : Session) : Session :=
  { s with toReader := P2pServer.sessionReadHeader t s.toReader }

/-- `session_read_body`. -/
def sessionReadBody (t : Target) (slot : Nat) (s : Session) : Session :=
  { s with toReader := P2pServer.sessionReadBody t slot s.toReader }

/-- `handle_session_read_header`. -/
def handleSessionReadHeader (t : Target) (error : Bool) (s : Session) : Session :=
  if error then closeSession s
  else
    let slot := s.buffer.get
    if !t.valid (s.buffer.data slot) then closeSession s
    else sessionReadBody t slot s

/-- `handle_session_read_body`, with the slot of the header. -/
def handleSessionReadBody (t : Target) (handler : List UInt8 → List Action) (error : Bool)
    (bytesTransferred slot : Nat) (s : Session) : Session :=
  let header := s.buffer.data slot
  if error then closeSession s
  else if t.size header < bytesTransferred + t.sizeofMessage then closeSession s
  else if !t.valid header then closeSession s
  else sessionReadHeader t (onMessage t handler slot s)

/-- The call of the handler of a read. -/
def call (t : Target) (handler : List UInt8 → List Action) (op : ReadOp) (error : Bool) (bytesTransferred : Nat)
    (s : Session) : Session :=
  match op.handler with
  | .header => handleSessionReadHeader t error s
  | .body => handleSessionReadBody t handler error bytesTransferred op.slot s

/-- A read completes once its bytes have arrived, or with an error. On a closed socket it
can only fail. -/
def step (t : Target) (s : Session) (e : SessionEvent) : Session :=
  match e.event with
  | .arrive bs => { s with arrived := s.arrived ++ bs }
  | .complete =>
    match s.op with
    | none => s
    | some op =>
      if h : s.connected = true ∧ op.transfer ≤ s.unread.length then
        call t e.handler op false op.transfer { s with toReader := s.transfer op h.2 }
      else s
  | .error =>
    match s.op with
    | none => s
    | some op => call t e.handler op true 0 { s with op := none }

/-- `handle_accept`, for a session with the read buffer `b`. -/
def accept (t : Target) (b : SessionBuffer 32 maxMessageLength) : Session :=
  { toReader := (P2pServer.handlers t).opened b }

/-! ## What one event does -/

/-- The message that an event delivers to `onMessage`. -/
def delivered (t : Target) (s : Session) (e : SessionEvent) : Option (List UInt8) :=
  if s.connected then P2pServer.dispatched t s.toReader e.event else none

variable {t : Target} {s : Session} {e : SessionEvent}

/-- Every action of a handler that closes its session reports it disconnected. -/
theorem foldl_act (as : List Action) (s : Session) : as.foldl act s =
    { s with
      connected := s.connected && as.count .closeSession == 0
      callbacks := s.callbacks ++ List.replicate (as.count .closeSession) .onDisconnected } := by
  induction as generalizing s with
  | nil => simp
  | cons a as ih =>
    rw [List.foldl_cons, ih]
    cases a with
    | closeSession => simp [act, closeSession, Reader.close, List.replicate_succ]
    | write m => simp [act]
    | session peer => simp [act]
    | connectPeer peer => simp [act]

theorem call_error (handler : List UInt8 → List Action) (op : ReadOp) (n : Nat) (s : Session) :
    call t handler op true n s = closeSession s := by
  unfold call
  split <;> rfl

theorem delivered_eq_none {r : Reader 32} (hr : (P2pServer.handlers t).step s.toReader e.event = r)
    (h : r.received = s.received) : delivered t s e = none := by
  unfold delivered P2pServer.dispatched
  dsimp only
  rw [hr, h, if_pos rfl, ite_self]

theorem delivered_eq_some {r : Reader 32} {op : ReadOp} {f : List UInt8} (hc : s.connected = true)
    (ho : s.op = some op) (hr : (P2pServer.handlers t).step s.toReader e.event = r)
    (h : r.received = s.received ++ [f]) : delivered t s e = some (r.buffer.memory op.slot) := by
  have hne : (s.received ++ [f]).length ≠ s.received.length := by
    rw [List.length_append]
    exact Nat.succ_ne_self _
  unfold delivered P2pServer.dispatched
  dsimp only
  rw [if_pos hc, hr, h, if_neg hne, ho, Option.map_some]

/-- No read is outstanding on a closed socket. -/
def Settled (s : Session) : Prop := s.connected = true ∨ s.op = none

/-- What a session is left as by an event: nothing is called for it, it is closed, or a
message is delivered, and it is closed as often as the handler does. It is read as the
reader `r` is, but for that. -/
inductive Stepped (t : Target) (s : Session) (e : SessionEvent) (r : Reader 32) (s' : Session) : Prop where
  | waits (hd : delivered t s e = none) (hr : s.Settled → s'.toReader = r) (hb : s'.callbacks = s.callbacks)
      (hc : s'.connected = s.connected) (ho : s'.op = none ↔ s.op = none)
  | closes (hd : delivered t s e = none) (hr : s'.toReader = r) (hb : s'.callbacks = s.callbacks ++ [.onDisconnected])
      (hc : s'.connected = false) (ho : s'.op = none) (hs : s.op ≠ none)
  | delivers (msg : List UInt8) (hd : delivered t s e = some msg)
      (hc : r.connected = true)
      (hr : s'.toReader = { r with connected := r.connected && (e.handler msg).count .closeSession == 0 })
      (hb : s'.callbacks =
        s.callbacks ++ .onMessage msg :: List.replicate ((e.handler msg).count .closeSession) .onDisconnected)
      (ho : s'.op ≠ none)

theorem stepped_same (hr : (P2pServer.handlers t).step s.toReader e.event = s.toReader) :
    Stepped t s e ((P2pServer.handlers t).step s.toReader e.event) s :=
  .waits (delivered_eq_none hr rfl) (fun _ => hr.symm) rfl rfl Iff.rfl

/-- The read that was outstanding fails, or what it has read is not valid. -/
theorem stepped_close {s₀ : Session} (hr : (P2pServer.handlers t).step s.toReader e.event = s₀.toReader.close)
    (hrec : s₀.received = s.received) (hb : s₀.callbacks = s.callbacks) (hn : s₀.op = none) (hs : s.op ≠ none) :
    Stepped t s e ((P2pServer.handlers t).step s.toReader e.event) (closeSession s₀) :=
  .closes (delivered_eq_none hr hrec) hr.symm (congrArg (· ++ _) hb) rfl hn hs

/-- The header of a message is handled as by the reader. -/
theorem handleSessionReadHeader_cases (t : Target) (n : Nat) (h : n ≤ maxMessageLength) (s : Session) :
    let r := P2pServer.handleSessionReadHeader t false n h s.toReader
    handleSessionReadHeader t false s = closeSession s ∧ r = s.toReader.close ∨
      ∃ op, handleSessionReadHeader t false s = { s with op := some op } ∧ r = { s.toReader with op := some op } := by
  intro r
  unfold r handleSessionReadHeader P2pServer.handleSessionReadHeader
  simp only [Bool.false_eq_true, if_false]
  split
  · exact .inl ⟨rfl, rfl⟩
  · exact .inr ⟨_, rfl, rfl⟩

/-- So is the rest of it, up to what `onMessage` does. -/
theorem handleSessionReadBody_cases (t : Target) (handler : List UInt8 → List Action) (n slot : Nat) (s : Session) :
    let r := P2pServer.handleSessionReadBody t false n slot s.toReader
    handleSessionReadBody t handler false n slot s = closeSession s ∧ r = s.toReader.close ∨
      handleSessionReadBody t handler false n slot s = sessionReadHeader t (onMessage t handler slot s) ∧
        r = P2pServer.sessionReadHeader t (s.toReader.onReceived t (s.buffer.data slot)) := by
  intro r
  unfold r handleSessionReadBody P2pServer.handleSessionReadBody
  simp only [Bool.false_eq_true, if_false]
  split
  · exact .inl ⟨rfl, rfl⟩
  · split
    · exact .inl ⟨rfl, rfl⟩
    · exact .inr ⟨rfl, rfl⟩

/-- A read completes. -/
theorem stepped_complete {op : ReadOp} (he : e.event = .complete) (ho : s.op = some op) (hc : s.connected = true)
    (hu : op.transfer ≤ s.unread.length) :
    Stepped t s e ((P2pServer.handlers t).step s.toReader e.event)
      (call t e.handler op false op.transfer { s with toReader := s.transfer op hu }) := by
  have hstep : (P2pServer.handlers t).step s.toReader .complete = _ := ReadHandlers.step_complete ho hu
  rw [← he] at hstep
  have hs : s.op ≠ none := by simp [ho]
  unfold ReadHandlers.call at hstep
  unfold call
  cases hh : op.handler with
  | header =>
    rw [hh] at hstep
    rcases handleSessionReadHeader_cases t op.transfer
        (Nat.le_trans (Nat.le_add_left _ _) op.off_add_transfer_le) { s with toReader := s.transfer op hu } with
      ⟨hs', hr⟩ | ⟨op', hs', hr⟩
    · rw [hs']
      exact stepped_close (hstep.trans hr) rfl rfl rfl hs
    · rw [hs']
      replace hstep := hstep.trans hr
      exact .waits (delivered_eq_none hstep rfl) (fun _ => hstep.symm) rfl rfl (by simp [ho])
  | body =>
    rw [hh] at hstep
    rcases handleSessionReadBody_cases t e.handler op.transfer op.slot { s with toReader := s.transfer op hu } with
      ⟨hs', hr⟩ | ⟨hs', hr⟩
    · rw [hs']
      exact stepped_close (hstep.trans hr) rfl rfl rfl hs
    · rw [hs', onMessage, foldl_act]
      replace hstep := hstep.trans hr
      have hd := delivered_eq_some hc ho hstep rfl
      refine .delivers _ hd (hstep ▸ hc) ?_ ?_ (Option.some_ne_none _)
      · rw [hstep]
        rfl
      · show (s.callbacks ++ [_]) ++ _ = _
        rw [List.append_assoc, List.singleton_append]
        rfl

theorem step_cases (t : Target) (s : Session) (e : SessionEvent) :
    Stepped t s e ((P2pServer.handlers t).step s.toReader e.event) (step t s e) := by
  unfold step
  split
  case h_1 bs he =>
    have hr : (P2pServer.handlers t).step s.toReader e.event = { s.toReader with arrived := s.arrived ++ bs } := by
      rw [he]
      rfl
    exact .waits (delivered_eq_none hr rfl) (fun _ => hr.symm) rfl rfl Iff.rfl
  case h_2 he =>
    split
    case h_1 ho =>
      refine stepped_same ?_
      rw [he]
      exact (ReadHandlers.step_of_none ho).1
    case h_2 op ho =>
      split
      · rename_i h
        exact stepped_complete he ho h.1 h.2
      · rename_i h
        by_cases hc : s.connected = true
        · refine stepped_same ?_
          rw [he]
          exact ReadHandlers.step_waiting ho (Nat.not_le.mp fun hu => h ⟨hc, hu⟩)
        · refine .waits (if_neg hc) (fun hs => ?_) rfl rfl Iff.rfl
          have hn := hs.resolve_left hc
          rw [ho] at hn
          cases hn
  case h_3 he =>
    split
    case h_1 ho =>
      refine stepped_same ?_
      rw [he]
      exact (ReadHandlers.step_of_none ho).2
    case h_2 op ho =>
      have hr : (P2pServer.handlers t).step s.toReader .error = _ := ReadHandlers.step_error ho
      rw [← he, (P2pServer.receives t).error] at hr
      rw [call_error]
      exact stepped_close hr rfl rfl rfl (by simp [ho])

/-! ## What is reported of a session -/

/-- No message is delivered after `onDisconnected`. -/
def DisconnectedLast (cs : List Callback) : Prop :=
  cs.Pairwise fun c c' => c = .onDisconnected → ∀ msg, c' ≠ .onMessage msg

/-- `onDisconnected` is called once at most, and no message is delivered after it. -/
structure DisconnectedOnce (cs : List Callback) : Prop where
  once : cs.count .onDisconnected ≤ 1
  last : DisconnectedLast cs

/-- Messages were delivered, then the session was reported disconnected `k` times. -/
def Reports (s : Session) (k : Nat) : Prop :=
  ∃ msgs : List (List UInt8), s.callbacks = msgs.map .onMessage ++ List.replicate k .onDisconnected

/-- The handler of a message that is delivered does not close the session. -/
def Keeps (t : Target) (s : Session) (e : SessionEvent) : Prop :=
  ∀ msg, delivered t s e = some msg → .closeSession ∉ e.handler msg

instance (t : Target) (s : Session) (e : SessionEvent) : Decidable (Keeps t s e) :=
  decidable_of_iff ((delivered t s e).all fun msg => .closeSession ∉ e.handler msg) (by
    unfold Keeps
    cases delivered t s e <;> simp)

/-- The session is open, or it was closed once and is not read any more. -/
inductive Calm (s : Session) : Prop where
  | opened (hc : s.connected = true) (hr : s.Reports 0)
  | closed (hc : s.connected = false) (ho : s.op = none) (hr : s.Reports 1)

/-- A handler has closed the session, and it is closed again by the read that is outstanding. -/
def Rejected (s : Session) : Prop :=
  s.connected = false ∧ ∃ k, s.Reports (k + 1) ∧ (s.op = none → 0 < k)

variable {s' : Session} {k : Nat}

theorem Reports.congr (h : s.Reports k) (hb : s'.callbacks = s.callbacks) : s'.Reports k := by
  unfold Reports
  rwa [hb]

theorem Reports.close (h : s.Reports k) (hb : s'.callbacks = s.callbacks ++ [.onDisconnected]) :
    s'.Reports (k + 1) := by
  obtain ⟨msgs, hmsgs⟩ := h
  exact ⟨msgs, by rw [hb, hmsgs, List.append_assoc, ← List.replicate_succ']⟩

theorem Reports.deliver (h : s.Reports 0) {msg : List UInt8} {n : Nat}
    (hb : s'.callbacks = s.callbacks ++ .onMessage msg :: List.replicate n .onDisconnected) : s'.Reports n := by
  obtain ⟨msgs, hmsgs⟩ := h
  refine ⟨msgs ++ [msg], ?_⟩
  rw [hb, hmsgs]
  simp

/-- No message is delivered after `onDisconnected`, however often this is called. -/
theorem Reports.last (h : s.Reports k) : DisconnectedLast s.callbacks := by
  obtain ⟨msgs, hmsgs⟩ := h
  rw [hmsgs, DisconnectedLast, List.pairwise_append, List.pairwise_map]
  refine ⟨List.pairwise_of_forall fun _ _ hn => ?_, ?_, fun c hc _ _ hn => ?_⟩
  · cases hn
  · exact List.pairwise_replicate.mpr (.inr fun _ _ hn => by cases hn)
  · obtain ⟨_, -, rfl⟩ := List.mem_map.mp hc
    cases hn

theorem Reports.disconnectedOnce_iff (h : s.Reports k) : DisconnectedOnce s.callbacks ↔ k ≤ 1 := by
  have hcount : s.callbacks.count .onDisconnected = k := by
    obtain ⟨msgs, hmsgs⟩ := h
    have hnone : Callback.onDisconnected ∉ msgs.map .onMessage := fun hm => by
      obtain ⟨_, -, hn⟩ := List.mem_map.mp hm
      cases hn
    rw [hmsgs, List.count_append, List.count_replicate_self, List.count_eq_zero_of_not_mem hnone, Nat.zero_add]
  exact ⟨fun ho => hcount ▸ ho.once, fun hk => ⟨hcount.symm ▸ hk, h.last⟩⟩

theorem connected_of_delivered {msg : List UInt8} (h : delivered t s e = some msg) : s.connected = true := by
  unfold delivered at h
  split at h
  · assumption
  · cases h

theorem Calm.reports (h : s.Calm) (hc : s.connected = true) : s.Reports 0 := by
  cases h with
  | opened _ hr => exact hr
  | closed hc' => rw [hc] at hc'; cases hc'

/-- Nothing else than such a handler closes a session twice. -/
theorem calm_step (h : s.Calm) (hk : Keeps t s e) : (step t s e).Calm := by
  cases step_cases t s e with
  | waits _ _ hb hc ho =>
    cases h with
    | opened hc' hr => exact .opened (hc.trans hc') (hr.congr hb)
    | closed hc' ho' hr => exact .closed (hc.trans hc') (ho.mpr ho') (hr.congr hb)
  | closes _ _ hb hc ho hs =>
    cases h with
    | opened _ hr => exact .closed hc ho (hr.close hb)
    | closed _ ho' _ => exact absurd ho' hs
  | delivers msg hd hc hr hb =>
    have hcount := List.count_eq_zero_of_not_mem (hk msg hd)
    rw [hcount] at hb hr
    have hreports := (h.reports (connected_of_delivered hd)).deliver hb
    exact .opened (by rw [hr, hc]; rfl) hreports

/-- The read after a handler has closed the session is outstanding. -/
theorem rejected_of_calm (h : s.Calm) (hk : ¬Keeps t s e) : (step t s e).Rejected := by
  obtain ⟨msg, hm, hclose⟩ : ∃ msg, delivered t s e = some msg ∧ .closeSession ∈ e.handler msg := by
    unfold Keeps at hk
    push Not at hk
    exact hk
  cases step_cases t s e with
  | waits hd => rw [hd] at hm; cases hm
  | closes hd => rw [hd] at hm; cases hm
  | delivers msg' hd _ hr hb ho =>
    obtain rfl := Option.some.inj (hd.symm.trans hm)
    obtain ⟨k, hcount⟩ := Nat.exists_eq_succ_of_ne_zero (List.count_pos_iff.mpr hclose).ne'
    rw [hcount] at hb hr
    have hreports := (h.reports (connected_of_delivered hd)).deliver hb
    exact ⟨by rw [hr]; exact Bool.and_false _, k, hreports, fun hn => absurd hn ho⟩

theorem rejected_step (h : s.Rejected) (e : SessionEvent) : (step t s e).Rejected := by
  obtain ⟨hc, k, hr, ho⟩ := h
  cases step_cases t s e with
  | waits _ _ hb hc' ho' => exact ⟨hc'.trans hc, k, hr.congr hb, fun hn => ho (ho'.mp hn)⟩
  | closes _ _ hb hc' => exact ⟨hc', k + 1, hr.close hb, fun _ => Nat.succ_pos k⟩
  | delivers msg hd =>
    rw [connected_of_delivered hd] at hc
    cases hc

theorem calm_accept (t : Target) (b : SessionBuffer 32 maxMessageLength) : (accept t b).Calm := .opened rfl ⟨[], rfl⟩

theorem Calm.settled (h : s.Calm) : s.Settled := by
  cases h with
  | opened hc => exact .inl hc
  | closed _ ho => exact .inr ho

theorem calm_run (b : SessionBuffer 32 maxMessageLength) {es : List SessionEvent}
    (h : Along (step t) (Keeps t) (accept t b) es) : (run (step t) (accept t b) es).Calm :=
  run_inv (fun _ _ hs hk => calm_step hs hk) (calm_accept t b) h

/-- Where handlers do not close it, a session is read as its reader is. -/
theorem toReader_run (b : SessionBuffer 32 maxMessageLength) {es : List SessionEvent}
    (h : Along (step t) (Keeps t) (accept t b) es) :
    (run (step t) (accept t b) es).toReader = sessionAfter t b (es.map SessionEvent.event) := by
  have hstep : ∀ s r e, s.Calm ∧ s.toReader = r → Keeps t s e →
      (step t s e).Calm ∧ (step t s e).toReader = (P2pServer.handlers t).step r e.event := by
    rintro s r e ⟨hs, rfl⟩ hk
    refine ⟨calm_step hs hk, ?_⟩
    cases step_cases t s e with
    | waits _ hr => exact hr hs.settled
    | closes _ hr => exact hr
    | delivers msg hd _ hr =>
      rw [List.count_eq_zero_of_not_mem (hk msg hd)] at hr
      simpa using hr
  have hrun : sessionAfter t b (es.map SessionEvent.event) =
      run (fun r e => (P2pServer.handlers t).step r e.event) ((P2pServer.handlers t).opened b) es := List.foldl_map
  rw [hrun]
  exact (run_rel (R := fun s r => s.Calm ∧ s.toReader = r) hstep ⟨calm_accept t b, rfl⟩ h).2

end Session

/-! ## The server of a node -/

namespace NodeServer

variable {t : Target} {peers : List (List UInt8 × PeerInfo)} {msg : List UInt8}

/-- The peer of a message is registered, with the host and the port of the message. -/
def Registered (t : Target) (peers : List (List UInt8 × PeerInfo)) (msg : List UInt8) : Prop :=
  ∃ nodeId host, upTo 0 (msg.drop t.offsetNodeId) = some nodeId ∧ upTo 0 (msg.drop t.offsetHost) = some host ∧
    findPeer peers nodeId = some ⟨nodeId, host, Target.readUnsigned msg t.offsetPort 2⟩

/-- What happens to a session of a node server. -/
def event (t : Target) (peers : List (List UInt8 × PeerInfo)) (e : ReadEvent) : SessionEvent where
  event := e
  handler msg := (onMessage t peers msg).getD []

@[simp] theorem event_handler (e : ReadEvent) (msg : List UInt8) :
    (event t peers e).handler msg = (onMessage t peers msg).getD [] := rfl

theorem closeSession_mem_onPeerMessagePeerNotify {as : List Action} {n : Nat}
    (h : onPeerMessagePeerNotify t peers msg = some (as, n)) : .closeSession ∈ as ↔ ¬Registered t peers msg := by
  unfold Registered
  obtain ⟨nodeId, hn, ⟨hp, rfl, -⟩ | ⟨peer, host, hp, hh, hpeer⟩⟩ := onPeerMessagePeerNotify_cases h
  · refine iff_of_true List.mem_cons_self ?_
    rintro ⟨_, _, hn', -, hp'⟩
    obtain rfl := Option.some.inj (hn.symm.trans hn')
    rw [hp] at hp'
    cases hp'
  · split at hpeer
    · rename_i heq
      obtain ⟨rfl, -⟩ := hpeer
      exact iff_of_false (by simp) fun hr => hr ⟨nodeId, host, hn, hh, heq ▸ hp⟩
    · rename_i hne
      obtain ⟨rfl, -⟩ := hpeer
      refine iff_of_true List.mem_cons_self ?_
      rintro ⟨_, _, hn', hh', hp'⟩
      obtain rfl := Option.some.inj (hn.symm.trans hn')
      obtain rfl := Option.some.inj (hh.symm.trans hh')
      exact hne (Option.some.inj (hp.symm.trans hp'))

/-- Only a peer that is not registered has its session closed. -/
theorem closeSession_mem_onMessage {as : List Action} (h : onMessage t peers msg = some as) :
    .closeSession ∈ as ↔ t.msgid msg = nodeMessagePeerNotifyId ∧ ¬Registered t peers msg := by
  unfold onMessage at h
  split at h
  · rename_i hid
    obtain rfl := Option.some.inj h
    exact iff_of_false (by simp [onPeerMessagePing]) fun hr => absurd (hid.symm.trans hr.1) (by decide)
  split at h
  · rename_i hid
    obtain rfl := Option.some.inj h
    exact iff_of_false List.not_mem_nil fun hr => absurd (hid.symm.trans hr.1) (by decide)
  split at h
  · rename_i hid
    obtain ⟨⟨as', n⟩, hnotify, rfl⟩ := Option.map_eq_some_iff.mp h
    rw [closeSession_mem_onPeerMessagePeerNotify hnotify, and_iff_right hid]
  · rename_i hid
    obtain rfl := Option.some.inj h
    exact iff_of_false List.not_mem_nil fun hr => hid hr.1

/-- The server of a node keeps a session open unless a peer that is not registered is
delivered. -/
theorem keeps_event_iff {s : Session} {e : ReadEvent} : s.Keeps t (event t peers e) ↔
    ∀ msg as, s.delivered t (event t peers e) = some msg → onMessage t peers msg = some as →
      t.msgid msg = nodeMessagePeerNotifyId → Registered t peers msg := by
  constructor
  · intro hk msg as hd has hid
    have hclose := hk msg hd
    rw [event_handler, has, Option.getD_some, closeSession_mem_onMessage has] at hclose
    by_contra hr
    exact hclose ⟨hid, hr⟩
  · intro h msg hd hclose
    cases has : onMessage t peers msg with
    | none => simp [has] at hclose
    | some as =>
      rw [event_handler, has, Option.getD_some, closeSession_mem_onMessage has] at hclose
      exact hclose.2 (h msg as hd has hclose.1)

end NodeServer

/-! ## Sessions that are reported once -/

namespace Session

open NodeServer (event)

/-- A session is reported disconnected once at most, in every run in which no message is
delivered whose handler closes it, and in no other once its last read has completed. No
message is delivered to a disconnected session in any run. -/
theorem disconnected_once_iff (t : Target) (b : SessionBuffer 32 maxMessageLength) (es : List SessionEvent) :
    let s := run (step t) (accept t b) es
    (Along (step t) (Keeps t) (accept t b) es → DisconnectedOnce s.callbacks) ∧
      (Settled s → (DisconnectedOnce s.callbacks ↔ Along (step t) (Keeps t) (accept t b) es)) ∧
      DisconnectedLast s.callbacks := by
  intro s
  by_cases h : Along (step t) (Keeps t) (accept t b) es
  · obtain ⟨k, hk, hr⟩ : ∃ k ≤ 1, s.Reports k := by
      cases calm_run b h with
      | opened _ hr => exact ⟨0, Nat.zero_le 1, hr⟩
      | closed _ _ hr => exact ⟨1, Nat.le_refl 1, hr⟩
    have honce := hr.disconnectedOnce_iff.mpr hk
    exact ⟨fun _ => honce, fun _ => iff_of_true honce h, honce.last⟩
  · obtain ⟨hc, k, hr, ho⟩ : s.Rejected :=
      run_of_not_along (fun _ _ hs hk => calm_step hs hk) (fun _ _ hs hk => rejected_of_calm hs hk)
        (fun _ e hs => rejected_step hs e) (calm_accept t b) h
    refine ⟨fun h' => absurd h' h, fun hsettled => iff_of_false (fun honce => ?_) h, hr.last⟩
    have hk := ho (hsettled.resolve_left (by rw [hc]; exact Bool.false_ne_true))
    have := hr.disconnectedOnce_iff.mp honce
    omega

/-- A ping, answered, and the end of the connection. -/
theorem disconnected_once_iff_sample :
    let es : List SessionEvent := [.arrive (ping 24 [0, 0, 7, 0, 0, 0, 0, 0, 0, 0]), .complete, .complete, .error].map
      (event .x64 [])
    DisconnectedOnce (run (step .x64) (accept .x64 (.zeros (Nat.zero_lt_succ 31))) es).callbacks :=
  (disconnected_once_iff _ _ _).1 (by decide +kernel)

/-- A peer that is not registered: `onPeerMessagePeerNotify` closes its session, and the read
that is started then fails and closes it again. -/
theorem disconnected_twice :
    let b : SessionBuffer 32 maxMessageLength := .zeros (Nat.zero_lt_succ 31)
    let es : List SessionEvent := [.arrive (CPeer.onConnected .x64 [110, 111, 100, 101, 49] localhost 8000), .complete,
      .complete, .error].map (event .x64 [])
    let s := run (step .x64) (accept .x64 b) es
    s.callbacks.count .onDisconnected = 2 ∧ ¬DisconnectedOnce s.callbacks := by
  intro b es s
  have htwice : s.callbacks.count .onDisconnected = 2 := by decide +kernel
  refine ⟨htwice, fun h => ?_⟩
  have := h.once
  omega

end Session

end Bryllite.P2p
