import Bryllite.Framework.Run
import Bryllite.P2p.Message

/-!
# Reads (p2p_client and p2p_server)

A reader reads a header into the next slot of its read buffer, then the rest of
the message behind it, then the next header. What has arrived is transferred by
`async_read`, which calls the handler once it has exactly the bytes asked for,
as far as the buffer passed to it goes, or with an error. The client and a
session of the server are read by functions of their own; `Receives` is what
they have in common.
-/

namespace Bryllite.P2p

open Bryllite.Framework

variable {count : Nat}

/-- The handlers that are bound to a read. -/
inductive ReadHandler where
  | header
  | body
  deriving DecidableEq

/-- A call of `async_read`: the buffer at `off` in a slot, with room for `max`
bytes, and how many are to be transferred exactly. -/
structure ReadOp where
  slot : Nat
  off : Nat
  max : Nat
  exactly : Nat
  handler : ReadHandler
  fits : off + max ≤ maxMessageLength

/-- The bytes a read transfers. -/
def ReadOp.transfer (op : ReadOp) : Nat := min op.exactly op.max

theorem ReadOp.off_add_transfer_le (op : ReadOp) : op.off + op.transfer ≤ maxMessageLength :=
  Nat.le_trans (Nat.add_le_add_left (Nat.min_le_right _ _) _) op.fits

/-- An open connection as it is read: the read that is outstanding, the bytes
that have arrived and how many of these were transferred, and the messages that
were passed on. -/
structure Reader (count : Nat) where
  buffer : SessionBuffer count maxMessageLength
  connected : Bool := true
  op : Option ReadOp := none
  arrived : List UInt8 := []
  taken : Nat := 0
  received : List (List UInt8) := []

namespace Reader

/-- The bytes that were not transferred yet. -/
def unread (r : Reader count) : List UInt8 := r.arrived.drop r.taken

/-- `close` and `close_session`. -/
def close (r : Reader count) : Reader count := { r with connected := false }

/-- `onReceived` and `onMessage`: the message at a header is passed on. -/
def onReceived (t : Target) (header : List UInt8) (r : Reader count) : Reader count :=
  { r with received := r.received ++ [header.take (t.size header)] }

end Reader

/-! ## p2p_client -/

namespace P2pClient

/-- `do_read`. -/
def doRead (t : Target) (r : Reader count) : Reader count :=
  if r.connected then
    let buffer := r.buffer.next
    { r with
      buffer := buffer
      op := some {
        slot := buffer.get
        off := 0
        max := maxMessageLength
        exactly := t.sizeofMessage
        handler := .header
        fits := by omega } }
  else r

/-- `handle_read_header`. -/
def handleReadHeader (t : Target) (error : Bool) (bytesTransferred : Nat) (h : bytesTransferred ≤ maxMessageLength)
    (r : Reader count) : Reader count :=
  if error then r.close
  else if bytesTransferred < t.sizeofMessage then r.close
  else
    let slot := r.buffer.get
    let header := r.buffer.data slot
    if !t.valid header then r.close
    else
      { r with
        op := some {
          slot := slot
          off := bytesTransferred
          max := maxMessageLength - bytesTransferred
          exactly := t.payloadSize header
          handler := .body
          fits := by omega } }

/-- `handle_read_body`, with the slot of the header. -/
def handleReadBody (t : Target) (error : Bool) (bytesTransferred slot : Nat) (r : Reader count) : Reader count :=
  let header := r.buffer.data slot
  if error then r.close
  else if t.size header > bytesTransferred + t.sizeofMessage then r.close
  else if !t.valid header || bytesTransferred + t.sizeofMessage < t.size header then r.close
  else doRead t (r.onReceived t header)

end P2pClient

/-! ## p2p_server -/

namespace P2pServer

/-- `session_read_header`. -/
def sessionReadHeader (t : Target) (r : Reader count) : Reader count :=
  let buffer := r.buffer.next
  { r with
    buffer := buffer
    op := some {
      slot := buffer.get
      off := 0
      max := maxMessageLength
      exactly := t.sizeofMessage
      handler := .header
      fits := by omega } }

/-- `session_read_body`, with the slot of the header. -/
def sessionReadBody (t : Target) (slot : Nat) (r : Reader count) : Reader count :=
  { r with
    op := some {
      slot := slot
      off := t.sizeofMessage
      max := maxMessageLength - t.sizeofMessage
      exactly := t.payloadSize (r.buffer.data slot)
      handler := .body
      fits := by
        have := t.sizeofMessage_le
        omega } }

/-- `handle_session_read_header`. -/
def handleSessionReadHeader (t : Target) (error : Bool) (_bytesTransferred : Nat)
    (_h : _bytesTransferred ≤ maxMessageLength) (r : Reader count) : Reader count :=
  if error then r.close
  else
    let slot := r.buffer.get
    let header := r.buffer.data slot
    if !t.valid header then r.close
    else sessionReadBody t slot r

/-- `handle_session_read_body`, with the slot of the header. -/
def handleSessionReadBody (t : Target) (error : Bool) (bytesTransferred slot : Nat) (r : Reader count) :
    Reader count :=
  let header := r.buffer.data slot
  if error then r.close
  else if t.size header < bytesTransferred + t.sizeofMessage then r.close
  else if !t.valid header then r.close
  else sessionReadHeader t (r.onReceived t header)

end P2pServer

/-! ## Events -/

/-- The functions that read a connection. -/
structure ReadHandlers (count : Nat) where
  start : Reader count → Reader count
  header : Bool → (bytesTransferred : Nat) → bytesTransferred ≤ maxMessageLength → Reader count → Reader count
  body : Bool → (bytesTransferred slot : Nat) → Reader count → Reader count

/-- Those of the client. -/
def P2pClient.handlers (t : Target) : ReadHandlers count where
  start := doRead t
  header := handleReadHeader t
  body := handleReadBody t

/-- Those of the server. -/
def P2pServer.handlers (t : Target) : ReadHandlers count where
  start := sessionReadHeader t
  header := handleSessionReadHeader t
  body := handleSessionReadBody t

/-- What happens to a connection: bytes arrive, and the outstanding read
completes or fails. -/
inductive ReadEvent where
  | arrive (bs : List UInt8)
  | complete
  | error
  deriving DecidableEq

/-- The bytes that arrive. -/
def ReadEvent.bytes : ReadEvent → List UInt8
  | arrive bs => bs
  | complete => []
  | error => []

/-- The stream of bytes that arrives. -/
def stream (es : List ReadEvent) : List UInt8 := es.flatMap ReadEvent.bytes

/-- The bytes of a read are in its slot. -/
def Reader.transfer (op : ReadOp) (r : Reader count) (h : op.transfer ≤ r.unread.length) : Reader count :=
  { r with
    buffer := r.buffer.copy op.slot op.off (r.unread.take op.transfer) (by
      rw [List.length_take_of_le h]
      exact op.off_add_transfer_le)
    op := none
    taken := r.taken + op.transfer }

namespace ReadHandlers

/-- The call of the handler of a read. -/
def call (hs : ReadHandlers count) (op : ReadOp) (error : Bool) (bytesTransferred : Nat)
    (h : bytesTransferred ≤ maxMessageLength) (r : Reader count) : Reader count :=
  match op.handler with
  | .header => hs.header error bytesTransferred h r
  | .body => hs.body error bytesTransferred op.slot r

/-- A read completes only once its bytes have arrived. -/
def step (hs : ReadHandlers count) (r : Reader count) : ReadEvent → Reader count
  | .arrive bs => { r with arrived := r.arrived ++ bs }
  | .complete =>
    match r.op with
    | none => r
    | some op =>
      if h : op.transfer ≤ r.unread.length then
        hs.call op false op.transfer (Nat.le_trans (Nat.le_add_left _ _) op.off_add_transfer_le) (r.transfer op h)
      else r
  | .error =>
    match r.op with
    | none => r
    | some op => hs.call op true 0 (Nat.zero_le _) { r with op := none }

variable {hs : ReadHandlers count} {r : Reader count} {op : ReadOp}

theorem step_of_none (ho : r.op = none) : hs.step r .complete = r ∧ hs.step r .error = r := by
  unfold step
  rw [ho]
  exact ⟨rfl, rfl⟩

theorem step_waiting (ho : r.op = some op) (hu : r.unread.length < op.transfer) : hs.step r .complete = r := by
  unfold step
  rw [ho]
  exact dif_neg (Nat.not_le.mpr hu)

theorem step_complete (ho : r.op = some op) (hu : op.transfer ≤ r.unread.length) : hs.step r .complete =
    hs.call op false op.transfer (Nat.le_trans (Nat.le_add_left _ _) op.off_add_transfer_le) (r.transfer op hu) := by
  unfold step
  rw [ho]
  exact dif_pos hu

theorem step_error (ho : r.op = some op) :
    hs.step r .error = hs.call op true 0 (Nat.zero_le _) { r with op := none } := by
  unfold step
  rw [ho]

/-- A connection that has been opened, with the slots and the position its
buffer has then. -/
def opened (hs : ReadHandlers count) (buffer : SessionBuffer count maxMessageLength) : Reader count :=
  hs.start { buffer := buffer }

end ReadHandlers

/-! ## What both have in common -/

/-- The read of a header into a slot. -/
def ReadOp.ofHeader (t : Target) (slot : Nat) : ReadOp where
  slot := slot
  off := 0
  max := maxMessageLength
  exactly := t.sizeofMessage
  handler := .header
  fits := by omega

/-- The read of what is left of the message whose header is in a slot. -/
def ReadOp.ofBody (t : Target) (slot : Nat) (header : List UInt8) : ReadOp where
  slot := slot
  off := t.sizeofMessage
  max := maxMessageLength - t.sizeofMessage
  exactly := t.payloadSize header
  handler := .body
  fits := Nat.le_of_eq (Nat.add_sub_cancel' t.sizeofMessage_le)

/-- The next slot is used for a header. -/
def Reader.nextHeader (t : Target) (r : Reader count) : Reader count :=
  { r with buffer := r.buffer.next, op := some (.ofHeader t r.buffer.next.get) }

/-- How a reader goes on where it is called with what `async_read` transfers:
the whole header, then the whole rest of the message. -/
structure Receives (t : Target) (hs : ReadHandlers count) : Prop where
  start (r : Reader count) : r.connected = true → hs.start r = r.nextHeader t
  header (r : Reader count) (n : Nat) (h : n ≤ maxMessageLength) : n = t.sizeofMessage → hs.header false n h r =
    if t.valid (r.buffer.data r.buffer.get) then
      { r with op := some (.ofBody t r.buffer.get (r.buffer.data r.buffer.get)) }
    else r.close
  body (r : Reader count) (slot : Nat) : r.connected = true → t.valid (r.buffer.data slot) →
    hs.body false (t.payloadSize (r.buffer.data slot)) slot r = (r.onReceived t (r.buffer.data slot)).nextHeader t
  error_header (r : Reader count) (n : Nat) (h : n ≤ maxMessageLength) : hs.header true n h r = r.close
  error_body (r : Reader count) (n slot : Nat) : hs.body true n slot r = r.close

/-- Every error closes the connection. -/
theorem Receives.error {t : Target} {hs : ReadHandlers count} (hr : Receives t hs) (op : ReadOp) (n : Nat)
    (h : n ≤ maxMessageLength) (r : Reader count) : hs.call op true n h r = r.close := by
  unfold ReadHandlers.call
  split
  · exact hr.error_header r n h
  · exact hr.error_body r n op.slot

theorem P2pClient.receives (t : Target) : Receives t (@handlers count t) where
  start r hc := if_pos hc
  header r n h hn := by
    subst hn
    show handleReadHeader t false t.sizeofMessage h r = _
    unfold handleReadHeader
    rw [if_neg Bool.false_ne_true, if_neg (Nat.lt_irrefl _)]
    dsimp only
    cases t.valid (r.buffer.data r.buffer.get) <;> rfl
  body r slot hc hv := by
    have hs := Target.sizeofMessage_add_payloadSize hv
    show handleReadBody t false _ slot r = _
    unfold handleReadBody
    dsimp only
    rw [if_neg Bool.false_ne_true, if_neg (by omega), if_neg]
    · exact if_pos hc
    · rw [hv, Bool.not_true, Bool.false_or, decide_eq_true_eq]
      omega
  error_header _ _ _ := rfl
  error_body _ _ _ := rfl

theorem P2pServer.receives (t : Target) : Receives t (@handlers count t) where
  start _ _ := rfl
  header r n h hn := by
    show handleSessionReadHeader t false n h r = _
    unfold handleSessionReadHeader
    rw [if_neg Bool.false_ne_true]
    dsimp only
    cases t.valid (r.buffer.data r.buffer.get) <;> rfl
  body r slot _ hv := by
    have hs := Target.sizeofMessage_add_payloadSize hv
    show handleSessionReadBody t false _ slot r = _
    unfold handleSessionReadBody
    dsimp only
    rw [if_neg Bool.false_ne_true, if_neg (by omega), if_neg]
    · rfl
    · rw [hv, Bool.not_true]
      exact Bool.false_ne_true
  error_header _ _ _ := rfl
  error_body _ _ _ := rfl

end Bryllite.P2p
