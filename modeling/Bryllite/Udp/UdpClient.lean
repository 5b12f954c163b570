import Bryllite.Framework.Run
import Bryllite.P2p.Message
import Bryllite.Udp.Streambuf

/-!
# Received datagrams (udp_client.hpp)

The client receives a datagram into a stream buffer, and calls `onUdpClientMessage` with
the memory where it begins if that has a valid header, whatever the length of the
datagram. Every datagram is parsed from its own first byte, also if sends complete in
between, which consume from the same buffer. But a message is complete exactly if its
header was received, and does not announce more than was (`datagrams_complete_iff`).
-/

namespace Bryllite.Udp

open Bryllite.Framework
open Bryllite.P2p (Target maxMessageLength)

/-- A completion of `async_receive_from`, with the bytes it has received. -/
structure Completion where
  error : Bool
  bytes : List UInt8
  length_le : bytes.length ≤ maxMessageLength

/-- What happens to a client: a receive completes, or a send does. -/
inductive ClientEvent where
  | receive (e : Completion)
  | send (bytesTransferred : Nat)

/-- The datagram that is received. -/
def ClientEvent.datagram : ClientEvent → List UInt8
  | receive e => e.bytes
  | send _ => []

/-- `udp_client`, with the calls of `onUdpClientMessage`: the memory at each message. -/
structure UdpClient (S : Streambuf) where
  readBuffer : S.Buffer
  messages : List (List UInt8) := []

namespace UdpClient

variable {S : Streambuf}

/-- `do_read`. -/
def doRead (c : UdpClient S) : UdpClient S := { c with readBuffer := S.prepare maxMessageLength c.readBuffer }

/-- `udp_client_start` of a new client. -/
def start (S : Streambuf) : UdpClient S := doRead { readBuffer := S.new }

/-- The memory that is parsed after a completion. -/
def parsed (c : UdpClient S) (e : Completion) : List UInt8 :=
  S.memory (S.commit e.bytes.length (S.receive e.bytes c.readBuffer))

/-- `_on_receive_from`. -/
def onReceiveFrom (t : Target) (c : UdpClient S) (e : Completion) : UdpClient S :=
  let bytesTransferred := e.bytes.length
  let readBuffer := S.receive e.bytes c.readBuffer
  if !e.error && 0 < bytesTransferred then
    let readBuffer := S.commit bytesTransferred readBuffer
    let msg := S.memory readBuffer
    let messages := if t.valid msg then c.messages ++ [msg] else c.messages
    doRead { readBuffer := S.consume bytesTransferred readBuffer, messages := messages }
  else doRead { c with readBuffer := readBuffer }

/-- `_on_send_to`, which consumes from the read buffer. -/
def onSendTo (bytesTransferred : Nat) (c : UdpClient S) : UdpClient S :=
  { c with readBuffer := S.consume bytesTransferred c.readBuffer }

/-- What one event does. -/
def step (t : Target) (c : UdpClient S) : ClientEvent → UdpClient S
  | .receive e => c.onReceiveFrom t e
  | .send bytesTransferred => c.onSendTo bytesTransferred

/-- `onUdpClientMessage` is called with `msg` in an event. -/
def Calls (t : Target) (c : UdpClient S) (e : ClientEvent) (msg : List UInt8) : Prop :=
  (c.step t e).messages = c.messages ++ [msg]

/-- The message is the datagram: its header was received, and all the bytes it announces. -/
structure Complete (t : Target) (datagram msg : List UInt8) : Prop where
  header : t.sizeofMessage ≤ datagram.length
  size : t.size msg ≤ datagram.length
  own : msg.take (t.size msg) = datagram.take (t.size msg)

/-- `onUdpClientMessage` is called only with a complete message. -/
def CallsComplete (t : Target) (c : UdpClient S) (e : ClientEvent) : Prop :=
  ∀ msg, c.Calls t e msg → Complete t e.datagram msg

/-- The header of what was received is not valid, or announces no more than that; one that
was not received whole is not valid with what is left in the buffer behind it. -/
def Announces (t : Target) (c : UdpClient S) : ClientEvent → Prop
  | .receive e =>
    e.error = false → e.bytes ≠ [] →
      if t.sizeofMessage ≤ e.bytes.length then t.valid e.bytes → t.size e.bytes ≤ e.bytes.length
      else ¬t.valid (e.bytes ++ (c.parsed e).drop e.bytes.length)
  | .send _ => True

/-- The buffer was prepared for a datagram, and holds no committed bytes. -/
def Ready (c : UdpClient S) : Prop := ∃ b, c.readBuffer = S.prepare maxMessageLength b ∧ S.data b = []

variable {t : Target} {c : UdpClient S} {e : Completion}

theorem messages_onReceiveFrom (t : Target) (c : UdpClient S) (e : Completion) :
    (c.onReceiveFrom t e).messages =
      if e.error = false ∧ e.bytes ≠ [] ∧ t.valid (c.parsed e) then c.messages ++ [c.parsed e] else c.messages := by
  have hguard : (!e.error && decide (0 < e.bytes.length)) = true ↔ e.error = false ∧ e.bytes ≠ [] := by
    simp [List.length_pos_iff]
  unfold onReceiveFrom
  dsimp only
  by_cases h : e.error = false ∧ e.bytes ≠ []
  · rw [if_pos (hguard.mpr h)]
    simp only [h.1, h.2, ne_eq, not_false_eq_true, true_and]
    rfl
  · rw [if_neg fun hg => h (hguard.mp hg), if_neg fun hg => h ⟨hg.1, hg.2.1⟩]
    rfl

theorem calls_iff {msg : List UInt8} :
    c.Calls t (.receive e) msg ↔ e.error = false ∧ e.bytes ≠ [] ∧ t.valid (c.parsed e) ∧ msg = c.parsed e := by
  rw [Calls, step, messages_onReceiveFrom]
  split
  · rename_i h
    simp [h.1, h.2.1, h.2.2, eq_comm]
  · rename_i h
    refine iff_of_false (fun he => ?_) fun he => h ⟨he.1, he.2.1, he.2.2.1⟩
    exact List.cons_ne_nil msg [] (List.self_eq_append_right.mp he)

theorem not_calls_send (n : Nat) (msg : List UInt8) : ¬c.Calls t (.send n) msg := fun h =>
  List.cons_ne_nil msg [] (List.self_eq_append_right.mp h)

theorem ready_start (hS : S.Documented) : (start S).Ready := ⟨S.new, rfl, hS.data_new⟩

theorem Ready.data (hS : S.Documented) (h : c.Ready) : S.data c.readBuffer = [] := by
  obtain ⟨b, hb, hdata⟩ := h
  rw [hb, hS.data_prepare, hdata]

/-- The input sequence is the datagram. -/
theorem Ready.data_commit (hS : S.Documented) (h : c.Ready) (e : Completion) :
    S.data (S.commit e.bytes.length (S.receive e.bytes c.readBuffer)) = e.bytes := by
  obtain ⟨b, hb, hdata⟩ := h
  rw [hb, hS.data_commit _ _ _ e.length_le, hdata, List.nil_append]

theorem Ready.isPrefix (hS : S.Documented) (h : c.Ready) (e : Completion) : e.bytes <+: c.parsed e := by
  have hp := hS.data_prefix (S.commit e.bytes.length (S.receive e.bytes c.readBuffer))
  rwa [h.data_commit hS] at hp

theorem Ready.onReceiveFrom (hS : S.Documented) (h : c.Ready) (e : Completion) : (c.onReceiveFrom t e).Ready := by
  unfold UdpClient.onReceiveFrom
  dsimp only
  split
  · refine ⟨_, rfl, ?_⟩
    rw [hS.data_consume, h.data_commit hS, List.drop_length]
  · refine ⟨_, rfl, ?_⟩
    rw [hS.data_receive, h.data hS]

/-- There is nothing in the buffer that a send could consume. -/
theorem Ready.onSendTo (hS : S.Documented) (h : c.Ready) (n : Nat) : c.onSendTo n = c := by
  unfold UdpClient.onSendTo
  rw [hS.consume_empty n _ (h.data hS)]

theorem ready_step (hS : S.Documented) (h : c.Ready) (e : ClientEvent) : (c.step t e).Ready := by
  cases e with
  | receive e => exact h.onReceiveFrom hS e
  | send n =>
    rw [step, h.onSendTo hS]
    exact h

theorem ready_run (hS : S.Documented) (es : List ClientEvent) : (run (step t) (start S) es).Ready :=
  run_inv_of_all (fun _ e h => ready_step hS h e) (ready_start hS)

/-- What one datagram decides. -/
theorem Ready.callsComplete_receive (hS : S.Documented) (h : c.Ready) :
    c.CallsComplete t (.receive e) ↔ c.Announces t (.receive e) := by
  obtain ⟨behind, hparsed⟩ := h.isPrefix hS e
  unfold CallsComplete Announces
  simp only [calls_iff, ← hparsed, List.drop_left]
  have htake : t.sizeofMessage ≤ e.bytes.length →
      (e.bytes ++ behind).take t.sizeofMessage = e.bytes.take t.sizeofMessage := List.take_append_of_le_length
  constructor
  · intro hall herror hne
    split
    · rename_i hlen
      intro hv
      rw [← Target.valid_congr (htake hlen)] at hv
      rw [← Target.size_congr (htake hlen)]
      exact (hall _ ⟨herror, hne, hv, rfl⟩).size
    · rename_i hlen
      exact fun hv => hlen (hall _ ⟨herror, hne, hv, rfl⟩).header
  · rintro hann msg ⟨herror, hne, hv, rfl⟩
    have hfit := hann herror hne
    split at hfit
    · rename_i hlen
      rw [Target.valid_congr (htake hlen)] at hv
      have hsize := hfit hv
      rw [← Target.size_congr (htake hlen)] at hsize
      exact ⟨hlen, hsize, List.take_append_of_le_length hsize⟩
    · exact absurd hv hfit

theorem Ready.callsComplete_iff (hS : S.Documented) (h : c.Ready) (e : ClientEvent) :
    c.CallsComplete t e ↔ c.Announces t e := by
  cases e with
  | receive e => exact h.callsComplete_receive hS
  | send n => exact iff_of_true (fun msg hm => absurd hm (not_calls_send n msg)) trivial

/-- Only complete messages are passed on in a run exactly if every datagram of it that has
a valid header is as long as it announces, and none that is shorter than a header is valid
with what is left behind it. In every run the buffer is empty after each completion, and
the next datagram is parsed from its first byte. -/
theorem datagrams_complete_iff (hS : S.Documented) (es : List ClientEvent) :
    (Along (step t) (CallsComplete t) (start S) es ↔ Along (step t) (Announces t) (start S) es) ∧
      S.data (run (step t) (start S) es).readBuffer = [] ∧
      ∀ e, e.bytes <+: (run (step t) (start S) es).parsed e := by
  have hready := ready_run (t := t) hS es
  refine ⟨?_, hready.data hS, hready.isPrefix hS⟩
  exact along_iff_of_inv (I := Ready) (fun _ e h => h.callsComplete_iff hS e) (fun _ e h _ => ready_step hS h e)
    (ready_start hS)

/-- A datagram of 14 bytes, the header of a message of `size` bytes on a 64-bit target. -/
def header (size : UInt8) : Completion where
  error := false
  bytes := [66, 82, 67, 0, size, 0, 0, 0, 0, 0, 0, 0, 101, 0]
  length_le := by
    show 14 ≤ 64 * 1024
    decide

/-- A datagram of one byte. -/
def byte (b : UInt8) : Completion where
  error := false
  bytes := [b]
  length_le := by
    show 1 ≤ 64 * 1024
    decide

/-- A message, a byte that no message begins with, a send, and a message. -/
theorem datagrams_complete_iff_sample :
    Along (step .x64) (CallsComplete .x64) (start .sample)
      [.receive (header 14), .receive (byte 67), .send 20, .receive (header 14)] := by
  rw [(datagrams_complete_iff Streambuf.sample_documented _).1]
  simp only [along_cons, along_nil, Announces]
  decide +kernel

/-- A datagram of 14 bytes is passed on as a message of 100 bytes, and one of a single byte
as a message if a message was received before it. -/
theorem datagrams_leftover :
    (∃ msg, (start .sample).Calls .x64 (.receive (header 100)) msg ∧ Target.x64.size msg = 100) ∧
      (∃ msg, ((start .sample).onReceiveFrom .x64 (header 14)).Calls .x64 (.receive (byte 66)) msg) ∧
      ¬Along (step .x64) (CallsComplete .x64) (start .sample) [.receive (header 100)] ∧
      ¬Along (step .x64) (CallsComplete .x64) (start .sample) [.receive (header 14), .receive (byte 66)] := by
  have hlong : (start .sample).Calls .x64 (.receive (header 100)) _ :=
    calls_iff.mpr ⟨rfl, by decide, by decide +kernel, rfl⟩
  have hshort : ((start .sample).onReceiveFrom .x64 (header 14)).Calls .x64 (.receive (byte 66)) _ :=
    calls_iff.mpr ⟨rfl, by decide, by decide +kernel, rfl⟩
  refine ⟨⟨_, hlong, by decide +kernel⟩, ⟨_, hshort⟩, fun h => ?_, fun h => ?_⟩
  · exact absurd (h.1 _ hlong).size (by decide +kernel)
  · exact absurd (h.2.1 _ hshort).header (by decide)

end UdpClient

end Bryllite.Udp
