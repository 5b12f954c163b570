import Bryllite.Framework.Framing
import Bryllite.Framework.Patch
import Bryllite.P2p.SessionBuffer
import Mathlib.Data.Nat.Digits.Defs

/-!
# Messages (message.inl)

A message is memory that begins with a packed header: a signature, the size of
the message in a `size_t`, least significant byte first, and an id. The methods
of the header read that memory, and `Target.framing` is what they make of a
stream of bytes.
-/

namespace Bryllite.P2p

open Bryllite.Framework

/-- The targets of the build, by their `size_t`. -/
inductive Target where
  | x86
  | x64

namespace Target

/-- `sizeof(size_t)`. -/
def sizeofSizeT : Target → Nat
  | x86 => 4
  | x64 => 8

/-- `sizeof(message)`: the signature, the size and the id. -/
def sizeofMessage (t : Target) : Nat := 4 + t.sizeofSizeT + 2

/-- `_signature` of a new header, `"BRC"` with its terminator. -/
def signature : List UInt8 := [66, 82, 67, 0]

/-- `size`. -/
def size (t : Target) (mem : List UInt8) : Nat :=
  Nat.ofDigits 256 ((slice mem 4 t.sizeofSizeT).map UInt8.toNat)

/-- `payload_size`. -/
def payloadSize (t : Target) (mem : List UInt8) : Nat :=
  if t.sizeofMessage < t.size mem then t.size mem - t.sizeofMessage else 0

/-- `valid`. -/
def valid (t : Target) (mem : List UInt8) : Bool :=
  slice mem 0 4 == signature && (t.sizeofMessage ≤ t.size mem && t.size mem ≤ maxMessageLength)

variable {t : Target} {mem : List UInt8}

theorem sizeofMessage_pos (t : Target) : 0 < t.sizeofMessage := Nat.succ_pos _

theorem sizeofMessage_le (t : Target) : t.sizeofMessage ≤ maxMessageLength := by
  cases t <;> decide

/-- The header is what the methods read. -/
theorem size_take (t : Target) (mem : List UInt8) : t.size (mem.take t.sizeofMessage) = t.size mem := by
  have h : 4 + t.sizeofSizeT ≤ t.sizeofMessage := Nat.le_add_right _ 2
  rw [size, slice_take h, ← size]

theorem valid_take (t : Target) (mem : List UInt8) : t.valid (mem.take t.sizeofMessage) = t.valid mem := by
  have h : 0 + 4 ≤ t.sizeofMessage := by
    unfold sizeofMessage
    omega
  rw [valid, size_take, slice_take h, ← valid]

/-- Memory with the same header. -/
theorem size_congr {mem' : List UInt8} (h : mem.take t.sizeofMessage = mem'.take t.sizeofMessage) :
    t.size mem = t.size mem' := by
  rw [← size_take, h, size_take]

theorem valid_congr {mem' : List UInt8} (h : mem.take t.sizeofMessage = mem'.take t.sizeofMessage) :
    t.valid mem = t.valid mem' := by
  rw [← valid_take, h, valid_take]

theorem payloadSize_congr {mem' : List UInt8} (h : mem.take t.sizeofMessage = mem'.take t.sizeofMessage) :
    t.payloadSize mem = t.payloadSize mem' := by
  rw [payloadSize, payloadSize, size_congr h]

theorem le_size (h : t.valid mem) : t.sizeofMessage ≤ t.size mem := by
  simp only [valid, Bool.and_eq_true, decide_eq_true_eq] at h
  exact h.2.1

theorem size_le (h : t.valid mem) : t.size mem ≤ maxMessageLength := by
  simp only [valid, Bool.and_eq_true, decide_eq_true_eq] at h
  exact h.2.2

/-- The payload of a valid header is what it announces beyond itself. -/
theorem sizeofMessage_add_payloadSize (h : t.valid mem) :
    t.sizeofMessage + t.payloadSize mem = t.size mem := by
  have := le_size h
  unfold payloadSize
  split <;> omega

/-- Headers in a stream. -/
def framing (t : Target) : Framing UInt8 where
  headerLen := t.sizeofMessage
  size header := if t.valid header then some (t.size header) else none
  headerLen_pos := t.sizeofMessage_pos
  headerLen_le header n h := by
    split at h
    · rename_i hv
      rw [← Option.some.inj h]
      exact le_size hv
    · cases h

theorem framing_size_of_valid (h : t.valid mem) :
    t.framing.size (mem.take t.framing.headerLen) = some (t.size mem) := by
  show (if t.valid (mem.take t.sizeofMessage) then some (t.size (mem.take t.sizeofMessage)) else none) = _
  rw [valid_take, if_pos h, size_take]

theorem framing_size_of_not_valid (h : t.valid mem = false) :
    t.framing.size (mem.take t.framing.headerLen) = none := by
  show (if t.valid (mem.take t.sizeofMessage) then some (t.size (mem.take t.sizeofMessage)) else none) = _
  rw [valid_take, if_neg (by rw [h]; exact Bool.false_ne_true)]

/-- A valid header with as many bytes as it announces is a frame. -/
theorem isFrame (h : t.valid mem) (hm : mem.length = t.size mem) : t.framing.IsFrame mem := by
  rw [Framing.IsFrame, framing_size_of_valid h, hm]

end Target

/-- A valid message: memory that holds all that its header announces. -/
structure Message (t : Target) where
  mem : List UInt8
  valid : t.valid mem
  size_le : t.size mem ≤ mem.length

/-- The `size()` bytes of a message. -/
def Message.bytes {t : Target} (m : Message t) : List UInt8 := m.mem.take (t.size m.mem)

namespace Message

variable {t : Target} (m : Message t)

theorem length_bytes : m.bytes.length = t.size m.mem := List.length_take_of_le m.size_le

theorem take_bytes : m.bytes.take t.sizeofMessage = m.mem.take t.sizeofMessage := by
  rw [bytes, List.take_take, Nat.min_eq_left (Target.le_size m.valid)]

theorem isFrame : t.framing.IsFrame m.bytes := by
  apply Target.isFrame
  · rw [Target.valid_congr m.take_bytes]
    exact m.valid
  · rw [Target.size_congr m.take_bytes, length_bytes]

end Message

end Bryllite.P2p
