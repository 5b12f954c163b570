import Bryllite.Framework.Patch
import Mathlib.Logic.Function.Basic

/-!
# Session buffers

The class `session_buffer` of `byte_stream.hpp`: slots of memory that are used
in turn. The position is always that of a slot, and bytes are copied into a slot
within its bounds only.
-/

namespace Bryllite.P2p

open Bryllite.Framework

/-- `max_message_length`. -/
def maxMessageLength : Nat := 64 * 1024

/-- `session_buffer`. -/
structure SessionBuffer (count length : Nat) where
  data : Nat → List UInt8
  currentPos : Nat
  length_data (slot : Nat) : (data slot).length = length + 1
  currentPos_lt : currentPos < count

namespace SessionBuffer

variable {count length : Nat}

/-- `get`, the slot at the position. -/
def get (b : SessionBuffer count length) : Nat := b.currentPos

/-- `next`, without the slot it returns. -/
def next (b : SessionBuffer count length) : SessionBuffer count length :=
  { b with
    currentPos := (b.currentPos + 1) % count
    currentPos_lt := Nat.mod_lt _ (Nat.zero_lt_of_lt b.currentPos_lt) }

/-- The bytes `bs` are copied into a slot, from `off` on. -/
def copy (slot off : Nat) (bs : List UInt8) (h : off + bs.length ≤ length) (b : SessionBuffer count length) :
    SessionBuffer count length :=
  { b with
    data := Function.update b.data slot (patch (b.data slot) off bs)
    length_data := fun k => by
      rw [Function.update_apply]
      split
      · rw [length_patch, b.length_data]
        rw [b.length_data]
        exact Nat.le_succ_of_le h
      · exact b.length_data k }

/-- The memory from a slot on: the slot, and those behind it. -/
def memory (slot : Nat) (b : SessionBuffer count length) : List UInt8 :=
  b.data slot ++ (List.range' (slot + 1) (count - slot)).flatMap b.data

/-- A new buffer, whose slots hold anything. -/
def new (data : Nat → List UInt8) (h : ∀ slot, (data slot).length = length + 1) (hc : 0 < count) :
    SessionBuffer count length where
  data := data
  currentPos := 0
  length_data := h
  currentPos_lt := hc

/-- A new buffer of zeros. -/
def zeros (hc : 0 < count) : SessionBuffer count length :=
  new (fun _ => List.replicate (length + 1) 0) (fun _ => List.length_replicate) hc

end SessionBuffer

end Bryllite.P2p
