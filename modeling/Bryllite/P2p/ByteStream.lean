import Bryllite.Framework.Patch
import Bryllite.Framework.Simulation

/-!
# byte_stream

A `byte_stream` keeps bytes between two positions of a block of memory, which
it replaces by a larger one when a write would not fit. Every `memcpy` is a
`load` and a `store`, which fail outside the block, and new blocks hold anything.
With any calls none of them fails, and the stream is a queue of bytes
(`byteStream_queue`).
-/

namespace Bryllite.P2p

open Bryllite.Framework

/-- `byte_stream`, with `none` for a null pointer. -/
@[ext]
structure ByteStream where
  streamBuffer : Option (List UInt8)
  bufferSize : Nat
  readPos : Nat
  writePos : Nat

/-- A block from `new`, which holds anything. -/
def newBytes (junk : Nat → UInt8) (size : Nat) : List UInt8 := (List.range size).map junk

@[simp] theorem length_newBytes (junk : Nat → UInt8) (size : Nat) : (newBytes junk size).length = size := by
  rw [newBytes, List.length_map, List.length_range]

namespace ByteStream

/-- `byte_stream()`. -/
def new : ByteStream where
  streamBuffer := none
  bufferSize := 0
  readPos := 0
  writePos := 0

/-- The block at the pointer. -/
def memory (s : ByteStream) : List UInt8 := s.streamBuffer.getD []

/-- `cleanup`. -/
def cleanup (_s : ByteStream) : ByteStream where
  streamBuffer := none
  bufferSize := 0
  readPos := 0
  writePos := 0

/-- `allocated`. -/
def allocated (s : ByteStream) : Bool := s.streamBuffer.isSome && 0 < s.bufferSize

/-- `size`. -/
def size (s : ByteStream) : Nat := s.bufferSize

/-- `length`. -/
def length (s : ByteStream) : Nat := if s.writePos > s.readPos then s.writePos - s.readPos else 0

/-- `prepare`. -/
def prepare (junk : Nat → UInt8) (size : Nat) (s : ByteStream) : ByteStream :=
  let s := s.cleanup
  if size > 0 then { s with streamBuffer := some (newBytes junk (size + 1)), bufferSize := size } else s

/-- `byte_stream( length )`. -/
def ofLength (junk : Nat → UInt8) (length : Nat) : ByteStream := new.prepare junk length

/-- `resize`. -/
def resize (junk : Nat → UInt8) (size : Nat) (s : ByteStream) : Option ByteStream :=
  if size = 0 || s.bufferSize = size then some s
  else if s.allocated then do
    let newBuffer := newBytes junk (size + 1)
    let len := s.length
    let copyLen := if len > 0 then min len size else 0
    let newBuffer ←
      if len > 0 then do
        let data ← load s.memory s.readPos copyLen
        store newBuffer 0 data
      else some newBuffer
    some { streamBuffer := some newBuffer, bufferSize := size, readPos := 0, writePos := copyLen }
  else some (s.prepare junk size)

/-- `clear`. -/
def clear (s : ByteStream) : ByteStream := { s with readPos := 0, writePos := 0 }

/-- `read_commit`. -/
def readCommit (bytesRead : Nat) (s : ByteStream) : ByteStream :=
  let s := { s with readPos := s.readPos + bytesRead }
  if s.readPos * 2 > s.size && s.length = 0 then s.clear else s

/-- `write_commit`. -/
def writeCommit (bytesWrite : Nat) (s : ByteStream) : ByteStream :=
  { s with writePos := s.writePos + bytesWrite }

/-- `write`: the number it returns, and the stream after it. -/
def write (junk : Nat → UInt8) (data : List UInt8) (s : ByteStream) : Option (Nat × ByteStream) := do
  let s ←
    if s.writePos + data.length > s.size then s.resize junk (s.writePos + data.length + 1)
    else some s
  let memory ← store s.memory s.writePos data
  let s := { s with streamBuffer := s.streamBuffer.map fun _ => memory }
  some (data.length, s.writeCommit data.length)

/-- `read`: the number it returns, the bytes it stores, and the stream after it. -/
def read (len : Nat) (s : ByteStream) : Option ((Nat × List UInt8) × ByteStream) :=
  if s.length = 0 then some ((0, []), s)
  else do
    let copyLen := min s.length len
    let data ← load s.memory s.readPos copyLen
    some ((copyLen, data), s.readCommit copyLen)

/-- The bytes between the positions. -/
def content (s : ByteStream) : List UInt8 := slice s.memory s.readPos (s.writePos - s.readPos)

end ByteStream

/-- The calls of a stream. -/
inductive StreamCall where
  | write (data : List UInt8)
  | read (len : Nat)
  | resize (size : Nat)
  | clear
  | prepare (size : Nat)

/-- A call: the number it returns and the bytes it stores, and the stream after
it. A block that is allocated has the second argument in it. -/
def ByteStream.step (s : ByteStream) : StreamCall × (Nat → UInt8) → Option ((Nat × List UInt8) × ByteStream)
  | (.write data, junk) => (s.write junk data).map fun (n, s) => ((n, []), s)
  | (.read len, _) => s.read len
  | (.resize size, junk) => (s.resize junk size).map fun s => ((0, []), s)
  | (.clear, _) => some ((0, []), s.clear)
  | (.prepare size, junk) => some ((0, []), s.prepare junk size)

/-- What the stream is for: a queue of bytes. -/
def queueStep (q : List UInt8) : StreamCall × (Nat → UInt8) → (Nat × List UInt8) × List UInt8
  | (.write data, _) => ((data.length, []), q ++ data)
  | (.read len, _) => ((min q.length len, q.take len), q.drop len)
  | (.resize size, _) => ((0, []), if size = 0 then q else q.take size)
  | (.clear, _) => ((0, []), [])
  | (.prepare _, _) => ((0, []), [])

/-- The stream holds the queue. -/
structure ByteStream.Holds (s : ByteStream) (q : List UInt8) : Prop where
  readPos_le : s.readPos ≤ s.writePos
  writePos_le : s.writePos ≤ s.bufferSize
  bufferSize_le : s.bufferSize ≤ s.memory.length
  content : s.content = q

namespace ByteStream

variable {s : ByteStream} {q : List UInt8} {junk : Nat → UInt8}

theorem length_eq (s : ByteStream) : s.length = s.writePos - s.readPos := by
  unfold length
  split <;> omega

theorem Holds.length_eq (h : s.Holds q) : q.length = s.length := by
  have := h.readPos_le
  have := h.writePos_le
  have := h.bufferSize_le
  rw [← h.content, ByteStream.length_eq]
  exact length_slice (by omega)

theorem Holds.empty (hr : s.readPos = 0) (hw : s.writePos = 0) (h : s.bufferSize ≤ s.memory.length) : s.Holds [] where
  readPos_le := by omega
  writePos_le := by omega
  bufferSize_le := h
  content := by rw [ByteStream.content, hr, hw, slice_zero, List.take_zero]

theorem holds_prepare (junk : Nat → UInt8) (size : Nat) (s : ByteStream) : (s.prepare junk size).Holds [] := by
  unfold prepare
  dsimp only
  split
  · apply Holds.empty rfl rfl
    show size ≤ (newBytes junk (size + 1)).length
    rw [length_newBytes]
    exact Nat.le_succ size
  · exact .empty rfl rfl (Nat.le_refl 0)

theorem Holds.clear (h : s.Holds q) : s.clear.Holds [] := .empty rfl rfl h.bufferSize_le

/-- A block that begins with the queue. -/
theorem Holds.moved {block : List UInt8} {size n : Nat} (hblock : block.length = size + 1) (hn : n ≤ size)
    (hq : block.take n = q) : Holds ⟨some block, size, 0, n⟩ q where
  readPos_le := Nat.zero_le n
  writePos_le := hn
  bufferSize_le := by
    show size ≤ block.length
    omega
  content := hq

/-- What is not allocated holds nothing. -/
theorem Holds.eq_nil (h : s.Holds q) (ha : s.allocated = false) : q = [] := by
  have hz : s.bufferSize = 0 := by
    have hmem := h.bufferSize_le
    rw [allocated, Bool.and_eq_false_iff, Option.isSome_eq_false_iff, decide_eq_false_iff_not] at ha
    rcases ha with ha | ha
    · rw [memory, Option.isNone_iff_eq_none.mp ha] at hmem
      exact Nat.le_zero.mp hmem
    · omega
  have := h.writePos_le
  rw [← List.length_eq_zero_iff, h.length_eq, ByteStream.length_eq]
  omega

/-- After `resize` the stream has the size, and writes do not start further on. -/
theorem Holds.resize (h : s.Holds q) (junk : Nat → UInt8) {size : Nat} (hs : 0 < size) :
    ∃ s', s.resize junk size = some s' ∧ s'.Holds (q.take size) ∧ s'.bufferSize = size ∧ s'.writePos ≤ s.writePos := by
  have hle := h.readPos_le
  have hwr := h.writePos_le
  have hmem := h.bufferSize_le
  have hlen := h.length_eq
  have hlen' := s.length_eq
  unfold ByteStream.resize
  rcases hsize : (decide (size = 0) || decide (s.bufferSize = size)) with _ | _
  · rw [if_neg Bool.false_ne_true]
    rcases ha : s.allocated with _ | _
    · -- The stream had no block, so it had no bytes.
      rw [if_neg Bool.false_ne_true, h.eq_nil ha, List.take_nil]
      refine ⟨_, rfl, holds_prepare junk size s, ?_⟩
      unfold prepare
      dsimp only
      rw [if_pos hs]
      exact ⟨rfl, Nat.zero_le _⟩
    · rw [if_pos rfl]
      rcases Nat.eq_zero_or_pos s.length with hz | hpos
      · -- There is nothing to copy.
        have hq : q = [] := List.length_eq_zero_iff.mp (hlen.trans hz)
        rw [if_neg (Nat.not_lt.mpr (Nat.le_of_eq hz)), if_neg (Nat.not_lt.mpr (Nat.le_of_eq hz)), hq, List.take_nil]
        exact ⟨_, rfl, .moved (length_newBytes _ _) (Nat.zero_le _) List.take_zero, rfl, Nat.zero_le _⟩
      · have hdata : slice s.memory s.readPos (min s.length size) = q.take size := by
          rw [← h.content, ByteStream.content, take_slice, Nat.min_comm, hlen']
        have hcopy : (q.take size).length = min s.length size := by rw [List.length_take, hlen, Nat.min_comm]
        have hfits : 0 + (q.take size).length ≤ (newBytes junk (size + 1)).length := by
          rw [length_newBytes]
          omega
        rw [if_pos hpos, if_pos hpos, load_of_le (by omega), hdata, Option.bind_eq_bind, Option.bind_some,
          store_of_le hfits]
        refine ⟨_, rfl, .moved ?_ (Nat.min_le_right _ _) ?_, rfl, ?_⟩
        · rw [length_patch hfits, length_newBytes]
        · rw [patch_zero, ← hcopy, List.take_left]
        · show min s.length size ≤ s.writePos
          omega
  · rw [if_pos rfl]
    have hsize : s.bufferSize = size := by
      simp only [Bool.or_eq_true, decide_eq_true_eq] at hsize
      omega
    refine ⟨s, rfl, ?_, hsize, Nat.le_refl _⟩
    rwa [List.take_of_length_le (by omega)]

theorem memory_map {memory : List UInt8} (h : memory.length = s.memory.length) :
    (s.streamBuffer.map fun _ => memory).getD [] = memory := by
  unfold ByteStream.memory at h
  rcases hs : s.streamBuffer with _ | block <;> rw [hs] at h
  · exact (List.length_eq_zero_iff.mp h).symm
  · rfl

/-- A write that fits. -/
theorem Holds.store (h : s.Holds q) (data : List UInt8) (hd : s.writePos + data.length ≤ s.bufferSize) :
    ∃ memory, store s.memory s.writePos data = some memory ∧
      (writeCommit data.length { s with streamBuffer := s.streamBuffer.map fun _ => memory }).Holds (q ++ data) := by
  have hle := h.readPos_le
  have hmem := h.bufferSize_le
  have hfits : s.writePos + data.length ≤ s.memory.length := Nat.le_trans hd hmem
  have hmap := memory_map (length_patch hfits)
  refine ⟨_, store_of_le hfits, Nat.le_add_right_of_le hle, hd, ?_, ?_⟩
  · show s.bufferSize ≤ ((s.streamBuffer.map _).getD []).length
    rw [hmap, length_patch hfits]
    exact hmem
  · show slice ((s.streamBuffer.map _).getD []) s.readPos (s.writePos + data.length - s.readPos) = q ++ data
    rw [hmap, Nat.sub_add_comm hle, slice_patch_append hle (by omega), ← h.content]
    rfl

theorem Holds.write (h : s.Holds q) (junk : Nat → UInt8) (data : List UInt8) :
    ∃ s', s.write junk data = some (data.length, s') ∧ s'.Holds (q ++ data) := by
  have hlen := h.length_eq
  have hlen' := s.length_eq
  unfold ByteStream.write
  rcases Nat.lt_or_ge s.size (s.writePos + data.length) with hgrow | hfits
  · obtain ⟨s₁, hs₁, h₁, hsize, hpos⟩ := h.resize junk (Nat.succ_pos (s.writePos + data.length))
    rw [List.take_of_length_le (by omega)] at h₁
    obtain ⟨memory, hstore, hs'⟩ := h₁.store data (by omega)
    rw [if_pos hgrow, hs₁]
    show ∃ s', (Framework.store s₁.memory s₁.writePos data).bind _ = _ ∧ _
    rw [hstore]
    exact ⟨_, rfl, hs'⟩
  · obtain ⟨memory, hstore, hs'⟩ := h.store data hfits
    rw [if_neg (Nat.not_lt.mpr hfits)]
    show ∃ s', (Framework.store s.memory s.writePos data).bind _ = _ ∧ _
    rw [hstore]
    exact ⟨_, rfl, hs'⟩

/-- After the bytes are taken, whether the positions are set back or not. -/
theorem Holds.readCommit (h : s.Holds q) {n : Nat} (hn : n ≤ s.length) : (s.readCommit n).Holds (q.drop n) := by
  have hle := h.readPos_le
  have hlen := s.length_eq
  have h' : Holds { s with readPos := s.readPos + n } (q.drop n) := by
    refine ⟨?_, h.writePos_le, h.bufferSize_le, ?_⟩
    · show s.readPos + n ≤ s.writePos
      omega
    · rw [← h.content, ByteStream.content, ByteStream.content, drop_slice, Nat.sub_add_eq]
      rfl
  unfold ByteStream.readCommit
  dsimp only
  split
  · rename_i hc
    rw [Bool.and_eq_true, decide_eq_true_eq, decide_eq_true_eq] at hc
    rw [List.length_eq_zero_iff.mp (h'.length_eq.trans hc.2)]
    exact h'.clear
  · exact h'

theorem Holds.read (h : s.Holds q) (len : Nat) :
    ∃ s', s.read len = some ((min q.length len, q.take len), s') ∧ s'.Holds (q.drop len) := by
  have hle := h.readPos_le
  have hwr := h.writePos_le
  have hmem := h.bufferSize_le
  have hlen := h.length_eq
  have hlen' := s.length_eq
  unfold ByteStream.read
  rcases Nat.eq_zero_or_pos s.length with hz | hpos
  · have hq : q = [] := List.length_eq_zero_iff.mp (hlen.trans hz)
    rw [if_pos hz, hq, List.length_nil, Nat.zero_min, List.take_nil, List.drop_nil]
    exact ⟨s, rfl, hq ▸ h⟩
  · have hdata : slice s.memory s.readPos (min s.length len) = q.take len := by
      rw [← h.content, ByteStream.content, take_slice, Nat.min_comm, hlen']
    have hdrop : q.drop (min s.length len) = q.drop len := by
      rw [← hlen, List.drop_eq_drop_iff]
      omega
    rw [if_neg (Nat.pos_iff_ne_zero.mp hpos)]
    dsimp only
    rw [load_of_le (by omega), hdata, hlen, ← hdrop]
    exact ⟨_, rfl, h.readCommit (Nat.min_le_left _ _)⟩

theorem simulates : Simulates Holds step queueStep := by
  rintro s q ⟨call, junk⟩ h
  cases call with
  | write data =>
    obtain ⟨s', hw, hs'⟩ := h.write junk data
    exact ⟨s', congrArg (Option.map _) hw, hs'⟩
  | read len => exact h.read len
  | resize size =>
    rcases Nat.eq_zero_or_pos size with rfl | hs
    · exact ⟨s, rfl, h⟩
    · obtain ⟨s', hr, hs', -⟩ := h.resize junk hs
      refine ⟨s', congrArg (Option.map _) hr, ?_⟩
      rwa [queueStep, if_neg (Nat.pos_iff_ne_zero.mp hs)]
  | clear => exact ⟨_, rfl, h.clear⟩
  | prepare size => exact ⟨_, rfl, holds_prepare junk size s⟩

end ByteStream

/-- The stream `s` is a queue of bytes: with any calls no `memcpy` leaves its
block, the answers are those of the queue, and the stream holds it. -/
def IsQueue (s : ByteStream) : Prop :=
  ∀ es, ∃ s', answers ByteStream.step s es = some ((specAnswers queueStep [] es).1, s') ∧
    s'.readPos ≤ s'.writePos ∧ s'.writePos ≤ s'.bufferSize ∧
    s'.content = (specAnswers queueStep [] es).2 ∧ s'.length = (specAnswers queueStep [] es).2.length

theorem ByteStream.Holds.isQueue {s : ByteStream} (h : s.Holds []) : IsQueue s := by
  intro es
  obtain ⟨s', hrun, hs'⟩ := simulates.answers h es
  exact ⟨s', hrun, hs'.readPos_le, hs'.writePos_le, hs'.content, hs'.length_eq.symm⟩

/-- Every new stream is a queue of bytes. -/
theorem byteStream_queue (junk : Nat → UInt8) (size : Nat) :
    IsQueue .new ∧ IsQueue (.ofLength junk size) :=
  ⟨(ByteStream.Holds.empty rfl rfl (Nat.le_refl 0)).isQueue, (ByteStream.holds_prepare junk size .new).isQueue⟩

end Bryllite.P2p
