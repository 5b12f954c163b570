import Mathlib.Data.List.Basic

/-!
# Stream buffers

`boost::asio::streambuf`, as far as a receiver uses it: bytes are received into the
output sequence that `prepare` makes room for, `commit` moves them to the input sequence,
and `consume` removes them from it, as far as there are any. `Streambuf.Documented` says this; what is in memory
behind the input sequence is not said. `Streambuf.sample` keeps both sequences in one
piece of memory, which is used again from its beginning.
-/

namespace Bryllite.Udp

/-- The operations of a stream buffer. -/
structure Streambuf where
  Buffer : Type
  new : Buffer
  prepare : Nat → Buffer → Buffer
  /-- Bytes are received at the beginning of the output sequence. -/
  receive : List UInt8 → Buffer → Buffer
  commit : Nat → Buffer → Buffer
  consume : Nat → Buffer → Buffer
  /-- The input sequence. -/
  data : Buffer → List UInt8
  /-- The memory where the input sequence begins. -/
  memory : Buffer → List UInt8

/-- What the operations do. -/
structure Streambuf.Documented (S : Streambuf) : Prop where
  data_new : S.data S.new = []
  data_prepare (n : Nat) (b : S.Buffer) : S.data (S.prepare n b) = S.data b
  data_receive (bs : List UInt8) (b : S.Buffer) : S.data (S.receive bs b) = S.data b
  data_commit (n : Nat) (bs : List UInt8) (b : S.Buffer) : bs.length ≤ n →
    S.data (S.commit bs.length (S.receive bs (S.prepare n b))) = S.data b ++ bs
  data_consume (n : Nat) (b : S.Buffer) : S.data (S.consume n b) = (S.data b).drop n
  consume_empty (n : Nat) (b : S.Buffer) : S.data b = [] → S.consume n b = b
  data_prefix (b : S.Buffer) : S.data b <+: S.memory b

/-- Memory with the positions of the sequences: the input sequence from `gptr` to `pptr`,
the output sequence behind it. -/
structure SampleBuffer where
  cells : Nat → UInt8
  size : Nat
  gptr : Nat
  pptr : Nat
  gptr_le : gptr ≤ pptr
  pptr_le : pptr ≤ size

namespace SampleBuffer

/-- The memory from `i` to `j`. -/
def bytes (b : SampleBuffer) (i j : Nat) : List UInt8 := (List.range' i (j - i)).map b.cells

/-- Enough memory for `n` bytes behind the input sequence, which is moved to the beginning
if there is not. -/
def prepare (n : Nat) (b : SampleBuffer) : SampleBuffer :=
  if n ≤ b.size - b.pptr then b
  else
    { cells := fun i => if i < b.pptr - b.gptr then b.cells (b.gptr + i) else b.cells i
      size := max b.size (b.pptr - b.gptr + n)
      gptr := 0
      pptr := b.pptr - b.gptr
      gptr_le := Nat.zero_le _
      pptr_le := by omega }

def receive (bs : List UInt8) (b : SampleBuffer) : SampleBuffer :=
  { b with cells := fun i => if b.pptr ≤ i then bs.getD (i - b.pptr) (b.cells i) else b.cells i }

def commit (n : Nat) (b : SampleBuffer) : SampleBuffer :=
  { b with
    pptr := b.pptr + min n (b.size - b.pptr)
    gptr_le := Nat.le_trans b.gptr_le (Nat.le_add_right _ _)
    pptr_le := by
      have := b.pptr_le
      omega }

def consume (n : Nat) (b : SampleBuffer) : SampleBuffer :=
  { b with
    gptr := min (b.gptr + n) b.pptr
    gptr_le := Nat.min_le_right _ _ }

variable {b b' : SampleBuffer} {i j k n : Nat}

theorem bytes_congr (h : ∀ m, i ≤ m → m < j → b.cells m = b'.cells m) : b.bytes i j = b'.bytes i j := by
  refine List.map_congr_left fun m hm => ?_
  rw [List.mem_range'_1] at hm
  exact h m hm.1 (by omega)

theorem bytes_append (hij : i ≤ j) (hjk : j ≤ k) : b.bytes i j ++ b.bytes j k = b.bytes i k := by
  have hmid : List.range' j (k - j) = List.range' (i + (j - i)) (k - j) := by
    congr 1
    omega
  rw [bytes, bytes, ← List.map_append, hmid, List.range'_append_1, bytes]
  congr 2
  omega

theorem drop_bytes : (b.bytes i j).drop n = b.bytes (min (i + n) j) j := by
  rw [bytes, ← List.map_drop, List.drop_range', bytes]
  rcases Nat.le_total (i + n) j with h | h
  · rw [Nat.min_eq_left h]
    congr 2 <;> omega
  · rw [Nat.min_eq_right h, Nat.sub_self, show j - i - n = 0 by omega]
    rfl

/-- The memory is moved with the input sequence. -/
theorem bytes_shift (h : ∀ m < j - i, b'.cells m = b.cells (i + m)) :
    b'.bytes 0 (j - i) = b.bytes i j := by
  refine List.ext_getElem (by simp [bytes]) fun m hm _ => ?_
  simp only [bytes, List.length_map, List.length_range', Nat.sub_zero] at hm
  simp only [bytes, List.getElem_map, List.getElem_range', Nat.one_mul, Nat.zero_add]
  exact h m hm

theorem prepare_spec (n : Nat) (b : SampleBuffer) :
    (b.prepare n).bytes (b.prepare n).gptr (b.prepare n).pptr = b.bytes b.gptr b.pptr ∧
      n ≤ (b.prepare n).size - (b.prepare n).pptr := by
  by_cases h : n ≤ b.size - b.pptr
  · rw [prepare, if_pos h]
    exact ⟨rfl, h⟩
  · rw [prepare, if_neg h]
    refine ⟨bytes_shift fun m hm => if_pos hm, ?_⟩
    show n ≤ max b.size (b.pptr - b.gptr + n) - (b.pptr - b.gptr)
    omega

theorem bytes_receive_left (bs : List UInt8) (hj : j ≤ b.pptr) : (b.receive bs).bytes i j = b.bytes i j :=
  bytes_congr fun _ _ hm => if_neg (by omega)

theorem bytes_receive (bs : List UInt8) (b : SampleBuffer) : (b.receive bs).bytes b.pptr (b.pptr + bs.length) = bs := by
  refine List.ext_getElem (by simp [bytes]) fun m hm hm' => ?_
  simp only [bytes, List.getElem_map, List.getElem_range', Nat.one_mul, receive]
  rw [if_pos (Nat.le_add_right _ _), Nat.add_sub_cancel_left, List.getD_eq_getElem?_getD,
    List.getElem?_eq_getElem hm', Option.getD_some]

/-- What is received and committed is behind the input sequence. -/
theorem bytes_commit {bs : List UInt8} (h : bs.length ≤ b.size - b.pptr) :
    ((b.receive bs).commit bs.length).bytes b.gptr (b.pptr + min bs.length (b.size - b.pptr)) =
      b.bytes b.gptr b.pptr ++ bs := by
  rw [Nat.min_eq_left h]
  show (b.receive bs).bytes b.gptr (b.pptr + bs.length) = _
  rw [← bytes_append b.gptr_le (Nat.le_add_right _ _), bytes_receive, bytes_receive_left bs (Nat.le_refl _)]

theorem consume_of_empty (h : b.bytes b.gptr b.pptr = []) : b.consume n = b := by
  have hle := b.gptr_le
  have hempty : b.pptr - b.gptr = 0 := by
    rw [bytes, List.map_eq_nil_iff] at h
    simpa using congrArg List.length h
  unfold consume
  cases b
  congr 1
  dsimp only at *
  omega

end SampleBuffer

/-- A stream buffer, which has 128 bytes of zeros first. -/
def Streambuf.sample : Streambuf where
  Buffer := SampleBuffer
  new :=
    { cells := fun _ => 0
      size := 128
      gptr := 0
      pptr := 0
      gptr_le := Nat.le_refl 0
      pptr_le := Nat.zero_le _ }
  prepare := SampleBuffer.prepare
  receive := SampleBuffer.receive
  commit := SampleBuffer.commit
  consume := SampleBuffer.consume
  data b := b.bytes b.gptr b.pptr
  memory b := b.bytes b.gptr b.size

theorem Streambuf.sample_documented : sample.Documented where
  data_new := rfl
  data_prepare n b := (SampleBuffer.prepare_spec n b).1
  data_receive bs b := SampleBuffer.bytes_receive_left (b := b) bs (Nat.le_refl b.pptr)
  data_commit n bs b h := by
    obtain ⟨hdata, hroom⟩ := SampleBuffer.prepare_spec n b
    exact (SampleBuffer.bytes_commit (Nat.le_trans h hroom)).trans (congrArg (· ++ bs) hdata)
  data_consume n b := SampleBuffer.drop_bytes.symm
  consume_empty _ _ h := SampleBuffer.consume_of_empty h
  data_prefix b := ⟨b.bytes b.pptr b.size, SampleBuffer.bytes_append b.gptr_le b.pptr_le⟩

end Bryllite.Udp
