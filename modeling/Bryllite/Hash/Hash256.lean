import Bryllite.Base58.Hex
import Bryllite.Framework.Patch

/-!
# The hasher of sha256.hpp

`hash256_one_by_one`: a message is hashed in blocks of 64 bytes, the last of them filled
up and ended by the length in bits. The words are `unsigned long`, of `w` bits, and are
masked to 32. The digest has 32 bytes (`length_hash256`), and its text is what
`HexLib.Documented` says of `sha256s` (`hash256HexString_documented`).
-/

namespace Bryllite.Hash

open Bryllite.Framework
open Bryllite.Base58 (hexText hexDigits length_hexText isHex_hexText)

/-- `add_constant`. -/
def addConstant : List Nat := [
  0x428a2f98, 0x71374491, 0xb5c0fbcf, 0xe9b5dba5, 0x3956c25b, 0x59f111f1,
  0x923f82a4, 0xab1c5ed5, 0xd807aa98, 0x12835b01, 0x243185be, 0x550c7dc3,
  0x72be5d74, 0x80deb1fe, 0x9bdc06a7, 0xc19bf174, 0xe49b69c1, 0xefbe4786,
  0x0fc19dc6, 0x240ca1cc, 0x2de92c6f, 0x4a7484aa, 0x5cb0a9dc, 0x76f988da,
  0x983e5152, 0xa831c66d, 0xb00327c8, 0xbf597fc7, 0xc6e00bf3, 0xd5a79147,
  0x06ca6351, 0x14292967, 0x27b70a85, 0x2e1b2138, 0x4d2c6dfc, 0x53380d13,
  0x650a7354, 0x766a0abb, 0x81c2c92e, 0x92722c85, 0xa2bfe8a1, 0xa81a664b,
  0xc24b8b70, 0xc76c51a3, 0xd192e819, 0xd6990624, 0xf40e3585, 0x106aa070,
  0x19a4c116, 0x1e376c08, 0x2748774c, 0x34b0bcb5, 0x391c0cb3, 0x4ed8aa4a,
  0x5b9cca4f, 0x682e6ff3, 0x748f82ee, 0x78a5636f, 0x84c87814, 0x8cc70208,
  0x90befffa, 0xa4506ceb, 0xbef9a3f7, 0xc67178f2]

/-- The eight words of a state of the hash. -/
abbrev MessageDigest (w : Nat) := Vector (BitVec w) 8

/-- `initial_message_digest`. -/
def initialMessageDigest (w : Nat) : MessageDigest w :=
  #v[0x6a09e667, 0xbb67ae85, 0x3c6ef372, 0xa54ff53a, 0x510e527f, 0x9b05688c, 0x1f83d9ab, 0x5be0cd19]

variable {w : Nat}

/-! ## One block -/

/-- A word as a `byte_t`. -/
def byteOf (x : BitVec w) : UInt8 := UInt8.ofNat x.toNat

/-- `mask_32bit`. -/
def mask32bit (x : BitVec w) : BitVec w := x &&& 0xffffffff

/-- `ch`. -/
def ch (x y z : BitVec w) : BitVec w := (x &&& y) ^^^ (~~~x &&& z)

/-- `maj`. -/
def maj (x y z : BitVec w) : BitVec w := (x &&& y) ^^^ (x &&& z) ^^^ (y &&& z)

/-- `rotr`. -/
def rotr (x : BitVec w) (n : Nat) : BitVec w := mask32bit ((x >>> n) ||| (x <<< (32 - n)))

/-- `bsig0`. -/
def bsig0 (x : BitVec w) : BitVec w := rotr x 2 ^^^ rotr x 13 ^^^ rotr x 22

/-- `bsig1`. -/
def bsig1 (x : BitVec w) : BitVec w := rotr x 6 ^^^ rotr x 11 ^^^ rotr x 25

/-- `shr`. -/
def shr (x : BitVec w) (n : Nat) : BitVec w := x >>> n

/-- `ssig0`. -/
def ssig0 (x : BitVec w) : BitVec w := rotr x 7 ^^^ rotr x 18 ^^^ shr x 3

/-- `ssig1`. -/
def ssig1 (x : BitVec w) : BitVec w := rotr x 17 ^^^ rotr x 19 ^^^ shr x 10

/-- Word `i` of a block, most significant byte first. -/
def blockWord (w : Nat) (block : List UInt8) (i : Nat) : BitVec w :=
  let byte k := BitVec.ofNat w (block.getD (i * 4 + k) 0).toNat
  byte 0 <<< 24 ||| byte 1 <<< 16 ||| byte 2 <<< 8 ||| byte 3

/-- The 64 words `w` of a block: its own 16, and those made of earlier ones. -/
def schedule (w : Nat) (block : List UInt8) : List (BitVec w) :=
  (List.range' 16 48).foldl
    (fun ws i => ws ++ [mask32bit
      (ssig1 (ws.getD (i - 2) 0) + ws.getD (i - 7) 0 + ssig0 (ws.getD (i - 15) 0) + ws.getD (i - 16) 0)])
    ((List.range 16).map (blockWord w block))

/-- Round `i`, on the variables `a` to `h`. -/
def round (ws : List (BitVec w)) (s : MessageDigest w) (i : Nat) : MessageDigest w :=
  let temp1 := s[7] + bsig1 s[4] + ch s[4] s[5] s[6] + BitVec.ofNat w (addConstant.getD i 0) + ws.getD i 0
  let temp2 := bsig0 s[0] + maj s[0] s[1] s[2]
  #v[mask32bit (temp1 + temp2), s[0], s[1], s[2], mask32bit (s[3] + temp1), s[4], s[5], s[6]]

/-- `hash256_block`. -/
def hash256Block (messageDigest : MessageDigest w) (block : List UInt8) : MessageDigest w :=
  let s := (List.range 64).foldl (round (schedule w block)) messageDigest
  (messageDigest.zipWith (· + ·) s).map mask32bit

/-! ## hash256_one_by_one -/

/-- `hash256_one_by_one`. -/
structure Hash256OneByOne (w : Nat) where
  buffer : List UInt8
  dataLengthDigits : List (BitVec w)
  h : MessageDigest w

namespace Hash256OneByOne

/-- `init`. -/
def init (w : Nat) : Hash256OneByOne w where
  buffer := []
  dataLengthDigits := List.replicate 4 0
  h := initialMessageDigest w

/-- The loop of `add_to_data_length`, which ends at the first digit that needs no carry. -/
def addCarry : BitVec w → List (BitVec w) → List (BitVec w)
  | _, [] => []
  | carry, d :: ds =>
    let d := d + carry
    if 65536 ≤ d then (d &&& 65535) :: addCarry (d >>> 16) ds else d :: ds

/-- `add_to_data_length`. -/
def addToDataLength (n : BitVec w) (digits : List (BitVec w)) : List (BitVec w) :=
  addCarry 0 (digits.modify 0 (· + n))

/-- `process`: the blocks that are complete, and the bytes that are left. -/
def process (data : List UInt8) (s : Hash256OneByOne w) : Hash256OneByOne w :=
  let buffer := s.buffer ++ data
  let blocks := buffer.length / 64
  { buffer := buffer.drop (blocks * 64)
    dataLengthDigits := addToDataLength (BitVec.ofNat w data.length) s.dataLengthDigits
    h := (List.range blocks).foldl (fun h k => hash256Block h (slice buffer (k * 64) 64)) s.h }

/-- The digits of `write_data_bit_length`, multiplied by eight. -/
def dataBitLengthDigits : BitVec w → List (BitVec w) → List (BitVec w)
  | _, [] => []
  | carry, d :: ds => ((d <<< 3 ||| carry) &&& 65535) :: dataBitLengthDigits ((d >>> 13) &&& 65535) ds

/-- What `write_data_bit_length` writes. -/
def dataBitLength (digits : List (BitVec w)) : List UInt8 :=
  (dataBitLengthDigits 0 digits).reverse.flatMap fun (d : BitVec w) => [byteOf (d >>> 8), byteOf d]

/-- `finish`. -/
def finish (s : Hash256OneByOne w) : Hash256OneByOne w :=
  let remains := s.buffer.length
  let temp := patch (patch (List.replicate 64 0) 0 s.buffer) remains [0x80]
  let (h, temp) :=
    if 55 < remains then
      let temp := patch temp (remains + 1) (List.replicate (64 - (remains + 1)) 0)
      (hash256Block s.h temp, patch temp 0 (List.replicate (64 - 4) 0))
    else (s.h, patch temp (remains + 1) (List.replicate (64 - 4 - (remains + 1)) 0))
  { s with h := hash256Block h (patch temp 56 (dataBitLength s.dataLengthDigits)) }

/-- `get_hash_bytes`, most significant byte first. -/
def getHashBytes (s : Hash256OneByOne w) : List UInt8 :=
  s.h.toList.flatMap fun (x : BitVec w) => (List.range 4).map fun i => byteOf (x >>> (24 - 8 * i))

theorem length_getHashBytes (s : Hash256OneByOne w) : s.getHashBytes.length = 32 := by
  rw [getHashBytes, List.length_flatMap]
  simp

end Hash256OneByOne

/-- `hash256`. -/
def hash256 (w : Nat) (data : List UInt8) : List UInt8 := ((Hash256OneByOne.init w).process data).finish.getHashBytes

/-- What `operator<<` prints of a number in base 16. -/
def hexNumber (n : Nat) : List UInt8 := (Nat.toDigits 16 n).map Char.toUInt8

/-- `output_hex`: each byte as a number, filled up with zeros to a width of two. -/
def outputHex (bytes : List UInt8) : List UInt8 := bytes.flatMap fun b => (hexNumber b.toNat).leftpad 2 48

/-- `hash256_hex_string`. -/
def hash256HexString (w : Nat) (data : List UInt8) : List UInt8 := outputHex (hash256 w data)

theorem outputHex_eq (bytes : List UInt8) : outputHex bytes = hexText bytes := by
  have hbyte : ∀ n < 256, (hexNumber n).leftpad 2 48 = [hexDigits.getD (n / 16) 0, hexDigits.getD (n % 16) 0] := by
    decide +kernel
  exact List.flatMap_congr fun b _ => hbyte b.toNat b.toNat_lt

theorem length_hash256 (w : Nat) (data : List UInt8) : (hash256 w data).length = 32 :=
  Hash256OneByOne.length_getHashBytes _

/-- The text of a hash is 64 hex digits. -/
theorem hash256HexString_documented (w : Nat) (data : List UInt8) :
    (hash256HexString w data).length = 64 ∧ ∀ c ∈ hash256HexString w data, c ∈ hexDigits := by
  rw [hash256HexString, outputHex_eq]
  constructor
  · rw [length_hexText, length_hash256]
  · exact (isHex_hexText _).2

end Bryllite.Hash
