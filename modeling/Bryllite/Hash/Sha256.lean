import Bryllite.Hash.Hash256
import Bryllite.Hash.Uint256

/-!
# The overloads of sha256 (sha256.cpp)

`sha256` of a string reads the hex text of the digest with `SetHex`, and so has its bytes
in reverse; `sha256` of memory copies the digest that OpenSSL makes of it. The two are
the same exactly if the digest reads the same backwards (`sha256_agree_iff`).
-/

namespace Bryllite.Hash

open Bryllite.Framework
open Bryllite.Base58 (hexText length_hexText)

/-- `sha256` of memory into a buffer, with the function of OpenSSL that makes the digest. -/
def sha256Into (openssl : List UInt8 → List UInt8) (target hash : List UInt8) : List UInt8 :=
  patch hash 0 ((openssl target).take (if hash.length < 32 then hash.length else 32))

/-- `sha256` of memory. -/
def sha256OfMemory (openssl : List UInt8 → List UInt8) (data : List UInt8) : Uint256 where
  data := sha256Into openssl data (BaseBlob.zero 32).data
  length_data := by
    rw [sha256Into, length_patch]
    · exact (BaseBlob.zero 32).length_data
    · rw [(BaseBlob.zero 32).length_data, Nat.zero_add]
      exact List.length_take_le _ _

/-- `sha256` of a string, with words of `w` bits. -/
def sha256OfString (w : Nat) (str : List UInt8) : Uint256 := .setHex (hash256HexString w str)

theorem sha256OfString_data (w : Nat) (str : List UInt8) : (sha256OfString w str).data = (hash256 w str).reverse := by
  rw [sha256OfString, hash256HexString, outputHex_eq]
  exact BaseBlob.setHex_hexText (length_hash256 w str)

variable {w : Nat} {openssl : List UInt8 → List UInt8}

theorem sha256OfMemory_data (h : ∀ d, openssl d = hash256 w d) (d : List UInt8) :
    (sha256OfMemory openssl d).data = hash256 w d := by
  have hlen := length_hash256 w d
  show sha256Into openssl d (List.replicate 32 0) = _
  rw [sha256Into, h, List.length_replicate, if_neg (by decide), List.take_of_length_le (by omega), patch_zero, hlen]
  simp

/-- The overloads agree on the data whose digest reads the same backwards. -/
theorem sha256_agree_iff (h : ∀ d, openssl d = hash256 w d) (d : List UInt8) :
    (sha256OfString w d == sha256OfMemory openssl d ∧
      (sha256OfString w d).getHex = (sha256OfMemory openssl d).getHex) ↔
      (hash256 w d).reverse = hash256 w d := by
  rw [BaseBlob.beq_iff, BaseBlob.getHex_inj, sha256OfString_data, sha256OfMemory_data h, and_self_iff]

/-- The digest of `abc` is not the same backwards. -/
theorem sha256_agree_iff_sample : ¬(sha256OfString 32 [97, 98, 99] == sha256OfMemory (hash256 32) [97, 98, 99] ∧
    (sha256OfString 32 [97, 98, 99]).getHex = (sha256OfMemory (hash256 32) [97, 98, 99]).getHex) := by
  rw [sha256_agree_iff fun _ => rfl]
  decide +kernel

/-- The hashes of no data: `e3b0...b855` in one, and backwards in the other. -/
theorem sha256_disagree :
    let h1 := sha256OfString 64 []
    let h2 := sha256OfMemory (hash256 64) []
    h1.data.take 2 = [0x55, 0xb8] ∧ h2.data.take 2 = [0xe3, 0xb0] ∧ ¬h1 == h2 ∧ h1.getHex ≠ h2.getHex := by
  decide +kernel

end Bryllite.Hash
