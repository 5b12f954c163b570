import Bryllite.Base58.Check

/-!
# Blobs of bytes (uint256.cpp)

A `base_blob` is written in hex with its last byte first (`getHex`), and read from hex
text from the end of the text (`setHex`). So text of as many bytes as the blob has
becomes these bytes in reverse (`setHex_hexText`), and `getHex` gives that text back
(`getHex_setHex`).
-/

namespace Bryllite.Hash

open Bryllite.Base58

/-- `HexDigit`, of which -1 is `none`. -/
def hexDigit (c : UInt8) : Option UInt8 :=
  if 48 ≤ c && c ≤ 57 then some (c - 48)
  else if 65 ≤ c && c ≤ 70 then some (c - 55)
  else if 97 ≤ c && c ≤ 102 then some (c - 87)
  else none

/-- `hexmap`. -/
def hexmap : List UInt8 := [48, 49, 50, 51, 52, 53, 54, 55, 56, 57, 97, 98, 99, 100, 101, 102]

/-- `HexStr`. -/
def hexStr (bytes : List UInt8) : List UInt8 :=
  bytes.flatMap fun (b : UInt8) => [hexmap.getD (b >>> 4).toNat 0, hexmap.getD (b &&& 15).toNat 0]

/-- `memcmp`, of memory of the same length. -/
def memcmp : List UInt8 → List UInt8 → Int
  | a :: as, b :: bs => if a = b then memcmp as bs else if a < b then -1 else 1
  | _, _ => 0

/-- `base_blob`, of `width` bytes. -/
structure BaseBlob (width : Nat) where
  data : List UInt8
  length_data : data.length = width

/-- `uint256`. -/
abbrev Uint256 := BaseBlob 32

namespace BaseBlob

variable {width : Nat}

/-- A new blob. -/
def zero (width : Nat) : BaseBlob width := ⟨List.replicate width 0, List.length_replicate⟩

/-- `Compare`. -/
def compare (a b : BaseBlob width) : Int := memcmp a.data b.data

/-- `operator==`. -/
instance : BEq (BaseBlob width) := ⟨fun a b => a.compare b = 0⟩

/-- `GetHex`. -/
def getHex (b : BaseBlob width) : List UInt8 := hexStr b.data.reverse

/-- The loop of `SetHex`: the bytes from `p1` to `pend`, `n` of them, from the digits at
`psz` and before it. -/
def setDigits : (n : Nat) → (digits : List UInt8) → List UInt8
  | 0, _ => []
  | n + 1, [] => List.replicate (n + 1) 0
  | n + 1, [c] => (hexDigit c).getD 0 :: List.replicate n 0
  | n + 1, c :: d :: digits => ((hexDigit c).getD 0 ||| (hexDigit d).getD 0 <<< 4) :: setDigits n digits

theorem length_setDigits : ∀ n digits, (setDigits n digits).length = n
  | 0, _ => rfl
  | _ + 1, [] => List.length_replicate
  | _ + 1, [_] => congrArg _ List.length_replicate
  | n + 1, _ :: _ :: digits => congrArg _ (length_setDigits n digits)

/-- The text behind white space and `0x`. -/
def skip0x (psz : List UInt8) : List UInt8 :=
  match psz.dropWhile isspace with
  | 48 :: c :: rest => if c = 120 || c = 88 then rest else 48 :: c :: rest
  | psz => psz

/-- `SetHex` of a C string. -/
def setHexPsz (psz : List UInt8) : BaseBlob width where
  data := setDigits width ((skip0x psz).takeWhile fun c => (hexDigit c).isSome).reverse
  length_data := length_setDigits _ _

/-- `SetHex`. -/
def setHex (str : List UInt8) : BaseBlob width := setHexPsz (cStr str)

end BaseBlob

theorem memcmp_eq_zero_iff : ∀ {as bs : List UInt8}, as.length = bs.length → (memcmp as bs = 0 ↔ as = bs)
  | [], [], _ => iff_of_true rfl rfl
  | a :: as, b :: bs, h => by
    rw [memcmp]
    by_cases hab : a = b
    · rw [if_pos hab, memcmp_eq_zero_iff (Nat.succ.inj h), hab, List.cons.injEq, and_iff_right rfl]
    · rw [if_neg hab]
      split <;> simp [hab]

/-! ## Hex text -/

theorem hexStr_eq (bytes : List UInt8) : hexStr bytes = hexText bytes := by
  have hbyte : ∀ n < 256, [hexmap.getD (UInt8.ofNat n >>> 4).toNat 0, hexmap.getD (UInt8.ofNat n &&& 15).toNat 0] =
      hexByte (UInt8.ofNat n) := by
    decide +kernel
  unfold hexStr hexText
  refine List.flatMap_congr fun b _ => ?_
  have h := hbyte b.toNat b.toNat_lt
  rwa [UInt8.ofNat_toNat] at h

/-- A hex digit is one, and neither white space nor an `x` or a terminator. -/
theorem hexDigits_symbol {c : UInt8} (hc : c ∈ hexDigits) :
    (hexDigit c).isSome = true ∧ isspace c = false ∧ c ≠ 120 ∧ c ≠ 88 ∧ c ≠ 0 := by
  revert c
  decide +kernel

/-- The two digits of a byte. -/
theorem hexDigit_hexByte (b : UInt8) : ∃ hi lo, hexByte b = [hi, lo] ∧
    ((hexDigit lo).getD 0 ||| (hexDigit hi).getD 0 <<< 4) = b := by
  have hbyte : ∀ n < 256, ((hexDigit (hexDigits.getD (n % 16) 0)).getD 0 |||
      (hexDigit (hexDigits.getD (n / 16) 0)).getD 0 <<< 4) = UInt8.ofNat n := by
    decide +kernel
  refine ⟨_, _, rfl, ?_⟩
  rw [hbyte b.toNat b.toNat_lt, UInt8.ofNat_toNat]

namespace BaseBlob

variable {width : Nat}

theorem skip0x_hexText (bs : List UInt8) : skip0x (hexText bs) = hexText bs := by
  have hall := (isHex_hexText bs).2
  unfold skip0x
  cases h : hexText bs with
  | nil => rfl
  | cons c text =>
    rw [h] at hall
    rw [List.dropWhile_cons_of_neg (by simp [(hexDigits_symbol (hall c List.mem_cons_self)).2.1])]
    split
    · rename_i d rest heq
      obtain ⟨-, -, hx, hX, -⟩ := hexDigits_symbol (hall d (by simp_all))
      simp_all
    · rfl

/-- The digits of bytes, read from the last one. -/
theorem setDigits_hexText (bs : List UInt8) : setDigits bs.length (hexText bs).reverse = bs.reverse := by
  induction bs using List.reverseRecOn with
  | nil => rfl
  | append_singleton bs b ih =>
    obtain ⟨hi, lo, hb, hbyte⟩ := hexDigit_hexByte b
    have htext : (hexText (bs ++ [b])).reverse = lo :: hi :: (hexText bs).reverse := by
      rw [hexText_append, hexText_cons, hb]
      simp [hexText]
    rw [htext, List.length_append, List.length_singleton, setDigits, ih, hbyte, List.reverse_append]
    rfl

/-- Text of as many bytes as there are becomes these in reverse. -/
theorem setHex_hexText {bs : List UInt8} (h : bs.length = width) : (setHex (hexText bs) : BaseBlob width).data = bs.reverse := by
  have hall := (isHex_hexText bs).2
  have hstr : cStr (hexText bs) = hexText bs := by
    rw [cStr, List.takeWhile_eq_self_iff]
    exact fun c hc => by simpa using (hexDigits_symbol (hall c hc)).2.2.2.2
  have hdigits : (hexText bs).takeWhile (fun c => (hexDigit c).isSome) = hexText bs := by
    rw [List.takeWhile_eq_self_iff]
    exact fun c hc => (hexDigits_symbol (hall c hc)).1
  show setDigits width ((skip0x (cStr (hexText bs))).takeWhile _).reverse = _
  rw [hstr, skip0x_hexText, hdigits, ← h, setDigits_hexText]

theorem getHex_eq (b : BaseBlob width) : b.getHex = hexText b.data.reverse := hexStr_eq _

/-- `SetHex` reads what `GetHex` writes. -/
theorem setHex_getHex (b : BaseBlob width) : (setHex b.getHex : BaseBlob width).data = b.data := by
  have hlen : b.data.reverse.length = width := by rw [List.length_reverse, b.length_data]
  rw [getHex_eq, setHex_hexText hlen, List.reverse_reverse]

theorem getHex_inj {a b : BaseBlob width} : a.getHex = b.getHex ↔ a.data = b.data := by
  refine ⟨fun h => ?_, fun h => by rw [getHex, h, ← getHex]⟩
  rw [← setHex_getHex a, h, setHex_getHex]

/-- Blobs compare equal if their bytes are the same. -/
theorem beq_iff {a b : BaseBlob width} : a == b ↔ a.data = b.data := by
  show decide (memcmp a.data b.data = 0) = true ↔ _
  rw [decide_eq_true_iff, memcmp_eq_zero_iff (a.length_data.trans b.length_data.symm)]

end BaseBlob

end Bryllite.Hash
