import Bryllite.Base58.Encoding
import Bryllite.Hash.Hash256

/-!
# base58-check addresses

`encode_base58_check` and `decode_base58_check` of `base58.cpp`. The functions
on hex text and the hash are parameters, of which `HexLib.Documented` says what
they return. An address is decoded to what it was encoded from, and an address
that is accepted is the one its bytes are encoded to, up to white space around
it (`base58Check_exact`).
-/

namespace Bryllite.Base58

open Bryllite.Framework

/-- The functions of `bryllite` that are called. -/
structure HexLib where
  byteToHex : UInt8 → List UInt8
  bytesToHex : List UInt8 → List UInt8
  hexToBytes : List UInt8 → List UInt8
  sha256s : List UInt8 → List UInt8

/-- `encode_base58_check`. -/
def encodeBase58Check (lib : HexLib) (prefixByte : UInt8) (str : List UInt8) : Option (List UInt8) :=
  let s := lib.byteToHex prefixByte ++ str
  let checksum := (lib.sha256s (lib.sha256s s)).take 8
  let s := s ++ checksum
  let bytes := lib.hexToBytes s
  encodeBase58 bytes

/-- `decode_base58_check` of a C string: what it returns, and the vector after it. -/
def decodeBase58CheckPsz (lib : HexLib) (psz vchOut : List UInt8) : Option (Bool × List UInt8) := do
  let (ok, vchOut) ← decodeBase58 psz vchOut
  if !ok || vchOut.length < 4 then some (false, [])
  else
    let decoded := lib.bytesToHex vchOut
    let payload := decoded.take (decoded.length - 8)
    let checksum := (decoded.drop (decoded.length - 8)).take 8
    let payloadChecksum := (lib.sha256s (lib.sha256s payload)).take 8
    if checksum ≠ payloadChecksum then some (false, [])
    else some (true, vchOut)

/-- `c_str`, the characters before the first terminator. -/
def cStr (str : List UInt8) : List UInt8 := str.takeWhile (· ≠ 0)

/-- `decode_base58_check`. -/
def decodeBase58Check (lib : HexLib) (str vchOut : List UInt8) : Option (Bool × List UInt8) :=
  decodeBase58CheckPsz lib (cStr str) vchOut

/-- What the functions return. -/
structure HexLib.Documented (lib : HexLib) : Prop where
  byteToHex (b : UInt8) : lib.byteToHex b = hexByte b
  bytesToHex (bs : List UInt8) : lib.bytesToHex bs = hexText bs
  hexToBytes (bs : List UInt8) : lib.hexToBytes (hexText bs) = bs
  sha256s (s : List UInt8) : (lib.sha256s s).length = 64 ∧ ∀ c ∈ lib.sha256s s, c ∈ hexDigits

/-! ## Checksums -/

namespace HexLib

variable {lib : HexLib}

/-- The checksum of hex text. -/
def checksum (lib : HexLib) (s : List UInt8) : List UInt8 := (lib.sha256s (lib.sha256s s)).take 8

/-- It is that of four bytes. -/
theorem Documented.exists_checksum (h : lib.Documented) (s : List UInt8) :
    ∃ ck, lib.checksum s = hexText ck ∧ ck.length = 4 := by
  obtain ⟨hlen, hhex⟩ := h.sha256s (lib.sha256s s)
  have hlen8 : (lib.checksum s).length = 8 := by
    rw [checksum, List.length_take, hlen]
    rfl
  obtain ⟨ck, hck⟩ := exists_hexText (lib.checksum s) ⟨by rw [hlen8], fun c hc => hhex c (List.mem_of_mem_take hc)⟩
  refine ⟨ck, hck.symm, ?_⟩
  have := length_hexText ck
  rw [hck, hlen8] at this
  omega

end HexLib

variable {lib : HexLib}

/-- The bytes of a payload and its checksum are encoded. -/
theorem encodeBase58Check_eq (h : lib.Documented) (p : UInt8) (bs : List UInt8) {ck : List UInt8}
    (hck : lib.checksum (hexText (p :: bs)) = hexText ck) :
    encodeBase58Check lib p (hexText bs) = some ((convert 256 58 (toDigits (p :: bs ++ ck))).map symbol) := by
  unfold encodeBase58Check
  dsimp only
  rw [h.byteToHex, ← hexText_cons, ← HexLib.checksum, hck, ← hexText_append, h.hexToBytes, encodeBase58_eq]

/-- The text of bytes, split before the last four. -/
theorem hexText_split {out : List UInt8} (h : 4 ≤ out.length) :
    (hexText out).take ((hexText out).length - 8) = hexText (out.take (out.length - 4)) ∧
    (hexText out).drop ((hexText out).length - 8) = hexText (out.drop (out.length - 4)) := by
  have hsplit : hexText out = hexText (out.take (out.length - 4)) ++ hexText (out.drop (out.length - 4)) := by
    rw [← hexText_append, List.take_append_drop]
  have hlen : (hexText (out.take (out.length - 4))).length = (hexText out).length - 8 := by
    rw [length_hexText, length_hexText, List.length_take]
    omega
  rw [← hlen, hsplit]
  exact ⟨List.take_left, List.drop_left⟩

/-- A string is accepted where it decodes to a payload and its checksum. -/
theorem decodeBase58CheckPsz_eq (h : lib.Documented) (psz vchOut : List UInt8) :
    decodeBase58CheckPsz lib psz vchOut = some (
      let out := (convert 58 256 (digits (strip psz))).map UInt8.ofNat
      if AllDigits (strip psz) ∧ 4 ≤ out.length ∧
        lib.checksum (hexText (out.take (out.length - 4))) = hexText (out.drop (out.length - 4))
      then (true, out) else (false, [])) := by
  unfold decodeBase58CheckPsz
  rw [decodeBase58_eq]
  by_cases hd : AllDigits (strip psz)
  · rw [if_pos hd]
    generalize (convert 58 256 (digits (strip psz))).map UInt8.ofNat = out
    dsimp only [Option.bind_eq_bind, Option.bind_some]
    by_cases hl : 4 ≤ out.length
    · obtain ⟨htake, hdrop⟩ := hexText_split hl
      have hlast : (hexText (out.drop (out.length - 4))).take 8 = hexText (out.drop (out.length - 4)) := by
        apply List.take_of_length_le
        rw [length_hexText, List.length_drop]
        omega
      rw [if_neg (by simpa using hl), h.bytesToHex, htake, hdrop, hlast, ← HexLib.checksum]
      by_cases hc : lib.checksum (hexText (out.take (out.length - 4))) = hexText (out.drop (out.length - 4))
      · rw [if_neg (not_not.mpr hc.symm), if_pos ⟨hd, hl, hc⟩]
      · rw [if_pos (Ne.symm hc), if_neg fun hall => hc hall.2.2]
    · rw [if_pos (by simpa using hl), if_neg fun hall => hl hall.2.1]
  · rw [if_neg hd, if_neg fun hall => hd hall.1]
    rfl

theorem cStr_eq {t : List UInt8} (h : 0 ∉ t) : cStr t = t :=
  List.takeWhile_eq_self_iff.mpr fun _ hc => decide_eq_true fun he => h (he ▸ hc)

/-- A numeral is a string without white space and terminators. -/
theorem strip_map_symbol {ds : List Nat} (h : ∀ d ∈ ds, d < 58) : strip (ds.map symbol) = ds.map symbol := by
  apply strip_of_forall
  intro c hc
  obtain ⟨d, hd, rfl⟩ := List.mem_map.mp hc
  exact isspace_symbol d (h d hd)

theorem zero_not_mem_map_symbol {ds : List Nat} (h : ∀ d ∈ ds, d < 58) : 0 ∉ ds.map symbol := by
  intro hz
  obtain ⟨d, hd, he⟩ := List.mem_map.mp hz
  have hall : ∀ d < 58, symbol d ≠ 0 := by decide +kernel
  exact hall d (h d hd) he

/-- Addresses are decoded to the prefix, the bytes and the checksum they were
encoded from, and an address that is accepted is the only one with its bytes, up
to white space around it. -/
theorem base58Check_exact (lib : HexLib) (h : lib.Documented) :
    (∀ p s out, IsHex s → ∃ t, encodeBase58Check lib p s = some t ∧
      decodeBase58Check lib t out =
        some (true, p :: lib.hexToBytes s ++ lib.hexToBytes (lib.checksum (lib.byteToHex p ++ s)))) ∧
    (∀ t out, 0 ∉ t → ∃ ok out', decodeBase58Check lib t out = some (ok, out') ∧
      (ok = false → out' = []) ∧
      (ok = true → ∀ p bs, out' = p :: bs → 4 ≤ bs.length →
        encodeBase58Check lib p (lib.bytesToHex (bs.take (bs.length - 4))) = some (strip t))) := by
  refine ⟨fun p s out hs => ?_, fun t out ht => ?_⟩
  · obtain ⟨bs, rfl⟩ := exists_hexText s hs
    obtain ⟨ck, hck, hlen⟩ := h.exists_checksum (hexText (p :: bs))
    have hds : ∀ d ∈ convert 256 58 (toDigits (p :: bs ++ ck)), d < 58 := convert_lt (by decide)
    refine ⟨_, encodeBase58Check_eq h p bs hck, ?_⟩
    rw [decodeBase58Check, cStr_eq (zero_not_mem_map_symbol hds), decodeBase58CheckPsz_eq h, strip_map_symbol hds,
      digits_map_symbol hds, convert_convert (by decide) (toDigits_lt _), map_ofNat_toDigits]
    have htake : (p :: bs ++ ck).take ((p :: bs ++ ck).length - 4) = p :: bs := by
      apply List.take_left'
      rw [List.length_append]
      omega
    have hdrop : (p :: bs ++ ck).drop ((p :: bs ++ ck).length - 4) = ck := by
      apply List.drop_left'
      rw [List.length_append]
      omega
    have hle : 4 ≤ (p :: bs ++ ck).length := by
      rw [List.length_append]
      omega
    dsimp only
    rw [htake, hdrop, if_pos ⟨allDigits_map_symbol hds, hle, hck⟩, h.hexToBytes, h.byteToHex, ← hexText_cons, hck,
      h.hexToBytes]
  · rw [decodeBase58Check, cStr_eq ht, decodeBase58CheckPsz_eq h]
    dsimp only
    split
    · rename_i hc
      obtain ⟨hd, -, hck⟩ := hc
      refine ⟨true, _, rfl, Bool.noConfusion, fun _ p bs he hl => ?_⟩
      rw [he, List.length_cons, show bs.length + 1 - 4 = bs.length - 4 + 1 by omega, List.take_succ_cons,
        List.drop_succ_cons] at hck
      rw [h.bytesToHex, encodeBase58Check_eq h p _ hck, List.cons_append, List.take_append_drop, ← he,
        toDigits_map_ofNat (convert_lt (by decide)), convert_convert (by decide) (digits_lt hd), map_symbol_digits hd]
    · exact ⟨false, [], rfl, fun _ => rfl, Bool.noConfusion⟩

/-- The functions, with the hasher of `sha256.hpp` on words of 32 bits. -/
def sampleLib : HexLib where
  byteToHex := hexByte
  bytesToHex := hexText
  hexToBytes := hexPairs
  sha256s := Hash.hash256HexString 32

theorem sampleLib_documented : sampleLib.Documented where
  byteToHex _ := rfl
  bytesToHex _ := rfl
  hexToBytes := hexPairs_hexText
  sha256s := Hash.hash256HexString_documented 32

/-- The address of the prefix 0 and the bytes 1, 2, with white space around it. -/
theorem base58Check_exact_sample :
    let address : List UInt8 := [49, 87, 65, 57, 86, 107, 75, 116]
    (∃ t, encodeBase58Check sampleLib 0 (hexText [1, 2]) = some t ∧
      decodeBase58Check sampleLib t [] = some (true, [0, 1, 2, 112, 226, 54, 19])) ∧
    encodeBase58Check sampleLib 0 (hexText [1, 2]) = some (strip ([32] ++ address ++ [10])) := by
  intro address
  obtain ⟨hencode, hdecode⟩ := base58Check_exact sampleLib sampleLib_documented
  have hbytes : 0 :: sampleLib.hexToBytes (hexText [1, 2]) ++
      sampleLib.hexToBytes (sampleLib.checksum (sampleLib.byteToHex 0 ++ hexText [1, 2])) =
        [0, 1, 2, 112, 226, 54, 19] := by decide +kernel
  refine ⟨hbytes ▸ hencode 0 (hexText [1, 2]) [] (by decide +kernel), ?_⟩
  obtain ⟨ok, out, hd, -, he⟩ := hdecode ([32] ++ address ++ [10]) [] (by decide +kernel)
  have hout : decodeBase58Check sampleLib ([32] ++ address ++ [10]) [] =
      some (true, [0, 1, 2, 112, 226, 54, 19]) := by decide +kernel
  obtain ⟨rfl, rfl⟩ := Prod.mk.inj (Option.some.inj (hd.symm.trans hout))
  exact he rfl 0 [1, 2, 112, 226, 54, 19] rfl (by decide)

end Bryllite.Base58
