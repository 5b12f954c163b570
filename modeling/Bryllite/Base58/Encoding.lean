import Bryllite.Framework.Digits

/-!
# base58

`EncodeBase58` and `DecodeBase58` of `base58.cpp`, with `none` where an
assertion fails. A `char` is a byte, and a C string is its characters before the
terminator. Neither function fails an assertion, and both convert numerals:
`encodeBase58_eq`, `decodeBase58_eq`.
-/

namespace Bryllite.Base58

open Bryllite.Framework

/-- `pszBase58`. -/
def pszBase58 : List UInt8 :=
  ['1', '2', '3', '4', '5', '6', '7', '8', '9', 'A', 'B', 'C', 'D', 'E', 'F', 'G', 'H', 'J', 'K', 'L', 'M', 'N', 'P',
    'Q', 'R', 'S', 'T', 'U', 'V', 'W', 'X', 'Y', 'Z', 'a', 'b', 'c', 'd', 'e', 'f', 'g', 'h', 'i', 'j', 'k', 'm', 'n',
    'o', 'p', 'q', 'r', 's', 't', 'u', 'v', 'w', 'x', 'y', 'z'].map Char.toUInt8

/-- `mapBase58`. -/
def mapBase58 : List Int := [
    -1,  -1,  -1,  -1,  -1,  -1,  -1,  -1,  -1,  -1,  -1,  -1,  -1,  -1,  -1,  -1,
    -1,  -1,  -1,  -1,  -1,  -1,  -1,  -1,  -1,  -1,  -1,  -1,  -1,  -1,  -1,  -1,
    -1,  -1,  -1,  -1,  -1,  -1,  -1,  -1,  -1,  -1,  -1,  -1,  -1,  -1,  -1,  -1,
    -1,   0,   1,   2,   3,   4,   5,   6,   7,   8,  -1,  -1,  -1,  -1,  -1,  -1,
    -1,   9,  10,  11,  12,  13,  14,  15,  16,  -1,  17,  18,  19,  20,  21,  -1,
    22,  23,  24,  25,  26,  27,  28,  29,  30,  31,  32,  -1,  -1,  -1,  -1,  -1,
    -1,  33,  34,  35,  36,  37,  38,  39,  40,  41,  42,  43,  -1,  44,  45,  46,
    47,  48,  49,  50,  51,  52,  53,  54,  55,  56,  57,  -1,  -1,  -1,  -1,  -1,
    -1,  -1,  -1,  -1,  -1,  -1,  -1,  -1,  -1,  -1,  -1,  -1,  -1,  -1,  -1,  -1,
    -1,  -1,  -1,  -1,  -1,  -1,  -1,  -1,  -1,  -1,  -1,  -1,  -1,  -1,  -1,  -1,
    -1,  -1,  -1,  -1,  -1,  -1,  -1,  -1,  -1,  -1,  -1,  -1,  -1,  -1,  -1,  -1,
    -1,  -1,  -1,  -1,  -1,  -1,  -1,  -1,  -1,  -1,  -1,  -1,  -1,  -1,  -1,  -1,
    -1,  -1,  -1,  -1,  -1,  -1,  -1,  -1,  -1,  -1,  -1,  -1,  -1,  -1,  -1,  -1,
    -1,  -1,  -1,  -1,  -1,  -1,  -1,  -1,  -1,  -1,  -1,  -1,  -1,  -1,  -1,  -1,
    -1,  -1,  -1,  -1,  -1,  -1,  -1,  -1,  -1,  -1,  -1,  -1,  -1,  -1,  -1,  -1,
    -1,  -1,  -1,  -1,  -1,  -1,  -1,  -1,  -1,  -1,  -1,  -1,  -1,  -1,  -1,  -1]

/-- `isspace`. -/
def isspace (c : UInt8) : Bool := c = 32 || (9 ≤ c && c ≤ 13)

/-- The digit '1'. -/
def one : UInt8 := 49

/-- The character of a digit, `pszBase58[ d ]`. -/
def symbol (d : Nat) : UInt8 := pszBase58.getD d 0

/-- The digit of a character, `mapBase58[ c ]`, which is -1 if it is none. -/
def digitOf (c : UInt8) : Int := mapBase58.getD c.toNat (-1)

/-- `EncodeBase58`. -/
def encodeBase58 (bytes : List UInt8) : Option (List UInt8) := do
  let zeroes := (bytes.takeWhile (· = 0)).length
  let bytes := bytes.dropWhile (· = 0)
  let size := bytes.length * 138 / 100 + 1
  let b58 ← (bytes.map UInt8.toNat).foldlM (DigitBuffer.push 256 (by decide)) (DigitBuffer.zero size (by decide : 0 < 58))
  some (List.replicate zeroes one ++ b58.significant.map symbol)

/-- The loop over the characters: it ends with the buffer, or where a character
is no digit. -/
def decodeChars {size : Nat} (b256 : DigitBuffer 256 size) : List UInt8 → Option (Option (DigitBuffer 256 size))
  | [] => some (some b256)
  | c :: cs =>
    if digitOf c = -1 then some none
    else do
      let b256 ← b256.push 58 (by decide) (digitOf c).toNat
      decodeChars b256 cs

/-- `DecodeBase58`: what it returns, and the vector after it. -/
def decodeBase58 (psz vch : List UInt8) : Option (Bool × List UInt8) := do
  let psz := psz.dropWhile isspace
  let zeroes := (psz.takeWhile (· = one)).length
  let psz := psz.dropWhile (· = one)
  let size := psz.length * 733 / 1000 + 1
  match ← decodeChars (DigitBuffer.zero size (by decide)) (psz.takeWhile (!isspace ·)) with
  | none => some (false, vch)
  | some b256 =>
    let psz := (psz.dropWhile (!isspace ·)).dropWhile isspace
    if psz ≠ [] then some (false, vch)
    else some (true, List.replicate zeroes 0 ++ b256.significant.map UInt8.ofNat)

/-! ## The tables -/

theorem mem_zipIdx_mapBase58 (c : UInt8) : (digitOf c, c.toNat) ∈ mapBase58.zipIdx := by
  have hlength : mapBase58.length = 256 := by decide +kernel
  have hlen : c.toNat < mapBase58.length := hlength ▸ c.toNat_lt
  rw [List.mk_mem_zipIdx_iff_getElem?, digitOf, List.getD_eq_getElem?_getD, List.getElem?_eq_getElem hlen,
    Option.getD_some]

/-- Every character is that of its digit, if it has one. -/
theorem symbol_digitOf (c : UInt8) (h : digitOf c ≠ -1) :
    (digitOf c).toNat < 58 ∧ symbol (digitOf c).toNat = c := by
  have hall : ∀ e ∈ mapBase58.zipIdx, e.1 ≠ -1 → e.1.toNat < 58 ∧ symbol e.1.toNat = UInt8.ofNat e.2 := by
    decide +kernel
  obtain ⟨hlt, hs⟩ := hall _ (mem_zipIdx_mapBase58 c) h
  exact ⟨hlt, hs.trans UInt8.ofNat_toNat⟩

theorem digitOf_symbol : ∀ d < 58, digitOf (symbol d) = d := by decide +kernel

theorem isspace_symbol : ∀ d < 58, isspace (symbol d) = false := by decide +kernel

/-- White space is no digit. -/
theorem digitOf_of_isspace (c : UInt8) (h : isspace c) : digitOf c = -1 := by
  have hall : ∀ e ∈ mapBase58.zipIdx, isspace (UInt8.ofNat e.2) → e.1 = -1 := by decide +kernel
  exact hall _ (mem_zipIdx_mapBase58 c) (by rwa [UInt8.ofNat_toNat])

theorem symbol_eq_one_iff (d : Nat) : symbol d = one ↔ d = 0 := by
  rcases Nat.lt_or_ge d 58 with hd | hd
  · have hall : ∀ d < 58, symbol d = one ↔ d = 0 := by decide +kernel
    exact hall d hd
  · rw [symbol, List.getD_eq_getElem?_getD, List.getElem?_eq_none hd]
    exact iff_of_false (by decide) (by omega)

/-! ## Encoding -/

/-- The bytes of numerals in base 256. -/
def toDigits (bytes : List UInt8) : List Nat := bytes.map UInt8.toNat

@[simp] theorem length_toDigits (bytes : List UInt8) : (toDigits bytes).length = bytes.length := List.length_map _

theorem toDigits_lt (bytes : List UInt8) : ∀ d ∈ toDigits bytes, d < 256 := by
  intro d hd
  obtain ⟨c, -, rfl⟩ := List.mem_map.mp hd
  exact c.toNat_lt

theorem map_ofNat_toDigits (bytes : List UInt8) : (toDigits bytes).map UInt8.ofNat = bytes := by
  rw [toDigits, List.map_map]
  exact List.map_id'' (fun c => UInt8.ofNat_toNat) bytes

theorem toDigits_map_ofNat {ds : List Nat} (h : ∀ d ∈ ds, d < 256) : toDigits (ds.map UInt8.ofNat) = ds := by
  rw [toDigits, List.map_map]
  refine (List.map_congr_left fun d hd => ?_).trans (List.map_id ds)
  exact UInt8.toNat_ofNat_of_lt' (h d hd)

/-- Zero bytes are zero digits. -/
theorem zero_comp_toNat : (fun d : Nat => decide (d = 0)) ∘ UInt8.toNat = fun c => decide (c = 0) := by
  funext c
  exact decide_eq_decide.mpr (UInt8.toNat_inj (b := 0))

theorem takeWhile_toDigits (bytes : List UInt8) :
    (toDigits bytes).takeWhile (· = 0) = toDigits (bytes.takeWhile (· = 0)) := by
  rw [toDigits, List.takeWhile_map, zero_comp_toNat, toDigits]

theorem dropWhile_toDigits (bytes : List UInt8) :
    (toDigits bytes).dropWhile (· = 0) = toDigits (bytes.dropWhile (· = 0)) := by
  rw [toDigits, List.dropWhile_map, zero_comp_toNat, toDigits]

/-- The encoding has the value and the leading zeros of the bytes. -/
theorem encodeBase58_eq (bytes : List UInt8) :
    encodeBase58 bytes = some ((convert 256 58 (toDigits bytes)).map symbol) := by
  have hfits : 256 ^ (toDigits (bytes.dropWhile (· = 0))).length ≤
      58 ^ ((bytes.dropWhile (· = 0)).length * 138 / 100 + 1) := by
    rw [length_toDigits]
    exact pow_le_pow_of_ratio (by decide) (by decide) (by decide +kernel) _
  obtain ⟨b58, hf, hs⟩ := DigitBuffer.exists_significant (by decide) (toDigits_lt _) hfits
  unfold encodeBase58
  dsimp only
  rw [← toDigits, hf]
  show some _ = some _
  rw [convert_eq, List.map_append, List.map_replicate, leadingZeros, takeWhile_toDigits, dropWhile_toDigits, hs,
    length_toDigits]
  rfl

/-! ## Decoding -/

/-- A string without the white space around it. -/
def strip (cs : List UInt8) : List UInt8 := ((cs.dropWhile isspace).reverse.dropWhile isspace).reverse

/-- All characters are digits. -/
def AllDigits (cs : List UInt8) : Prop := ∀ c ∈ cs, digitOf c ≠ -1

instance (cs : List UInt8) : Decidable (AllDigits cs) := inferInstanceAs (Decidable (∀ c ∈ cs, _))

/-- The numeral a string is. -/
def digits (cs : List UInt8) : List Nat := cs.map fun c => (digitOf c).toNat

theorem map_symbol_digits {cs : List UInt8} (h : AllDigits cs) : (digits cs).map symbol = cs := by
  rw [digits, List.map_map]
  exact (List.map_congr_left fun c hc => (symbol_digitOf c (h c hc)).2).trans (List.map_id cs)

theorem digits_lt {cs : List UInt8} (h : AllDigits cs) : ∀ d ∈ digits cs, d < 58 := by
  intro d hd
  obtain ⟨c, hc, rfl⟩ := List.mem_map.mp hd
  exact (symbol_digitOf c (h c hc)).1

theorem digits_map_symbol {ds : List Nat} (h : ∀ d ∈ ds, d < 58) : digits (ds.map symbol) = ds := by
  rw [digits, List.map_map]
  refine (List.map_congr_left fun d hd => ?_).trans (List.map_id ds)
  show (digitOf (symbol d)).toNat = d
  rw [digitOf_symbol d (h d hd), Int.toNat_natCast]

theorem allDigits_map_symbol {ds : List Nat} (h : ∀ d ∈ ds, d < 58) : AllDigits (ds.map symbol) := by
  intro c hc
  obtain ⟨d, hd, rfl⟩ := List.mem_map.mp hc
  rw [digitOf_symbol d (h d hd)]
  omega

/-- The characters '1' of a numeral are its zeros. -/
theorem one_comp_symbol : (fun c : UInt8 => decide (c = one)) ∘ symbol = fun d => decide (d = 0) := by
  funext d
  exact decide_eq_decide.mpr (symbol_eq_one_iff d)

theorem takeWhile_one {cs : List UInt8} (h : AllDigits cs) :
    (cs.takeWhile (· = one)).length = leadingZeros (digits cs) := by
  rw [← map_symbol_digits h, List.takeWhile_map, one_comp_symbol, List.length_map, map_symbol_digits h, leadingZeros]

theorem digits_dropWhile_one {cs : List UInt8} (h : AllDigits cs) :
    digits (cs.dropWhile (· = one)) = (digits cs).dropWhile (· = 0) := by
  rw [← map_symbol_digits h, List.dropWhile_map, one_comp_symbol, map_symbol_digits h]
  exact digits_map_symbol fun d hd => digits_lt h d ((List.dropWhile_sublist _).mem hd)

theorem allDigits_cons {c : UInt8} {cs : List UInt8} : AllDigits (c :: cs) ↔ digitOf c ≠ -1 ∧ AllDigits cs :=
  List.forall_mem_cons

/-- The loop pushes the digits there are before another character. -/
theorem decodeChars_eq {size : Nat} (b256 : DigitBuffer 256 size) (cs : List UInt8) :
    decodeChars b256 cs =
      ((digits (cs.takeWhile (digitOf · ≠ -1))).foldlM (DigitBuffer.push 58 (by decide)) b256).map fun b =>
        if AllDigits cs then some b else none := by
  induction cs generalizing b256 with
  | nil => exact congrArg some (if_pos fun _ hc => absurd hc List.not_mem_nil).symm
  | cons c cs ih =>
    unfold decodeChars
    rcases decEq (digitOf c) (-1) with hc | hc
    · rw [if_neg hc, List.takeWhile_cons_of_pos (by simpa using hc), digits, List.map_cons, ← digits, List.foldlM_cons]
      rcases b256.push 58 (by decide) (digitOf c).toNat with _ | b
      · rfl
      · show decodeChars b cs = Option.map _ (List.foldlM _ b _)
        rw [ih b]
        simp only [allDigits_cons, hc, ne_eq, not_false_eq_true, true_and]
    · rw [if_pos hc, List.takeWhile_cons_of_neg (by simpa using hc)]
      exact congrArg some (if_neg fun h => (allDigits_cons.mp h).1 hc).symm

/-- The loop does not fail where the buffer has room for the characters. -/
theorem exists_decodeChars {size : Nat} {cs : List UInt8} (hsize : 58 ^ cs.length ≤ 256 ^ size) :
    (AllDigits cs → ∃ b, decodeChars (DigitBuffer.zero size (by decide)) cs = some (some b) ∧
      b.significant = (Nat.digits 256 (numeralValue 58 (digits cs))).reverse) ∧
    (¬ AllDigits cs → decodeChars (DigitBuffer.zero size (by decide)) cs = some none) := by
  have hpre : AllDigits (cs.takeWhile (digitOf · ≠ -1)) := by
    intro c hc
    have := List.mem_takeWhile_imp hc
    exact of_decide_eq_true this
  have hlen : 58 ^ (digits (cs.takeWhile (digitOf · ≠ -1))).length ≤ 256 ^ size := by
    rw [digits, List.length_map]
    exact Nat.le_trans (Nat.pow_le_pow_right (by decide) (List.takeWhile_sublist _).length_le) hsize
  obtain ⟨b, hf, hs⟩ := DigitBuffer.exists_significant (by decide : 1 < 256) (digits_lt hpre) hlen
  rw [decodeChars_eq, hf, Option.map_some]
  refine ⟨fun h => ⟨b, by rw [if_pos h], ?_⟩, fun h => by rw [if_neg h]⟩
  rw [hs, List.takeWhile_eq_self_iff.mpr fun c hc => decide_eq_true (h c hc)]

/-! ### White space -/

section List

variable {α : Type*} {p q : α → Bool}

/-- What satisfies `q` satisfies `p`, too. -/
theorem takeWhile_dropWhile_comm (h : ∀ x, q x → p x) (l : List α) :
    (l.dropWhile q).takeWhile p = (l.takeWhile p).dropWhile q := by
  induction l with
  | nil => rfl
  | cons x l ih =>
    by_cases hq : q x
    · rw [List.dropWhile_cons_of_pos hq, List.takeWhile_cons_of_pos (h x hq), List.dropWhile_cons_of_pos hq, ih]
    · rw [List.dropWhile_cons_of_neg hq]
      by_cases hp : p x
      · rw [List.takeWhile_cons_of_pos hp, List.dropWhile_cons_of_neg hq]
      · rw [List.takeWhile_cons_of_neg hp, List.dropWhile_nil]

theorem dropWhile_dropWhile_of_imp (h : ∀ x, q x → p x) (l : List α) :
    (l.dropWhile q).dropWhile p = l.dropWhile p := by
  induction l with
  | nil => rfl
  | cons x l ih =>
    by_cases hq : q x
    · rw [List.dropWhile_cons_of_pos hq, List.dropWhile_cons_of_pos (h x hq), ih]
    · rw [List.dropWhile_cons_of_neg hq]

theorem takeWhile_takeWhile_of_imp (h : ∀ x, q x → p x) (l : List α) :
    (l.takeWhile p).takeWhile q = l.takeWhile q := by
  induction l with
  | nil => rfl
  | cons x l ih =>
    by_cases hq : q x
    · rw [List.takeWhile_cons_of_pos (h x hq), List.takeWhile_cons_of_pos hq, List.takeWhile_cons_of_pos hq, ih]
    · by_cases hp : p x
      · rw [List.takeWhile_cons_of_pos hp, List.takeWhile_cons_of_neg hq, List.takeWhile_cons_of_neg hq]
      · rw [List.takeWhile_cons_of_neg hp, List.takeWhile_cons_of_neg hq, List.takeWhile_nil]

end List

/-- The characters up to white space, and those from there on. -/
def word (cs : List UInt8) : List UInt8 := (cs.dropWhile isspace).takeWhile (!isspace ·)

def tail (cs : List UInt8) : List UInt8 := (cs.dropWhile isspace).dropWhile (!isspace ·)

theorem isspace_of_mem_word {cs : List UInt8} {c : UInt8} (hc : c ∈ word cs) : isspace c = false := by
  have := List.mem_takeWhile_imp hc
  simpa using this

theorem strip_eq (cs : List UInt8) : strip cs = (((tail cs).reverse ++ (word cs).reverse).dropWhile isspace).reverse := by
  rw [strip, ← List.reverse_append, word, tail, List.takeWhile_append_dropWhile]

theorem dropWhile_isspace {cs : List UInt8} (h : ∀ c ∈ cs, isspace c = false) : cs.dropWhile isspace = cs := by
  refine List.dropWhile_eq_self_iff.mpr fun hl hc => ?_
  rw [h _ (List.getElem_mem hl)] at hc
  cases hc

theorem strip_of_forall {cs : List UInt8} (h : ∀ c ∈ cs, isspace c = false) : strip cs = cs := by
  rw [strip, dropWhile_isspace h, dropWhile_isspace fun c hc => h c (List.mem_reverse.mp hc), List.reverse_reverse]

/-- The string is a word with white space around it. -/
theorem strip_eq_word {cs : List UInt8} (h : (tail cs).dropWhile isspace = []) : strip cs = word cs := by
  have htail : ∀ c ∈ (tail cs).reverse, isspace c = true := fun c hc =>
    List.dropWhile_eq_nil_iff.mp h c (List.mem_reverse.mp hc)
  rw [strip_eq, List.dropWhile_append_of_pos htail, dropWhile_isspace, List.reverse_reverse]
  exact fun c hc => isspace_of_mem_word (List.mem_reverse.mp hc)

/-- The string has white space within it. -/
theorem exists_isspace_of_tail {cs : List UInt8} (h : (tail cs).dropWhile isspace ≠ []) :
    ∃ c ∈ strip cs, isspace c = true := by
  have hhead := List.head?_dropWhile_not (!isspace ·) (cs.dropWhile isspace)
  rw [← tail] at hhead
  rcases ht : tail cs with _ | ⟨y, ys⟩
  · rw [ht] at h
    exact absurd List.dropWhile_nil h
  · rw [ht] at h hhead
    have hy : isspace y = true := by simpa using hhead
    rw [List.dropWhile_cons_of_pos hy] at h
    -- What is no white space comes behind `y`.
    have hys : (ys.reverse.dropWhile isspace).isEmpty = false := by
      rw [List.isEmpty_eq_false_iff]
      refine fun hn => h (List.dropWhile_eq_nil_iff.mpr fun c hc => ?_)
      exact List.dropWhile_eq_nil_iff.mp hn c (List.mem_reverse.mpr hc)
    refine ⟨y, ?_, hy⟩
    rw [strip_eq, ht, List.reverse_cons, List.append_assoc, List.dropWhile_append, hys, if_neg Bool.false_ne_true,
      List.mem_reverse]
    exact List.mem_append_right _ (List.mem_append_left _ (List.mem_singleton.mpr rfl))

/-- The decoding, if the string is one of digits with white space around it, has
the value and the leading zeros of the string. -/
theorem decodeBase58_eq (psz vch : List UInt8) : decodeBase58 psz vch =
    some (if AllDigits (strip psz) then (true, (convert 58 256 (digits (strip psz))).map UInt8.ofNat)
      else (false, vch)) := by
  have hone : ∀ c : UInt8, decide (c = one) = true → (!isspace c) = true := by
    intro c hc
    rw [of_decide_eq_true hc]
    rfl
  have hfits : 58 ^ ((word psz).dropWhile (· = one)).length ≤
      256 ^ (((psz.dropWhile isspace).dropWhile (· = one)).length * 733 / 1000 + 1) := by
    rw [word, ← takeWhile_dropWhile_comm hone]
    apply Nat.le_trans (Nat.pow_le_pow_right (by decide) (List.takeWhile_sublist _).length_le)
    exact pow_le_pow_of_ratio (by decide) (by decide) (by decide +kernel) _
  obtain ⟨hok, hfail⟩ := exists_decodeChars hfits
  -- The leading '1's are digits.
  have hall : AllDigits ((word psz).dropWhile (· = one)) ↔ AllDigits (word psz) := by
    refine ⟨fun h c hc => ?_, fun h c hc => h c ((List.dropWhile_sublist _).mem hc)⟩
    rw [← List.takeWhile_append_dropWhile (p := fun c : UInt8 => decide (c = one)) (l := word psz)] at hc
    rcases List.mem_append.mp hc with hc | hc
    · have hc := List.mem_takeWhile_imp hc
      rw [of_decide_eq_true hc]
      decide
    · exact h c hc
  unfold decodeBase58
  dsimp only
  rw [takeWhile_dropWhile_comm hone, dropWhile_dropWhile_of_imp hone, ← takeWhile_takeWhile_of_imp hone, ← word, ← tail]
  by_cases hw : AllDigits (word psz)
  · obtain ⟨b256, hb, hs⟩ := hok (hall.mpr hw)
    rw [hb]
    show (if (tail psz).dropWhile isspace ≠ [] then some (false, vch) else some (true, _)) = _
    by_cases ht : (tail psz).dropWhile isspace = []
    · rw [if_neg (not_not.mpr ht), strip_eq_word ht, if_pos hw, convert_eq, List.map_append, List.map_replicate,
        takeWhile_one hw, hs, digits_dropWhile_one hw]
      rfl
    · obtain ⟨c, hc, hsp⟩ := exists_isspace_of_tail ht
      rw [if_pos ht, if_neg fun h => h c hc (digitOf_of_isspace c hsp)]
  · rw [hfail (mt hall.mp hw)]
    by_cases ht : (tail psz).dropWhile isspace = []
    · rw [strip_eq_word ht, if_neg hw]
      rfl
    · obtain ⟨c, hc, hsp⟩ := exists_isspace_of_tail ht
      rw [if_neg fun h => h c hc (digitOf_of_isspace c hsp)]
      rfl

end Bryllite.Base58
