import Mathlib.Data.List.Basic

/-!
# Hex text

Lowercase hex text of bytes. Text of an even number of digits is that of bytes
(`exists_hexText`), which are read back from it (`hexPairs_hexText`).
-/

namespace Bryllite.Base58

/-- The lowercase hex digits. -/
def hexDigits : List UInt8 :=
  ['0', '1', '2', '3', '4', '5', '6', '7', '8', '9', 'a', 'b', 'c', 'd', 'e', 'f'].map Char.toUInt8

/-- Two lowercase hex digits for a byte. -/
def hexByte (b : UInt8) : List UInt8 := [hexDigits.getD (b.toNat / 16) 0, hexDigits.getD (b.toNat % 16) 0]

/-- Two for each byte. -/
def hexText (bs : List UInt8) : List UInt8 := bs.flatMap hexByte

/-- Lowercase hex digits, an even number of them. -/
def IsHex (s : List UInt8) : Prop := s.length % 2 = 0 ∧ ∀ c ∈ s, c ∈ hexDigits

instance (s : List UInt8) : Decidable (IsHex s) := inferInstanceAs (Decidable (_ ∧ _))

theorem hexText_cons (b : UInt8) (bs : List UInt8) : hexText (b :: bs) = hexByte b ++ hexText bs := List.flatMap_cons

theorem hexText_append (bs bs' : List UInt8) : hexText (bs ++ bs') = hexText bs ++ hexText bs' := List.flatMap_append

theorem length_hexText (bs : List UInt8) : (hexText bs).length = 2 * bs.length := by
  induction bs with
  | nil => rfl
  | cons b bs ih =>
    rw [hexText_cons, List.length_append, ih, List.length_cons]
    show 2 + _ = _
    omega

theorem isHex_hexText (bs : List UInt8) : IsHex (hexText bs) := by
  refine ⟨by rw [length_hexText]; omega, fun c hc => ?_⟩
  obtain ⟨b, -, hb⟩ := List.mem_flatMap.mp hc
  have hdigit : ∀ n < 16, hexDigits.getD n 0 ∈ hexDigits := by decide +kernel
  have := b.toNat_lt
  simp only [hexByte, List.mem_cons, List.not_mem_nil, or_false] at hb
  rcases hb with rfl | rfl
  · exact hdigit _ (by omega)
  · exact hdigit _ (by omega)

/-- Two hex digits are those of a byte. -/
theorem exists_hexByte {c d : UInt8} (hc : c ∈ hexDigits) (hd : d ∈ hexDigits) : ∃ b, hexByte b = [c, d] := by
  obtain ⟨m, hm, rfl⟩ := List.getElem_of_mem hc
  obtain ⟨n, hn, rfl⟩ := List.getElem_of_mem hd
  have hget : ∀ k (hk : k < hexDigits.length), hexDigits.getD k 0 = hexDigits[k] := fun k hk => by
    rw [List.getD_eq_getElem?_getD, List.getElem?_eq_getElem hk, Option.getD_some]
  have hm' : m < 16 := hm
  have hn' : n < 16 := hn
  have hb : (UInt8.ofNat (16 * m + n)).toNat = 16 * m + n := UInt8.toNat_ofNat_of_lt' (by
    show 16 * m + n < 256
    omega)
  refine ⟨UInt8.ofNat (16 * m + n), ?_⟩
  rw [hexByte, hb, show (16 * m + n) / 16 = m by omega, show (16 * m + n) % 16 = n by omega, hget m hm, hget n hn]

/-- Hex text of an even length is that of bytes. -/
theorem exists_hexText : ∀ s : List UInt8, IsHex s → ∃ bs, hexText bs = s
  | [], _ => ⟨[], rfl⟩
  | [_], h => absurd h.1 Nat.one_ne_zero
  | c :: d :: s, h => by
    have hs : IsHex s := by
      refine ⟨?_, fun x hx => h.2 x (List.mem_cons_of_mem _ (List.mem_cons_of_mem _ hx))⟩
      have := h.1
      rw [List.length_cons, List.length_cons] at this
      omega
    obtain ⟨bs, hbs⟩ := exists_hexText s hs
    obtain ⟨b, hb⟩ := exists_hexByte (h.2 c List.mem_cons_self) (h.2 d (List.mem_cons_of_mem _ List.mem_cons_self))
    refine ⟨b :: bs, ?_⟩
    rw [hexText_cons, hb, hbs]
    rfl

/-- The bytes of hex text. -/
def hexPairs : List UInt8 → List UInt8
  | c :: d :: s => UInt8.ofNat (16 * hexDigits.idxOf c + hexDigits.idxOf d) :: hexPairs s
  | _ => []

theorem hexPairs_hexText (bs : List UInt8) : hexPairs (hexText bs) = bs := by
  induction bs with
  | nil => rfl
  | cons b bs ih =>
    have hidx : ∀ n < 16, hexDigits.idxOf (hexDigits.getD n 0) = n := by decide +kernel
    have hb := b.toNat_lt
    rw [hexText_cons]
    show UInt8.ofNat (16 * hexDigits.idxOf (hexDigits.getD _ 0) + hexDigits.idxOf (hexDigits.getD _ 0)) :: _ = _
    rw [hidx _ (by omega), hidx _ (by omega), Nat.div_add_mod, UInt8.ofNat_toNat]
    exact congrArg _ ih

end Bryllite.Base58
