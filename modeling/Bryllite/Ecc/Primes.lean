import Bryllite.Ecc.Reduce
import Bryllite.Framework.Lucas

/-!
# The primes of the curve (secp256r1.cpp, curve_p and curve_n)

`curve_p` and `curve_n` are prime, by certificates that go down to `2` (`prime_curveP`,
`prime_curveN`).
-/

namespace Bryllite.Ecc

open Bryllite.Framework

/-- `curve_n`. -/
def curveN : Vli := ⟨[0xF3B9CAC2FC632551, 0xBCE6FAADA7179E84, 0xFFFFFFFFFFFFFFFF, 0xFFFFFFFF00000000], rfl⟩

theorem value_curveN : curveN.value = 115792089210356248762697446949407573529996955224135760342422259061068512044369 := by
  decide +kernel

/-- The two numbers and the primes below them that they rest on. -/
def curveCertificates : List Certificate :=
  [⟨115792089210356248762697446949407573530086143415290314195533631308867097853951, 6, [(2, 1), (3, 1), (5, 2),
     (17, 1), (257, 1), (641, 1), (1531, 1), (65537, 1), (490463, 1), (6700417, 1),
     (835945042244614951780389953367877943453916927241, 1)]⟩,
   ⟨115792089210356248762697446949407573529996955224135760342422259061068512044369, 7, [(2, 4), (3, 1), (71, 1),
     (131, 1), (373, 1), (3407, 1), (17449, 1), (38189, 1), (187019741, 1), (622491383, 1), (1002328039319, 1),
     (2624747550333869278416773953, 1)]⟩,
   ⟨835945042244614951780389953367877943453916927241, 11, [(2, 3), (3, 3), (5, 1),
     (774023187263532362759620327192479577272145303, 1)]⟩,
   ⟨774023187263532362759620327192479577272145303, 3, [(2, 1), (3, 2), (2411, 1), (34282281433, 1),
     (11290956913871, 1), (46076956964474543, 1)]⟩,
   ⟨2624747550333869278416773953, 7, [(2, 6), (3, 2), (1297, 1), (16879, 1), (208150935158385979, 1)]⟩,
   ⟨208150935158385979, 2, [(2, 1), (3, 1), (11, 1), (43, 1), (127, 1), (3023, 1), (191039911, 1)]⟩,
   ⟨46076956964474543, 5, [(2, 1), (23, 1), (18169, 1), (78283, 1), (704251, 1)]⟩,
   ⟨11290956913871, 13, [(2, 1), (5, 1), (17, 1), (66417393611, 1)]⟩,
   ⟨1002328039319, 19, [(2, 1), (126241, 1), (3969899, 1)]⟩,
   ⟨66417393611, 6, [(2, 1), (5, 1), (53, 1), (173, 1), (197, 1), (3677, 1)]⟩,
   ⟨34282281433, 17, [(2, 3), (3, 1), (7, 1), (204061199, 1)]⟩, ⟨622491383, 5, [(2, 1), (311245691, 1)]⟩,
   ⟨311245691, 2, [(2, 1), (5, 1), (7, 1), (17, 1), (29, 2), (311, 1)]⟩,
   ⟨204061199, 11, [(2, 1), (11, 1), (23, 1), (107, 1), (3769, 1)]⟩,
   ⟨191039911, 3, [(2, 1), (3, 1), (5, 1), (41, 1), (155317, 1)]⟩,
   ⟨187019741, 2, [(2, 2), (5, 1), (9350987, 1)]⟩, ⟨9350987, 2, [(2, 1), (17, 1), (229, 1), (1201, 1)]⟩,
   ⟨6700417, 5, [(2, 7), (3, 1), (17449, 1)]⟩, ⟨3969899, 2, [(2, 1), (19, 1), (104471, 1)]⟩,
   ⟨704251, 2, [(2, 1), (3, 2), (5, 3), (313, 1)]⟩, ⟨490463, 14, [(2, 1), (7, 1), (53, 1), (661, 1)]⟩,
   ⟨155317, 5, [(2, 2), (3, 1), (7, 1), (43, 2)]⟩, ⟨126241, 7, [(2, 5), (3, 1), (5, 1), (263, 1)]⟩,
   ⟨104471, 11, [(2, 1), (5, 1), (31, 1), (337, 1)]⟩, ⟨78283, 3, [(2, 1), (3, 2), (4349, 1)]⟩,
   ⟨65537, 3, [(2, 16)]⟩, ⟨38189, 2, [(2, 2), (9547, 1)]⟩, ⟨18169, 11, [(2, 3), (3, 1), (757, 1)]⟩,
   ⟨17449, 14, [(2, 3), (3, 1), (727, 1)]⟩, ⟨16879, 3, [(2, 1), (3, 1), (29, 1), (97, 1)]⟩,
   ⟨9547, 2, [(2, 1), (3, 1), (37, 1), (43, 1)]⟩, ⟨4349, 2, [(2, 2), (1087, 1)]⟩,
   ⟨3769, 7, [(2, 3), (3, 1), (157, 1)]⟩, ⟨3677, 2, [(2, 2), (919, 1)]⟩, ⟨3407, 5, [(2, 1), (13, 1), (131, 1)]⟩,
   ⟨3023, 5, [(2, 1), (1511, 1)]⟩, ⟨2411, 6, [(2, 1), (5, 1), (241, 1)]⟩,
   ⟨1531, 2, [(2, 1), (3, 2), (5, 1), (17, 1)]⟩, ⟨1511, 11, [(2, 1), (5, 1), (151, 1)]⟩,
   ⟨1297, 10, [(2, 4), (3, 4)]⟩, ⟨1201, 11, [(2, 4), (3, 1), (5, 2)]⟩, ⟨1087, 3, [(2, 1), (3, 1), (181, 1)]⟩,
   ⟨919, 7, [(2, 1), (3, 3), (17, 1)]⟩, ⟨757, 2, [(2, 2), (3, 3), (7, 1)]⟩, ⟨727, 5, [(2, 1), (3, 1), (11, 2)]⟩,
   ⟨661, 2, [(2, 2), (3, 1), (5, 1), (11, 1)]⟩, ⟨641, 3, [(2, 7), (5, 1)]⟩, ⟨373, 2, [(2, 2), (3, 1), (31, 1)]⟩,
   ⟨337, 10, [(2, 4), (3, 1), (7, 1)]⟩, ⟨313, 10, [(2, 3), (3, 1), (13, 1)]⟩,
   ⟨311, 17, [(2, 1), (5, 1), (31, 1)]⟩, ⟨263, 5, [(2, 1), (131, 1)]⟩, ⟨257, 3, [(2, 8)]⟩,
   ⟨241, 7, [(2, 4), (3, 1), (5, 1)]⟩, ⟨229, 6, [(2, 2), (3, 1), (19, 1)]⟩, ⟨197, 2, [(2, 2), (7, 2)]⟩,
   ⟨181, 2, [(2, 2), (3, 2), (5, 1)]⟩, ⟨173, 2, [(2, 2), (43, 1)]⟩, ⟨157, 5, [(2, 2), (3, 1), (13, 1)]⟩,
   ⟨151, 6, [(2, 1), (3, 1), (5, 2)]⟩, ⟨131, 2, [(2, 1), (5, 1), (13, 1)]⟩, ⟨127, 3, [(2, 1), (3, 2), (7, 1)]⟩,
   ⟨107, 2, [(2, 1), (53, 1)]⟩, ⟨97, 5, [(2, 5), (3, 1)]⟩, ⟨71, 7, [(2, 1), (5, 1), (7, 1)]⟩,
   ⟨53, 2, [(2, 2), (13, 1)]⟩, ⟨43, 3, [(2, 1), (3, 1), (7, 1)]⟩, ⟨41, 6, [(2, 3), (5, 1)]⟩,
   ⟨37, 2, [(2, 2), (3, 2)]⟩, ⟨31, 3, [(2, 1), (3, 1), (5, 1)]⟩, ⟨29, 2, [(2, 2), (7, 1)]⟩,
   ⟨23, 5, [(2, 1), (11, 1)]⟩, ⟨19, 2, [(2, 1), (3, 2)]⟩, ⟨17, 3, [(2, 4)]⟩, ⟨13, 2, [(2, 2), (3, 1)]⟩,
   ⟨11, 2, [(2, 1), (5, 1)]⟩, ⟨7, 3, [(2, 1), (3, 1)]⟩, ⟨5, 2, [(2, 2)]⟩, ⟨3, 2, [(2, 1)]⟩]

theorem certified_curveCertificates : certified curveCertificates = true := by
  decide +kernel

theorem prime_curveP : curveP.value.Prime :=
  prime_of_certified certified_curveCertificates (by decide +kernel)

theorem prime_curveN : curveN.value.Prime :=
  prime_of_certified certified_curveCertificates (by decide +kernel)

theorem curveN_ne_zero : curveN.value ≠ 0 := prime_curveN.ne_zero

end Bryllite.Ecc
