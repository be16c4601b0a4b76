import MegaZK.Lib.Pratt
import Mathlib.Data.Nat.Digits.Defs
import Mathlib.Tactic.NormNum.Prime

/-! # Orders of the non-native fields

The moduli of the inverse generator are prime. -/

namespace MegaZK

/-- The digits of `Ed25519Base::order`, `Secp256K1Base::order` and `Secp256K1Scalar::order`, as
the `orders` of `non_native_inverse_generator_kernel`. -/
def orderDigits : List (List ℕ) :=
  [[0xFFFFFFED, 0xFFFFFFFF, 0xFFFFFFFF, 0xFFFFFFFF, 0xFFFFFFFF, 0xFFFFFFFF, 0xFFFFFFFF,
      0x7FFFFFFF],
    [0xFFFFFC2F, 0xFFFFFFFE, 0xFFFFFFFF, 0xFFFFFFFF, 0xFFFFFFFF, 0xFFFFFFFF, 0xFFFFFFFF,
      0xFFFFFFFF],
    [0xD0364141, 0xBFD25E8C, 0xAF48A03B, 0xBAAEDCE6, 0xFFFFFFFE, 0xFFFFFFFF, 0xFFFFFFFF,
      0xFFFFFFFF]]

def orders : List ℕ := orderDigits.map (Nat.ofDigits (2 ^ 32))

/-- The primes that the certificates of the orders end in. -/
def orderFactors : List ℕ :=
  [2, 3, 5, 7, 11, 13, 17, 19, 29, 31, 41, 43, 47, 53, 59, 97, 103, 107, 109, 127, 149, 223,
   293, 353, 419, 461, 631, 797, 971, 991, 1373, 1627, 1723, 1871, 2011, 2437, 2621, 2657,
   2731, 3727, 4051, 4153, 4423, 5323, 7723, 9349, 13441, 16699, 20113, 24809, 28181, 41201,
   57467, 65147, 75707, 85831, 96557, 120233, 132049]

/-- Lucas's test for the orders. -/
def orderCertificates : List Pratt.Entry :=
  [⟨115792089237316195423570985008687907852837564279074904382605163141518161494337, 7, [2,
      2, 2, 2, 2, 2, 3, 149, 631, 107361793816595537, 174723607534414371449,
      341948486974166000522343609283189]⟩,
   ⟨341948486974166000522343609283189, 2, [2, 2, 3, 3, 3, 109,
      29047611873442575647497758179]⟩,
   ⟨29047611873442575647497758179, 2, [2, 293, 305873, 545358713, 297159362677]⟩,
   ⟨545358713, 5, [2, 2, 2, 41, 59, 28181]⟩,
   ⟨297159362677, 2, [2, 2, 3, 3, 11, 461, 1627771]⟩,
   ⟨1627771, 3, [2, 3, 5, 29, 1871]⟩,
   ⟨305873, 3, [2, 2, 2, 2, 7, 2731]⟩,
   ⟨107361793816595537, 3, [2, 2, 2, 2, 16699, 85831, 4681609]⟩,
   ⟨4681609, 23, [2, 2, 2, 3, 97, 2011]⟩,
   ⟨174723607534414371449, 3, [2, 2, 2, 17, 59, 4051, 120233, 44706919]⟩,
   ⟨44706919, 6, [2, 3, 797, 9349]⟩,
   ⟨115792089237316195423570985008687907853269984665640564039457584007908834671663, 3, [2,
      3, 7, 13441,
      205115282021455665897114700593932402728804164701536103180137503955397371]⟩,
   ⟨205115282021455665897114700593932402728804164701536103180137503955397371, 10, [2, 3, 5,
      29, 29, 31, 7723, 132896956044521568488119, 255515944373312847190720520512484175977]⟩,
   ⟨132896956044521568488119, 6, [2, 3, 22149492674086928081353]⟩,
   ⟨22149492674086928081353, 5, [2, 2, 2, 3, 5323, 173378833005251801]⟩,
   ⟨173378833005251801, 6, [2, 2, 2, 5, 5, 2621, 24809, 13331831]⟩,
   ⟨13331831, 13, [2, 5, 971, 1373]⟩,
   ⟨255515944373312847190720520512484175977, 3, [2, 2, 2, 7, 7, 11, 1627, 2657, 4423, 41201,
      96557, 7240687, 107590001]⟩,
   ⟨107590001, 3, [2, 2, 2, 2, 5, 5, 5, 5, 7, 29, 53]⟩,
   ⟨7240687, 3, [2, 3, 1206781]⟩,
   ⟨1206781, 10, [2, 2, 3, 5, 20113]⟩,
   ⟨57896044618658097711785492504343953926634992332820282019728792003956564819949, 2, [2, 2,
      3, 65147, 74058212732561358302231226437062788676166966415465897661863160754340907]⟩,
   ⟨74058212732561358302231226437062788676166966415465897661863160754340907, 2, [2, 3, 353,
      57467, 132049, 1923133, 31757755568855353, 75445702479781427272750846543864801]⟩,
   ⟨1923133, 2, [2, 2, 3, 43, 3727]⟩,
   ⟨31757755568855353, 10, [2, 2, 2, 3, 31, 107, 223, 4153, 430751]⟩,
   ⟨430751, 17, [2, 5, 5, 5, 1723]⟩,
   ⟨75445702479781427272750846543864801, 7, [2, 2, 2, 2, 2, 3, 3, 5, 5, 75707, 72106336199,
      1919519569386763]⟩,
   ⟨1919519569386763, 2, [2, 3, 7, 19, 47, 47, 127, 8574133]⟩,
   ⟨8574133, 2, [2, 2, 3, 7, 103, 991]⟩,
   ⟨72106336199, 7, [2, 13, 2773320623]⟩,
   ⟨2773320623, 5, [2, 2437, 569003]⟩,
   ⟨569003, 2, [2, 7, 97, 419]⟩]

lemma prime_of_mem_orderFactors : ∀ q ∈ orderFactors, q.Prime := by
  simp only [orderFactors, List.forall_mem_cons]
  norm_num

lemma certified_orders : Pratt.Certified 256 orderFactors orderCertificates := by
  decide +kernel

theorem prime_of_mem_orders : ∀ m ∈ orders, m.Prime := by
  have hmem : ∀ m ∈ orders, m ∈ orderCertificates.map Pratt.Entry.prime := by decide
  intro m hm
  obtain ⟨e, he, rfl⟩ := List.mem_map.mp (hmem m hm)
  exact certified_orders.prime prime_of_mem_orderFactors e he

lemma lt_of_mem_orders : ∀ m ∈ orders, m < 2 ^ 256 := by decide

end MegaZK
