import Mathlib.Data.ZMod.Basic
import Mathlib.NumberTheory.LucasPrimality
import Mathlib.Tactic.NormNum.Prime
import Mathlib.Tactic.ReduceModChar

/-! # The base field

The Goldilocks prime, by Lucas's test with the generator of the multiplicative group that the
source uses. -/

namespace MegaZK

/-- `ORDER_U64`. -/
def goldilocksOrder : ℕ := 2 ^ 64 - 2 ^ 32 + 1

/-- The prime factors of the order of the multiplicative group. -/
lemma eq_of_prime_dvd_pred {q : ℕ} (hq : q.Prime) (hdvd : q ∣ 18446744069414584321 - 1) :
    q = 2 ∨ q = 3 ∨ q = 5 ∨ q = 17 ∨ q = 257 ∨ q = 65537 := by
  have hfactors : 18446744069414584321 - 1 = 2 ^ 32 * 3 * 5 * 17 * 257 * 65537 := by norm_num
  rw [hfactors] at hdvd
  simp only [hq.dvd_mul] at hdvd
  have heq : ∀ p : ℕ, p.Prime → q ∣ p → q = p := by
    intro p hp
    exact (Nat.prime_dvd_prime_iff_eq hq hp).mp
  rcases hdvd with ((((h | h) | h) | h) | h) | h
  · exact .inl (heq 2 Nat.prime_two (hq.dvd_of_dvd_pow h))
  · exact .inr (.inl (heq 3 Nat.prime_three h))
  · exact .inr (.inr (.inl (heq 5 Nat.prime_five h)))
  · exact .inr (.inr (.inr (.inl (heq 17 (by norm_num) h))))
  · exact .inr (.inr (.inr (.inr (.inl (heq 257 (by norm_num) h)))))
  · exact .inr (.inr (.inr (.inr (.inr (heq 65537 (by norm_num) h)))))

theorem prime_goldilocksOrder : goldilocksOrder.Prime := by
  change Nat.Prime 18446744069414584321
  apply lucas_primality 18446744069414584321 7
  · norm_num only
    reduce_mod_char
  · intro q hq hdvd
    rcases eq_of_prime_dvd_pred hq hdvd with rfl | rfl | rfl | rfl | rfl | rfl
    all_goals
      norm_num only
      reduce_mod_char
      decide

instance : Fact goldilocksOrder.Prime := ⟨prime_goldilocksOrder⟩

/-- `GoldilocksField`. -/
abbrev GoldilocksField : Type := ZMod goldilocksOrder

/-- Seven, which generates the multiplicative group, is a numeral of every ring. -/
instance atLeastTwo_seven : Nat.AtLeastTwo 7 := ⟨by decide⟩

end MegaZK
