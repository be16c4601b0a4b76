import Mathlib.Algebra.CharP.Algebra
import Mathlib.FieldTheory.Finite.Basic
import MegaZK.Field.BatchInverse
import MegaZK.Fri.Extension
import MegaZK.Lib.Pratt

/-! # The quadratic extension as a field

Seven is not a square in the base field, so the extension is a field. Its inverses are computed with
the Frobenius map. -/

namespace MegaZK

/-- Seven is no square, by Euler's criterion. -/
lemma pow_half_seven : (7 : GoldilocksField) ^ ((goldilocksOrder - 1) / 2) = -1 := by
  have hone : (7 : GoldilocksField) ^ ((goldilocksOrder - 1) / 2) ≠ 1 := by
    intro h
    have hmod := (Pratt.natCast_pow_eq_one_iff (p := goldilocksOrder) (by decide) 7 _).mp h
    rw [← Pratt.powMod_eq goldilocksOrder
      (by decide : (goldilocksOrder - 1) / 2 < 2 ^ 64)] at hmod
    exact absurd hmod (by decide)
  have htwo : (goldilocksOrder - 1) / 2 * 2 = goldilocksOrder - 1 := by decide
  have hne : (7 : GoldilocksField) ≠ 0 := by decide
  have hsq : ((7 : GoldilocksField) ^ ((goldilocksOrder - 1) / 2)) ^ 2 = 1 := by
    rw [← pow_mul, htwo]
    exact ZMod.pow_card_sub_one_eq_one hne
  exact (sq_eq_one_iff.mp hsq).resolve_left hone

lemma sq_ne_seven (r : GoldilocksField) : r ^ 2 ≠ 7 + 0 * r := by
  intro h
  rw [zero_mul, add_zero] at h
  have hne : r ≠ 0 := by
    rintro rfl
    exact absurd h (by decide)
  have hfermat : r ^ (goldilocksOrder - 1) = 1 := ZMod.pow_card_sub_one_eq_one hne
  have htwo : goldilocksOrder - 1 = 2 * ((goldilocksOrder - 1) / 2) := by decide
  rw [htwo, pow_mul, h, pow_half_seven] at hfermat
  exact absurd hfermat (by decide)

namespace QuadraticField

scoped instance seven_not_square : Fact (∀ r : GoldilocksField, r ^ 2 ≠ 7 + 0 * r) := ⟨sq_ne_seven⟩

end QuadraticField

open scoped QuadraticField

namespace QuadraticExtension

/-! ### Source -/

/-- `DTH_ROOT`. -/
def dthRoot : GoldilocksField := -1

/-- `repeated_frobenius`. -/
def repeatedFrobenius (z : QuadraticExtension) (count : ℕ) : QuadraticExtension :=
  if count = 0 then z
  else if 2 ≤ count then repeatedFrobenius z (count % 2)
  else ⟨z.re, z.im * dthRoot ^ count⟩
termination_by count
decreasing_by omega

/-- `try_inverse`. -/
def tryInverse (z : QuadraticExtension) : Option QuadraticExtension := do
  if z = 0 then none
  else
    let aPowRMinus1 := z.repeatedFrobenius 1
    let aPowR := aPowRMinus1 * z
    let inv ← MegaZK.tryInverse aPowR.re
    return ⟨aPowRMinus1.re * inv, aPowRMinus1.im * inv⟩

/-! ### The Frobenius map -/

lemma dthRoot_eq : dthRoot = 7 ^ ((goldilocksOrder - 1) / 2) := pow_half_seven.symm

instance : CharP QuadraticExtension goldilocksOrder :=
  charP_of_injective_algebraMap (algebraMap GoldilocksField QuadraticExtension).injective
    goldilocksOrder

/-- The conjugate is the power with the order of the base field. -/
lemma pow_order (z : QuadraticExtension) : z ^ goldilocksOrder = ⟨z.re, z.im * dthRoot⟩ := by
  have hsplit : z = .C z.re + .C z.im * ⟨0, 1⟩ := by ext <;> simp
  have hbase : ∀ x : GoldilocksField,
      (.C x : QuadraticExtension) ^ goldilocksOrder = .C x := by
    intro x
    rw [QuadraticAlgebra.C_eq_algebraMap, ← map_pow, ZMod.pow_card]
  have hroot : (⟨0, 1⟩ : QuadraticExtension) ^ goldilocksOrder = ⟨0, dthRoot⟩ := by
    have hodd : goldilocksOrder = 2 * ((goldilocksOrder - 1) / 2) + 1 := by decide
    have hsq : (⟨0, 1⟩ : QuadraticExtension) ^ 2 = .C (7 : GoldilocksField) := by
      rw [pow_two]
      ext
      · rw [QuadraticAlgebra.re_mul, QuadraticAlgebra.re_C]
        ring
      · rw [QuadraticAlgebra.im_mul, QuadraticAlgebra.im_C]
        ring
    calc (⟨0, 1⟩ : QuadraticExtension) ^ goldilocksOrder
        = (⟨0, 1⟩ : QuadraticExtension) ^ (2 * ((goldilocksOrder - 1) / 2) + 1) :=
          congrArg _ hodd
      _ = .C dthRoot * ⟨0, 1⟩ := by
          rw [pow_succ, pow_mul, hsq, QuadraticAlgebra.C_eq_algebraMap, ← map_pow, ← dthRoot_eq,
            ← QuadraticAlgebra.C_eq_algebraMap]
      _ = ⟨0, dthRoot⟩ := by ext <;> simp
  calc z ^ goldilocksOrder
      = (.C z.re + .C z.im * ⟨0, 1⟩) ^ goldilocksOrder := congrArg (· ^ goldilocksOrder) hsplit
    _ = .C z.re + .C z.im * ⟨0, dthRoot⟩ := by
        rw [add_pow_char, mul_pow, hbase, hbase, hroot]
    _ = ⟨z.re, z.im * dthRoot⟩ := by ext <;> simp

lemma pow_order_sq (z : QuadraticExtension) : (z ^ goldilocksOrder) ^ goldilocksOrder = z := by
  rw [pow_order, pow_order]
  ext <;> simp [dthRoot]

lemma repeatedFrobenius_one (z : QuadraticExtension) :
    z.repeatedFrobenius 1 = ⟨z.re, z.im * dthRoot⟩ := by
  rw [repeatedFrobenius, if_neg one_ne_zero, if_neg (by decide), pow_one]

/-- `repeated_frobenius` raises to the order of the base field, `count` times. -/
theorem repeatedFrobenius_eq (z : QuadraticExtension) (count : ℕ) :
    z.repeatedFrobenius count = z ^ goldilocksOrder ^ count := by
  have hone : z.repeatedFrobenius 1 = z ^ goldilocksOrder := by
    rw [repeatedFrobenius_one, pow_order]
  have hzero : z.repeatedFrobenius 0 = z := by
    rw [repeatedFrobenius, if_pos rfl]
  have heven : ∀ k, z ^ goldilocksOrder ^ (2 * k) = z := by
    intro k
    induction k with
    | zero => simp
    | succ k ih =>
      rw [Nat.mul_succ, pow_add, pow_mul, ih, pow_two, pow_mul, pow_order_sq]
  have hmod : z ^ goldilocksOrder ^ count = z ^ goldilocksOrder ^ (count % 2) := by
    conv_lhs => rw [← Nat.div_add_mod count 2, pow_add, pow_mul, heven]
  have hsmall : z.repeatedFrobenius (count % 2) = z ^ goldilocksOrder ^ (count % 2) := by
    rcases Nat.mod_two_eq_zero_or_one count with h | h
    · rw [h, hzero, pow_zero, pow_one]
    · rw [h, hone, pow_one]
  rw [hmod, ← hsmall]
  rcases Nat.lt_or_ge count 2 with hlt | hge
  · rw [Nat.mod_eq_of_lt hlt]
  · conv_lhs => rw [repeatedFrobenius, if_neg (by omega), if_pos hge]

/-- An element times its conjugate is in the base field. -/
lemma conj_mul (z : QuadraticExtension) :
    (⟨z.re, -z.im⟩ : QuadraticExtension) * z =
      .C ((⟨z.re, -z.im⟩ : QuadraticExtension) * z).re := by
  ext
  · rfl
  · rw [QuadraticAlgebra.im_mul, QuadraticAlgebra.im_C]
    ring

lemma re_conj_mul_ne_zero {z : QuadraticExtension} (hz : z ≠ 0) :
    ((⟨z.re, -z.im⟩ : QuadraticExtension) * z).re ≠ 0 := by
  intro hzero
  have hnorm := conj_mul z
  rw [hzero, QuadraticAlgebra.C_zero, mul_eq_zero] at hnorm
  rcases hnorm with hconj | hz0
  · have hre : z.re = 0 := congrArg QuadraticAlgebra.re hconj
    have him : -z.im = 0 := congrArg QuadraticAlgebra.im hconj
    apply hz
    ext
    · exact hre
    · exact neg_eq_zero.mp him
  · exact hz hz0

lemma mk_mul_eq_mul_C (a b c : GoldilocksField) :
    (⟨a * c, b * c⟩ : QuadraticExtension) = ⟨a, b⟩ * .C c := by
  ext
  · rw [QuadraticAlgebra.re_mul, QuadraticAlgebra.re_C, QuadraticAlgebra.im_C]
    ring
  · rw [QuadraticAlgebra.im_mul, QuadraticAlgebra.re_C, QuadraticAlgebra.im_C]
    ring

/-- Only zero has no inverse. -/
theorem tryInverse_eq (z : QuadraticExtension) : z.tryInverse = MegaZK.tryInverse z := by
  rw [tryInverse, MegaZK.tryInverse]
  split_ifs with hz
  · rfl
  · have hconj : z.repeatedFrobenius 1 = ⟨z.re, -z.im⟩ := by
      rw [repeatedFrobenius_one]
      ext <;> simp [dthRoot]
    have hnorm := conj_mul z
    have hne := re_conj_mul_ne_zero hz
    set norm := ((⟨z.re, -z.im⟩ : QuadraticExtension) * z).re with hdef
    have hinv : (⟨z.re * norm⁻¹, -z.im * norm⁻¹⟩ : QuadraticExtension) * z = 1 := by
      rw [mk_mul_eq_mul_C, mul_right_comm, hnorm, QuadraticAlgebra.C_eq_algebraMap, ← map_mul,
        mul_inv_cancel₀ hne, map_one]
    simp only [hconj, ← hdef, tryInverse_of_ne_zero hne, Option.bind_eq_bind, Option.bind_some,
      Option.pure_def]
    rw [eq_inv_of_mul_eq_one_left hinv]

end QuadraticExtension

end MegaZK
