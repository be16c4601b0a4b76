import Mathlib.Algebra.QuadraticAlgebra.Basic
import Mathlib.RingTheory.RootsOfUnity.PrimitiveRoots
import MegaZK.Goldilocks
import MegaZK.Lib.Horner

/-! # The quadratic extension

The extension of the base field by a square root of `7`, with its roots of unity of order a power of
two. -/

namespace MegaZK

open Horner

section ExtensionField

variable {F : Type} [CommRing F]

/-- The quadratic extension in which seven is a square. -/
abbrev ExtensionField (F : Type) [CommRing F] := QuadraticAlgebra F (7 : F) 0

/-- `mul_ext`. -/
def mulExt (x y : ExtensionField F) : ExtensionField F :=
  ⟨x.re * y.re + 7 * (x.im * y.im), x.re * y.im + x.im * y.re⟩

lemma mulExt_eq (x y : ExtensionField F) : mulExt x y = x * y := by
  ext
  · simp [mulExt, mul_assoc]
  · simp [mulExt]

end ExtensionField

/-- `QuadraticExtension<GoldilocksField>`. -/
abbrev QuadraticExtension : Type := ExtensionField GoldilocksField

namespace QuadraticExtension

/-- The second word of the generator below is a numeral of every ring. -/
instance atLeastTwo_powerOfTwoGenerator : Nat.AtLeastTwo 15659105665374529263 := ⟨by decide⟩

/-- `EXT_POWER_OF_TWO_GENERATOR`. -/
def powerOfTwoGenerator : QuadraticExtension := ⟨0, 15659105665374529263⟩

/-- `primitive_root_of_unity`. -/
def primitiveRootOfUnity (nLog : ℕ) : QuadraticExtension :=
  squareTimes (33 - nLog) powerOfTwoGenerator

lemma cast_iterate_square (n x : ℕ) :
    (((fun y => y * y % goldilocksOrder)^[n] x : ℕ) : GoldilocksField) = x ^ 2 ^ n := by
  induction n generalizing x with
  | zero => simp
  | succ n ih =>
    rw [Function.iterate_succ_apply, ih, ZMod.natCast_mod, Nat.cast_mul, ← pow_two, ← pow_mul,
      pow_succ' 2 n]

/-- The square of the generator is the one of the base field. -/
lemma powerOfTwoGenerator_sq :
    powerOfTwoGenerator ^ 2 = algebraMap GoldilocksField QuadraticExtension 1753635133440165772 := by
  have hsq : (7 : GoldilocksField) * 15659105665374529263 * 15659105665374529263 =
      1753635133440165772 := by
    change (7 : ZMod 18446744069414584321) * 15659105665374529263 * 15659105665374529263 =
      1753635133440165772
    reduce_mod_char
  rw [pow_two, QuadraticAlgebra.algebraMap_eq, ← hsq]
  ext
  · simp [powerOfTwoGenerator]
  · simp [powerOfTwoGenerator]

lemma powerOfTwoGenerator_pow : powerOfTwoGenerator ^ 2 ^ 32 = -1 := by
  have hiterate : (fun y => y * y % goldilocksOrder)^[31] 1753635133440165772 =
      goldilocksOrder - 1 := by
    decide
  have hneg : ((goldilocksOrder - 1 : ℕ) : GoldilocksField) = -1 := by
    rw [Nat.cast_sub (by decide)]
    simp
  have hpow : (1753635133440165772 : GoldilocksField) ^ 2 ^ 31 = -1 := by
    have hcast := cast_iterate_square 31 1753635133440165772
    rw [hiterate, hneg] at hcast
    exact hcast.symm
  rw [pow_succ' 2 31, pow_mul, powerOfTwoGenerator_sq, ← map_pow, hpow, map_neg, map_one]

lemma primitiveRootOfUnity_eq (nLog : ℕ) :
    primitiveRootOfUnity nLog = powerOfTwoGenerator ^ 2 ^ (33 - nLog) := squareTimes_eq _ _

lemma neg_one_ne_one : (-1 : QuadraticExtension) ≠ 1 := by
  intro h
  have hre : (-1 : GoldilocksField) = 1 := congrArg QuadraticAlgebra.re h
  exact absurd hre (by decide)

/-- Its half is `-1`. -/
lemma primitiveRootOfUnity_pow_half {nLog : ℕ} (h : 1 ≤ nLog) (h' : nLog ≤ 33) :
    primitiveRootOfUnity nLog ^ 2 ^ (nLog - 1) = -1 := by
  have hexp : 33 - nLog + (nLog - 1) = 32 := by omega
  rw [primitiveRootOfUnity_eq, ← pow_mul, ← pow_add, hexp, powerOfTwoGenerator_pow]

theorem isPrimitiveRoot_primitiveRootOfUnity {nLog : ℕ} (h : 1 ≤ nLog) (h' : nLog ≤ 33) :
    IsPrimitiveRoot (primitiveRootOfUnity nLog) (2 ^ nLog) := by
  obtain ⟨n, rfl⟩ := Nat.exists_eq_add_of_le' h
  have hhalf : primitiveRootOfUnity (n + 1) ^ 2 ^ n = -1 := primitiveRootOfUnity_pow_half h h'
  have hone : primitiveRootOfUnity (n + 1) ^ 2 ^ (n + 1) = 1 := by
    rw [pow_succ, pow_mul, hhalf, neg_one_sq]
  have hne : ¬ primitiveRootOfUnity (n + 1) ^ 2 ^ n = 1 := by
    rw [hhalf]
    exact neg_one_ne_one
  have horder : orderOf (primitiveRootOfUnity (n + 1)) = 2 ^ (n + 1) :=
    orderOf_eq_prime_pow hne hone
  rw [← horder]
  exact IsPrimitiveRoot.orderOf _

end QuadraticExtension

end MegaZK
