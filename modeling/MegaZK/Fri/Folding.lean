import MegaZK.Fri.Verifier
import MegaZK.Lib.Folding

/-! # One folding

The values of a polynomial on a coset, in the committed order, and what `compute_evaluation` makes
of the values of one leaf: a value of the folding. -/

namespace MegaZK

open Horner
open scoped QuadraticField

/-! ### Roots of unity -/

lemma primitiveRootOfUnity_C {n : ℕ} (hn : n ≤ 32) :
    (.C (primitiveRootOfUnity n : GoldilocksField) : QuadraticExtension) =
      QuadraticExtension.primitiveRootOfUnity n := by
  have hexp : 2 ^ (33 - n) = 2 * 2 ^ (32 - n) := by
    rw [← pow_succ']
    congr 1
    omega
  rw [QuadraticExtension.primitiveRootOfUnity_eq, hexp, pow_mul,
    QuadraticExtension.powerOfTwoGenerator_sq, primitiveRootOfUnity, QuadraticAlgebra.C_eq_algebraMap,
    map_pow]

lemma C_injective : Function.Injective (QuadraticAlgebra.C : GoldilocksField → QuadraticExtension) :=
  fun _ _ h => congrArg QuadraticAlgebra.re h

lemma isPrimitiveRoot_primitiveRootOfUnity {n : ℕ} (hn : n ≤ 32) :
    IsPrimitiveRoot (primitiveRootOfUnity n : GoldilocksField) (2 ^ n) := by
  rcases Nat.eq_zero_or_pos n with rfl | hpos
  · have hone : (primitiveRootOfUnity 0 : GoldilocksField) = 1 := by
      apply C_injective
      rw [primitiveRootOfUnity_C (Nat.zero_le 32), QuadraticExtension.primitiveRootOfUnity_eq,
        pow_succ 2 32, pow_mul, QuadraticExtension.powerOfTwoGenerator_pow, neg_one_sq]
      rfl
    rw [hone, pow_zero]
    exact IsPrimitiveRoot.one
  · have hroot := QuadraticExtension.isPrimitiveRoot_primitiveRootOfUnity hpos
      (hn.trans (by decide))
    rw [← primitiveRootOfUnity_C hn, QuadraticAlgebra.C_eq_algebraMap] at hroot
    exact hroot.of_map_of_injective (algebraMap GoldilocksField QuadraticExtension).injective

/-- Every power of the root of the larger group is one of the smaller group. -/
lemma primitiveRootOfUnity_pow {a n : ℕ} (ha : a ≤ n) (hn : n ≤ 32) :
    (primitiveRootOfUnity n : GoldilocksField) ^ 2 ^ a = primitiveRootOfUnity (n - a) := by
  rw [primitiveRootOfUnity, primitiveRootOfUnity, ← pow_mul, ← pow_add]
  congr 2
  omega

/-! ### The coset in the committed order -/

/-- A polynomial and the coset that it is evaluated on. -/
structure Codeword where
  bits : ℕ
  shift : GoldilocksField
  coeffs : ℕ → QuadraticExtension

namespace Codeword

/-- The point of index `x`. -/
def point (w : Codeword) (x : ℕ) : GoldilocksField :=
  w.shift * primitiveRootOfUnity w.bits ^ reverseBits x w.bits

/-- The value that is committed at index `x`. -/
def value (w : Codeword) (x : ℕ) : QuadraticExtension :=
  evalSum w.coeffs (2 ^ w.bits) (.C (w.point x))

/-- The folding with a challenge. -/
def fold (w : Codeword) (arityBits : ℕ) (beta : QuadraticExtension) : Codeword where
  bits := w.bits - arityBits
  shift := w.shift ^ 2 ^ arityBits
  coeffs := foldCoeffs w.coeffs (2 ^ arityBits) beta

/-- The values of a leaf. -/
def leafValues (w : Codeword) (arityBits c : ℕ) : List QuadraticExtension :=
  (List.range (2 ^ arityBits)).map fun q => w.value (c * 2 ^ arityBits + q)

variable {w : Codeword} {a : ℕ} (ha : a ≤ w.bits) (hbits : w.bits ≤ 32)

include ha hbits

/-- The points of a leaf differ by powers of the root of the order of the leaf. -/
lemma point_mul_add (c : ℕ) {p : ℕ} (hp : p < 2 ^ a) :
    w.point (c * 2 ^ a + p) = w.shift * primitiveRootOfUnity w.bits ^ reverseBits c (w.bits - a) *
      primitiveRootOfUnity a ^ reverseBits p a := by
  obtain ⟨d, hd⟩ := Nat.exists_eq_add_of_le' ha
  have hrest : w.bits - a = d := by omega
  have hback : w.bits - d = a := by omega
  have hroot := primitiveRootOfUnity_pow (a := d) (by omega) hbits
  rw [hback] at hroot
  rw [point, hrest, ← hroot, hd, reverseBits_mul_add hp, pow_add, mul_comm (reverseBits p a),
    pow_mul]
  ring

/-- They have one power, the point of the leaf in the folding. -/
lemma point_pow (c : ℕ) {p : ℕ} (hp : p < 2 ^ a) (beta : QuadraticExtension) :
    w.point (c * 2 ^ a + p) ^ 2 ^ a = (w.fold a beta).point c := by
  have hone := (isPrimitiveRoot_primitiveRootOfUnity (ha.trans hbits)).pow_eq_one
  rw [point_mul_add ha hbits c hp, mul_pow, mul_pow, ← pow_mul _ (reverseBits p a),
    mul_comm (reverseBits p a), pow_mul, hone, one_pow, mul_one, ← pow_mul,
    mul_comm (reverseBits c (w.bits - a)), pow_mul, primitiveRootOfUnity_pow ha hbits, point, fold]

/-- `compute_evaluation` on the values of a leaf. -/
lemma computeEvaluation_leafValues (hshift : w.shift ≠ 0) (c : ℕ) {p : ℕ} (hp : p < 2 ^ a)
    (beta : QuadraticExtension) :
    computeEvaluation (w.point (c * 2 ^ a + p)) p a (w.leafValues a c) beta =
      some ((w.fold a beta).value c) := by
  set start := w.shift * primitiveRootOfUnity w.bits ^ reverseBits c (w.bits - a) with hstart
  set g : GoldilocksField := primitiveRootOfUnity a with hg
  have hroot := isPrimitiveRoot_primitiveRootOfUnity (ha.trans hbits)
  have hcoset : w.point (c * 2 ^ a + p) * g ^ (2 ^ a - reverseBits p a) = start := by
    rw [point_mul_add ha hbits c hp, mul_assoc, ← pow_add,
      Nat.add_sub_cancel' (reverseBits_lt p a).le, hroot.pow_eq_one, mul_one]
  have hne : start ≠ 0 := mul_ne_zero hshift
    (pow_ne_zero _ ((isPrimitiveRoot_primitiveRootOfUnity hbits).ne_zero (by positivity)))
  set x : ℕ → QuadraticExtension := fun i => .C (start * g ^ i) with hx
  have hinj : Set.InjOn x (Finset.range (2 ^ a)) := by
    intro i hi j hj heq
    have hpow := mul_left_cancel₀ hne (C_injective heq)
    exact hroot.pow_inj (by simpa using hi) (by simpa using hj) hpow
  -- the values of the leaf are those of a polynomial with as many coefficients
  set fibre := fibreCoeffs w.coeffs (2 ^ a) (2 ^ (w.bits - a)) (.C ((w.fold a beta).point c))
    with hfibre
  have hlen : 2 ^ w.bits = 2 ^ (w.bits - a) * 2 ^ a := by rw [← pow_add, Nat.sub_add_cancel ha]
  have hvalue : ∀ i < 2 ^ a, w.value (c * 2 ^ a + reverseBits i a) = evalSum fibre (2 ^ a) (x i) := by
    intro i hi
    have hrev := reverseBits_lt i a
    have hpoint : x i = .C (w.point (c * 2 ^ a + reverseBits i a)) := by
      rw [point_mul_add ha hbits c hrev, reverseBits_reverseBits hi]
    rw [value, ← hpoint, hlen, hfibre]
    refine (evalSum_fibreCoeffs w.coeffs ?_).symm
    rw [hpoint, QuadraticAlgebra.C_eq_algebraMap, ← map_pow, point_pow ha hbits c hrev beta]
  have hpoints : ((List.range (2 ^ a)).map fun i =>
        w.value (c * 2 ^ a + reverseBits i a)).zipIdx.map
        (fun e => ((.C (start * g ^ e.2) : QuadraticExtension), e.1)) =
      pointsOf x (fun i => evalSum fibre (2 ^ a) (x i)) (2 ^ a) := by
    apply List.ext_getElem
    · simp [pointsOf]
    · intro i hi _
      have hi : i < 2 ^ a := by simpa using hi
      simp [pointsOf, hvalue i hi, hx]
  have hfold : evalSum fibre (2 ^ a) beta = (w.fold a beta).value c := by
    rw [value, hfibre, ← evalSum_foldCoeffs]
    rfl
  rw [computeEvaluation, leafValues]
  simp only [Nat.one_shiftLeft, reverseIndexBitsInPlace_map_range, Option.bind_eq_bind,
    Option.bind_some, ← hg, hcoset, hpoints]
  rw [barycentricWeights_pointsOf hinj, Option.bind_some, interpolate_evalSum hinj, hfold]

end Codeword

end MegaZK
