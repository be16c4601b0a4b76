import MegaZK.BigUint.Targets
import MegaZK.Lib.LatticeRounding

/-! # Decomposition of scalars

The generator that splits a scalar of Secp256k1 into two halves, and its kernel, over exact numbers.
A `Secp256K1Scalar` is the number in its four limbs, which may pass the order. -/

namespace MegaZK

/-- `Secp256K1Scalar::order`. -/
def secp256k1ScalarOrder : ℕ :=
  0xFFFFFFFFFFFFFFFFFFFFFFFFFFFFFFFEBAAEDCE6AF48A03BBFD25E8CD0364141

/-- The number in four limbs of 64 bits. -/
def ofU64Limbs (l0 l1 l2 l3 : ℕ) : ℕ := l0 + l1 <<< 64 + l2 <<< 128 + l3 <<< 192

/-- `GLV_S`. -/
def glvS : ℕ :=
  ofU64Limbs 16069571880186789234 1310022930574435960 11900229862571533402 6008836872998760672

/-- `A1`. -/
def glvA1 : ℕ := ofU64Limbs 16747920425669159701 3496713202691238861 0 0

/-- `MINUS_B1`. -/
def glvMinusB1 : ℕ := ofU64Limbs 8022177200260244675 16448129721693014056 0 0

/-- `A2`. -/
def glvA2 : ℕ := ofU64Limbs 6323353552219852760 1498098850674701302 1 0

/-- `B2`. -/
def glvB2 : ℕ := ofU64Limbs 16747920425669159701 3496713202691238861 0 0

/-- `to_canonical_biguint`. -/
def toCanonicalBigUint (x : ℕ) : ℕ :=
  if secp256k1ScalarOrder ≤ x then x - secp256k1ScalarOrder else x

/-- What the decomposition gives: the magnitudes and the signs. -/
structure GlvParts where
  k1 : ℕ
  k2 : ℕ
  k1Neg : Bool
  k2Neg : Bool

/-! ### The kernel -/

namespace Device

/-- `from_noncanonical_biguint`: the first eight digits. -/
def fromNoncanonicalBigUint (a : ℕ) : ℕ := a % 2 ^ 256

/-- `operator+`. -/
def scalarAdd (x y : ℕ) : ℕ :=
  let tmp := toCanonicalBigUint x + toCanonicalBigUint y
  fromNoncanonicalBigUint
    (if secp256k1ScalarOrder ≤ tmp then tmp - secp256k1ScalarOrder else tmp)

/-- `operator-`. -/
def scalarSub (x y : ℕ) : ℕ :=
  if y = 0 then x
  else scalarAdd x (fromNoncanonicalBigUint (secp256k1ScalarOrder - toCanonicalBigUint y))

/-- `operator*`. -/
def scalarMul (x y : ℕ) : ℕ :=
  fromNoncanonicalBigUint (toCanonicalBigUint x * toCanonicalBigUint y % secp256k1ScalarOrder)

/-- The quotient by the order, rounded by its remainder. -/
def roundedQuotient (dividend : ℕ) : ℕ :=
  let quotient := dividend / secp256k1ScalarOrder
  let remainder := dividend % secp256k1ScalarOrder
  if secp256k1ScalarOrder ≤ remainder + remainder then quotient + 1 else quotient

/-- The magnitude and the sign of a scalar. -/
def magnitude (raw : ℕ) : ℕ × Bool :=
  let cmp := secp256k1ScalarOrder / 2
  let neg := toCanonicalBigUint raw > cmp
  (toCanonicalBigUint (if neg then
    fromNoncanonicalBigUint (secp256k1ScalarOrder - toCanonicalBigUint raw) else raw), neg)

/-- The decomposition in `glv_decomposition_generator_new_kernel`. -/
def glvDecomposition (k : ℕ) : GlvParts :=
  let c1 := fromNoncanonicalBigUint
    (roundedQuotient (toCanonicalBigUint glvB2 * toCanonicalBigUint k))
  let c2 := fromNoncanonicalBigUint
    (roundedQuotient (toCanonicalBigUint glvMinusB1 * toCanonicalBigUint k))
  let k1Raw := scalarSub (scalarSub k (scalarMul c1 glvA1)) (scalarMul c2 glvA2)
  let k2Raw := scalarSub (scalarMul c1 glvMinusB1) (scalarMul c2 glvB2)
  let (k1, k1Neg) := magnitude k1Raw
  let (k2, k2Neg) := magnitude k2Raw
  ⟨k1, k2, k1Neg, k2Neg⟩

/-- `glv_decomposition_generator_new_kernel`, which reads the limbs from the highest. -/
def glvDecompositionGeneratorNew (read : ℕ → GoldilocksField) : List GoldilocksField :=
  let kBigUint := (List.range 8).foldl (fun k i => k <<< 32 + (read i).val) 0
  let parts := glvDecomposition (fromNoncanonicalBigUint kBigUint)
  u32Limbs 4 parts.k1 ++ u32Limbs 4 parts.k2 ++
    [if parts.k1Neg then 1 else 0, if parts.k2Neg then 1 else 0]

end Device

/-! ### The host -/

namespace Host

/-- `from_noncanonical_biguint`, which panics for numbers of more than four limbs. -/
def fromNoncanonicalBigUint (val : ℕ) : Option ℕ := if val < 2 ^ 256 then some val else none

/-- `add`. -/
def scalarAdd (x y : ℕ) : Option ℕ :=
  let result := toCanonicalBigUint x + toCanonicalBigUint y
  fromNoncanonicalBigUint
    (if secp256k1ScalarOrder ≤ result then result - secp256k1ScalarOrder else result)

/-- `neg`; equality compares canonical numbers. -/
def scalarNeg (x : ℕ) : Option ℕ :=
  if toCanonicalBigUint x = 0 then some 0
  else fromNoncanonicalBigUint (secp256k1ScalarOrder - toCanonicalBigUint x)

/-- `sub`. -/
def scalarSub (x y : ℕ) : Option ℕ := do scalarAdd x (← scalarNeg y)

/-- `mul`. -/
def scalarMul (x y : ℕ) : Option ℕ :=
  fromNoncanonicalBigUint (toCanonicalBigUint x * toCanonicalBigUint y % secp256k1ScalarOrder)

/-- `Ratio::new(numer, denom).round().to_integer()`: the fraction is reduced, and rounded up where
its fractional part is one half or larger. -/
def ratioRound (numer denom : ℕ) : ℕ :=
  let gcd := numer.gcd denom
  let numer := numer / gcd
  let denom := denom / gcd
  let fract := numer % denom
  let halfOrLarger := if denom % 2 = 0 then denom / 2 ≤ fract else denom / 2 + 1 ≤ fract
  if halfOrLarger then numer / denom + 1 else numer / denom

/-- The magnitude and the sign of a scalar. -/
def magnitude (raw : ℕ) : Option (ℕ × Bool) :=
  if toCanonicalBigUint raw > secp256k1ScalarOrder / 2 then do
    let scalar ← fromNoncanonicalBigUint (secp256k1ScalarOrder - toCanonicalBigUint raw)
    return (scalar, true)
  else some (raw, false)

/-- `decompose_secp256k1_scalar`. -/
def decomposeSecp256k1Scalar (k : ℕ) : Option GlvParts := do
  let c1 ← fromNoncanonicalBigUint
    (ratioRound (toCanonicalBigUint glvB2 * toCanonicalBigUint k) secp256k1ScalarOrder)
  let c2 ← fromNoncanonicalBigUint
    (ratioRound (toCanonicalBigUint glvMinusB1 * toCanonicalBigUint k) secp256k1ScalarOrder)
  let k1Raw ← scalarSub (← scalarSub k (← scalarMul c1 glvA1)) (← scalarMul c2 glvA2)
  let k2Raw ← scalarSub (← scalarMul c1 glvMinusB1) (← scalarMul c2 glvB2)
  let (k1, k1Neg) ← magnitude k1Raw
  let (k2, k2Neg) ← magnitude k2Raw
  return ⟨k1, k2, k1Neg, k2Neg⟩

/-- `GLVDecompositionGenerator::run_once`. -/
def glvDecompositionRunOnce (limb : ℕ → GoldilocksField) : Option (List GoldilocksField) := do
  let k ← fromNoncanonicalBigUint (getBigUintTarget 8 limb)
  let parts ← decomposeSecp256k1Scalar k
  let k1 ← setBigUintTarget 4 (toCanonicalBigUint parts.k1)
  let k2 ← setBigUintTarget 4 (toCanonicalBigUint parts.k2)
  return k1 ++ k2 ++ [if parts.k1Neg then 1 else 0, if parts.k2Neg then 1 else 0]

end Host

end MegaZK
