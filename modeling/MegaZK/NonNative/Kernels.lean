import MegaZK.BigUint.Euclid
import MegaZK.NonNative.Gadgets

/-! # Arithmetic in fields other than the native one

The kernels for numbers in limbs over the digits, and `run_once` of their generators, where the
host's `BigUint` is a natural number. A kernel gets the values of its dependencies in order. -/

namespace MegaZK

/-! ### The kernels -/

namespace Device

/-- A loop that reads limbs, the highest first. -/
def readBigUint (limbs : List GoldilocksField) : Option BigUint :=
  limbs.foldlM (fun a limb => do (← a.shl 32).add (← BigUint.ofU64 limb.val)) BigUint.zero

/-- `orders`; two of the five stay empty. -/
def orders : ℕ → BigUint
  | 1 => BigUint.ofDigits NonNativeField.ed25519Base.orderU32Digits (by decide)
  | 3 => BigUint.ofDigits NonNativeField.secp256K1Base.orderU32Digits (by decide)
  | 4 => BigUint.ofDigits NonNativeField.secp256K1Scalar.orderU32Digits (by decide)
  | _ => BigUint.ofDigits [] (by decide)

/-- `mod_table`. -/
def modTable (type : ℕ) : Bool := [false, true, true, false, false].getD type false

/-- The reduction of an operand. -/
def reduceOperand (type : ℕ) (a : BigUint) : Option BigUint := do
  let order := orders type
  let aTemp ← if a.ge order then a.sub order else some a
  if modTable type then aTemp.mod order else some aTemp

/-- The reduced operands of a binary operation. -/
def readOperands (type numA numB : ℕ) (reads : List GoldilocksField) :
    Option (BigUint × BigUint) := do
  let a ← readBigUint (reads.take numA)
  let b ← readBigUint ((reads.drop numA).take numB)
  return (← reduceOperand type a, ← reduceOperand type b)

section Kernels

variable (params : List ℕ) (reads : List GoldilocksField)

/-- `non_native_addition_generator_new_kernel`. -/
def nonNativeAddition : Option (List GoldilocksField) := do
  let type := params.getD 0 0
  let (a, b) ← readOperands type (params.getD 1 0) (params.getD 2 0) reads
  let order := orders type
  let sum ← a.add b
  let overflow := sum.gt order
  let sum ← if overflow then sum.sub order else some sum
  return sum.writeDigits 8 ++ [if overflow then 1 else 0]

/-- `non_native_subtraction_generator_new_kernel`. -/
def nonNativeSubtraction : Option (List GoldilocksField) := do
  let type := params.getD 0 0
  let (a, b) ← readOperands type (params.getD 1 0) (params.getD 2 0) reads
  let order := orders type
  let less := a.lt b
  let a ← if less then a.add order else some a
  let diff ← a.sub b
  return diff.writeDigits 8 ++ [if less then 1 else 0]

/-- `non_native_multiplication_generator_new_kernel`. -/
def nonNativeMultiplication : Option (List GoldilocksField) := do
  let type := params.getD 0 0
  let numOverflowTarget := params.getD 2 0
  let (a, b) ← readOperands type (params.getD 1 0) 8 reads
  let prod ← a.mul b
  let (overflow, prodReduced) ← prod.divRem (orders type) .init .init
  return prodReduced.writeDigits 8 ++ overflow.writeDigits numOverflowTarget

/-- `non_native_inverse_generator_new_kernel`, with at most `fuel` passes of `inverse_eea`. -/
def nonNativeInverse (fuel : ℕ) : Option (List GoldilocksField) := do
  let type := params.getD 0 0
  let x ← readBigUint (reads.take 8)
  let order := orders type
  let x ← reduceOperand type x
  let inv ← x.inverseEea fuel order
  let prod ← x.mul inv
  let div ← prod.div order
  return div.writeDigits 8 ++ inv.writeDigits 8

/-- `biguint_div_rem_generator_new_kernel`. -/
def biguintDivRem : Option (List GoldilocksField) := do
  let a ← readBigUint (reads.take 16)
  let b ← readBigUint ((reads.drop 16).take 8)
  let (div, rem) ← a.divRem b .init .init
  return div.writeDigits 9 ++ rem.writeDigits 8

end Kernels

end Device

/-! ### The fields of the host -/

namespace NonNativeField

variable (field : NonNativeField)

/-- `from_noncanonical_biguint`: the number in the limbs of the element. -/
def fromNoncanonicalBigUint (val : ℕ) : Option ℕ :=
  match field with
  | goldilocksField => some (val % field.order)
  | ed25519Base | ed25519Scalar => some (val % 2 ^ 256)
  | secp256K1Base | secp256K1Scalar => if val < 2 ^ 256 then some val else none

/-- `to_canonical_biguint`. -/
def toCanonicalBigUint (x : ℕ) : ℕ :=
  match field with
  | goldilocksField => x
  | ed25519Base | ed25519Scalar => x % field.order
  | secp256K1Base | secp256K1Scalar => if field.order ≤ x then x - field.order else x

/-- `inverse`, of canonical numbers: the power by Fermat's little theorem. -/
def inverse (x : ℕ) : Option ℕ := if x = 0 then none else some (x ^ (field.order - 2) % field.order)

end NonNativeField

/-! ### The generators of the host -/

namespace Host

/-- `witness.get_biguint_target`. -/
def getLimbs (limbs : List GoldilocksField) : ℕ :=
  getBigUintTarget limbs.length fun i => limbs.getD i 0

section Generators

variable (field : NonNativeField)

/-- The canonical number of an operand. -/
def operand (limbs : List GoldilocksField) : Option ℕ := do
  return field.toCanonicalBigUint (← field.fromNoncanonicalBigUint (getLimbs limbs))

variable (a b x : List GoldilocksField)

/-- `NonNativeAdditionGenerator::run_once`. -/
def nonNativeAddition : Option (List GoldilocksField) := do
  let sum := (← operand field a) + (← operand field b)
  let modulus := field.order
  let (overflow, sumReduced) := if sum > modulus then (true, sum - modulus) else (false, sum)
  let sum ← setBigUintTarget field.numNonnativeLimbs sumReduced
  return sum ++ [if overflow then 1 else 0]

/-- `NonNativeSubtractionGenerator::run_once`. -/
def nonNativeSubtraction : Option (List GoldilocksField) := do
  let a ← operand field a
  let b ← operand field b
  let modulus := field.order
  let (diff, overflow) := if a ≥ b then (a - b, false) else (modulus + a - b, true)
  let diff ← setBigUintTarget field.numNonnativeLimbs diff
  return diff ++ [if overflow then 1 else 0]

/-- `NonNativeMultiplicationGenerator::run_once`. -/
def nonNativeMultiplication : Option (List GoldilocksField) := do
  let prod := (← operand field a) * (← operand field b)
  let modulus := field.order
  let prodReduced ← setBigUintTarget field.numNonnativeLimbs (prod % modulus)
  let overflow ← setBigUintTarget (a.length + b.length - field.numNonnativeLimbs) (prod / modulus)
  return prodReduced ++ overflow

/-- `NonNativeInverseGenerator::run_once`. -/
def nonNativeInverse : Option (List GoldilocksField) := do
  let xBigUint ← operand field x
  let inv ← field.inverse xBigUint
  let div ← setBigUintTarget x.length (xBigUint * inv / field.order)
  let inv ← setBigUintTarget x.length inv
  return div ++ inv

end Generators

/-- `BigUintDivRemGenerator::run_once`, which asserts that it has sixteen and eight limbs. -/
def biguintDivRem (a b : List GoldilocksField) : Option (List GoldilocksField) := do
  let a' := getLimbs a
  let b' := getLimbs b
  if b' = 0 ∨ a.length ≠ 16 ∨ b.length ≠ 8 then none
  let div ← setBigUintTarget 9 (a' / b')
  let rem ← setBigUintTarget 8 (a' % b')
  return div ++ rem

end Host

end MegaZK
