import MegaZK.BigUint.Orders
import MegaZK.Goldilocks
import MegaZK.Witgen.Generator

/-! # Gadgets of numbers in limbs

The generators that the gadgets for big numbers and for fields other than the native one add to a
circuit. The constraints that the gadgets add after a generator are left out. -/

namespace MegaZK

/-! ### The builder -/

/-- The part of `CircuitBuilder` that hands out targets. -/
structure CircuitBuilder where
  virtualTargetIndex : ℕ
  constantsToTargets : List (ℕ × Target)

/-- The limbs of a `BigUintTarget`, from the lowest. -/
abbrev BigUintTarget := List Target

namespace CircuitBuilder

/-- `add_virtual_target`. -/
def addVirtualTarget : StateM CircuitBuilder Target := fun s =>
  (.virtualTarget s.virtualTargetIndex, { s with virtualTargetIndex := s.virtualTargetIndex + 1 })

/-- `constant`: one target for every constant. -/
def constant (c : ℕ) : StateM CircuitBuilder Target := do
  match (← get).constantsToTargets.lookup c with
  | some target => return target
  | none =>
    let target ← addVirtualTarget
    modify fun s => { s with constantsToTargets := (c, target) :: s.constantsToTargets }
    return target

/-- `add_virtual_biguint_target`. -/
def addVirtualBiguintTarget (numLimbs : ℕ) : StateM CircuitBuilder BigUintTarget :=
  (List.range numLimbs).mapM fun _ => addVirtualTarget

/-- `constant_biguint`, of the digits that `to_u32_digits` gives: none for zero. -/
def constantBiguint (value : ℕ) : StateM CircuitBuilder BigUintTarget :=
  (Nat.digits (2 ^ 32) value).mapM constant

variable {α : Type} {f : α → StateM CircuitBuilder Target}

lemma length_mapM (l : List α) (s : CircuitBuilder) : ((l.mapM f) s).1.length = l.length := by
  induction l generalizing s with
  | nil => rfl
  | cons x l ih =>
    rw [List.mapM_cons]
    exact congrArg Nat.succ (ih (f x s).2)

@[simp]
lemma length_addVirtualBiguintTarget (numLimbs : ℕ) (s : CircuitBuilder) :
    (addVirtualBiguintTarget numLimbs s).1.length = numLimbs :=
  (length_mapM _ s).trans List.length_range

lemma length_constantBiguint (value : ℕ) (s : CircuitBuilder) :
    (constantBiguint value s).1.length = (Nat.digits (2 ^ 32) value).length :=
  length_mapM _ s

end CircuitBuilder

/-! ### Fields -/

/-- The fields of the gadgets. -/
inductive NonNativeField
  | goldilocksField
  | ed25519Base
  | ed25519Scalar
  | secp256K1Base
  | secp256K1Scalar
  deriving DecidableEq, Repr

namespace NonNativeField

/-- `type_map`. -/
def typeMap : NonNativeField → ℕ
  | goldilocksField => 0
  | ed25519Base => 1
  | ed25519Scalar => 2
  | secp256K1Base => 3
  | secp256K1Scalar => 4

/-- `BITS`. -/
def bits : NonNativeField → ℕ
  | goldilocksField => 64
  | _ => 256

/-- The digits of `order`. -/
def orderU32Digits : NonNativeField → List ℕ
  | goldilocksField => [0x00000001, 0xFFFFFFFF]
  | ed25519Base => orderDigits.getD 0 []
  | ed25519Scalar => [0x5cf5d3ed, 0x5812631a, 0xa2f79cd6, 0x14def9de, 0x00000000, 0x00000000,
      0x00000000, 0x10000000]
  | secp256K1Base => orderDigits.getD 1 []
  | secp256K1Scalar => orderDigits.getD 2 []

/-- `order`. -/
def order (field : NonNativeField) : ℕ := Nat.ofDigits (2 ^ 32) field.orderU32Digits

/-- `num_nonnative_limbs`. -/
def numNonnativeLimbs (field : NonNativeField) : ℕ := (field.bits + 31) / 32

lemma length_digits_order (field : NonNativeField) :
    (Nat.digits (2 ^ 32) field.order).length = field.numNonnativeLimbs := by
  cases field <;> decide

end NonNativeField

/-! ### Generators -/

/-- The generators of the gadgets, with the limbs of their numbers. -/
inductive LimbGenerator
  | nonNativeAddition (field : NonNativeField) (a b sum : BigUintTarget) (overflow : Target)
  | nonNativeSubtraction (field : NonNativeField) (a b diff : BigUintTarget) (overflow : Target)
  | nonNativeMultiplication (field : NonNativeField) (a b prod overflow : BigUintTarget)
  | nonNativeInverse (field : NonNativeField) (x inv div : BigUintTarget)
  | bigUintDivRem (a b div rem : BigUintTarget)
  deriving DecidableEq

namespace LimbGenerator

/-- `id`. -/
def id : LimbGenerator → String
  | nonNativeAddition .. => "NonNativeAdditionGenerator"
  | nonNativeSubtraction .. => "NonNativeSubtractionGenerator"
  | nonNativeMultiplication .. => "NonNativeMultiplicationGenerator"
  | nonNativeInverse .. => "NonNativeInverseGenerator"
  | bigUintDivRem .. => "BigUintDivRemGenerator"

/-- `dependencies`: from the highest limb. -/
def dependencies : LimbGenerator → List Target
  | nonNativeAddition _ a b _ _ => (b ++ a).reverse
  | nonNativeSubtraction _ a b _ _ => (b ++ a).reverse
  | nonNativeMultiplication _ a b _ _ => (b ++ a).reverse
  | nonNativeInverse _ x _ _ => x.reverse
  | bigUintDivRem a b _ _ => (b ++ a).reverse

/-- `output_targets`. -/
def outputTargets : LimbGenerator → List Target
  | nonNativeAddition _ _ _ sum overflow => sum ++ [overflow]
  | nonNativeSubtraction _ _ _ diff overflow => diff ++ [overflow]
  | nonNativeMultiplication _ _ _ prod overflow => prod ++ overflow
  | nonNativeInverse _ _ inv div => div ++ inv
  | bigUintDivRem _ _ div rem => div ++ rem

/-- `get_params`. -/
def getParams : LimbGenerator → List ℕ
  | nonNativeAddition field a b _ _ => [field.typeMap, a.length, b.length]
  | nonNativeSubtraction field a b _ _ => [field.typeMap, a.length, b.length]
  | nonNativeMultiplication field a _ _ overflow => [field.typeMap, a.length, overflow.length]
  | nonNativeInverse field _ _ _ => [field.typeMap]
  | bigUintDivRem .. => []

/-- What the scheduler sees of a generator. -/
def toGenerator (g : LimbGenerator) : Generator where
  id := g.id
  watchList := g.dependencies
  outputTargets := g.outputTargets
  params := g.getParams

end LimbGenerator

/-! ### Gadgets -/

namespace CircuitBuilder

/-- `add_nonnative`. -/
def addNonnative (field : NonNativeField) (a b : BigUintTarget) :
    StateM CircuitBuilder LimbGenerator := do
  let sum ← addVirtualBiguintTarget field.numNonnativeLimbs
  let overflow ← addVirtualTarget
  return .nonNativeAddition field a b sum overflow

/-- `sub_nonnative`. -/
def subNonnative (field : NonNativeField) (a b : BigUintTarget) :
    StateM CircuitBuilder LimbGenerator := do
  let diff ← addVirtualBiguintTarget field.numNonnativeLimbs
  let overflow ← addVirtualTarget
  return .nonNativeSubtraction field a b diff overflow

/-- `mul_nonnative`; the number of limbs of the overflow must not be negative. -/
def mulNonnative (field : NonNativeField) (a b : BigUintTarget) :
    StateM CircuitBuilder (Option LimbGenerator) := do
  let prod ← addVirtualBiguintTarget field.numNonnativeLimbs
  let modulus ← constantBiguint field.order
  if a.length + b.length < modulus.length then
    return none
  let overflow ← addVirtualBiguintTarget (a.length + b.length - modulus.length)
  return some (.nonNativeMultiplication field a b prod overflow)

/-- `inv_nonnative`. -/
def invNonnative (field : NonNativeField) (x : BigUintTarget) :
    StateM CircuitBuilder LimbGenerator := do
  let inv ← addVirtualBiguintTarget x.length
  let div ← addVirtualBiguintTarget x.length
  return .nonNativeInverse field x inv div

/-- `div_rem_biguint`. -/
def divRemBiguint (a b : BigUintTarget) : StateM CircuitBuilder LimbGenerator := do
  let divNumLimbs := if b.length > a.length + 1 then 0 else a.length + 1 - b.length
  let div ← addVirtualBiguintTarget divNumLimbs
  let rem ← addVirtualBiguintTarget b.length
  return .bigUintDivRem a b div rem

section Specs

variable (field : NonNativeField) (a b x : BigUintTarget) (s : CircuitBuilder)

lemma addNonnative_spec : ∃ sum overflow,
    (addNonnative field a b s).1 = .nonNativeAddition field a b sum overflow ∧
      sum.length = field.numNonnativeLimbs :=
  ⟨_, _, rfl, length_addVirtualBiguintTarget _ s⟩

lemma subNonnative_spec : ∃ diff overflow,
    (subNonnative field a b s).1 = .nonNativeSubtraction field a b diff overflow ∧
      diff.length = field.numNonnativeLimbs :=
  ⟨_, _, rfl, length_addVirtualBiguintTarget _ s⟩

variable {field a b s} in
lemma mulNonnative_spec {g : LimbGenerator} (h : (mulNonnative field a b s).1 = some g) :
    ∃ prod overflow, g = .nonNativeMultiplication field a b prod overflow ∧
      prod.length = field.numNonnativeLimbs ∧
      a.length + b.length = field.numNonnativeLimbs + overflow.length := by
  have hprod := length_addVirtualBiguintTarget field.numNonnativeLimbs s
  simp only [mulNonnative, bind, StateT.bind, pure] at h
  rcases hp : addVirtualBiguintTarget field.numNonnativeLimbs s with ⟨prod, s₁⟩
  have hmodulus := length_constantBiguint field.order s₁
  rw [field.length_digits_order] at hmodulus
  rcases hm : constantBiguint field.order s₁ with ⟨modulus, s₂⟩
  simp only [hp, hm] at h hprod hmodulus
  by_cases hlt : a.length + b.length < modulus.length
  · rw [if_pos hlt] at h
    cases h
  · rw [if_neg hlt] at h
    cases h
    have hoverflow := length_addVirtualBiguintTarget (a.length + b.length - modulus.length) s₂
    refine ⟨_, _, rfl, hprod, ?_⟩
    rw [← hmodulus]
    exact (Nat.add_sub_of_le (not_lt.mp hlt)).symm.trans (congrArg _ hoverflow.symm)

lemma invNonnative_spec : ∃ inv div,
    (invNonnative field x s).1 = .nonNativeInverse field x inv div ∧
      inv.length = x.length ∧ div.length = x.length :=
  ⟨_, _, rfl, length_addVirtualBiguintTarget _ s, length_addVirtualBiguintTarget _ _⟩

lemma divRemBiguint_spec : ∃ div rem, (divRemBiguint a b s).1 = .bigUintDivRem a b div rem ∧
    div.length = a.length + 1 - b.length ∧ rem.length = b.length := by
  refine ⟨_, _, rfl, (length_addVirtualBiguintTarget _ s).trans ?_,
    length_addVirtualBiguintTarget _ _⟩
  split_ifs <;> omega

end Specs

end CircuitBuilder

open CircuitBuilder in
/-- The generators that the gadgets create, for any operands and any state of the builder. -/
inductive LimbGenerator.Created : LimbGenerator → Prop
  | add (field a b s) : Created (addNonnative field a b s).1
  | sub (field a b s) : Created (subNonnative field a b s).1
  | mul (field a b s g) (h : (mulNonnative field a b s).1 = some g) : Created g
  | inv (field x s) : Created (invNonnative field x s).1
  | divRem (a b s) : Created (divRemBiguint a b s).1

end MegaZK
