import MegaZK.Poseidon.Permutation
import MegaZK.Quotient.Gates

/-! # The gate types

Every type of gate that the repository defines, with what a circuit keeps of it: the id under which
gates are told apart, the number of its constraints and the generators of one row. -/

namespace MegaZK

/-! ### Debug renderings -/

/-- `derive(Debug)` of a struct with named fields. -/
def debugStruct (name : String) (fields : List (String × String)) : String :=
  name ++ " \x7b " ++ ", ".intercalate (fields.map fun f => f.1 ++ ": " ++ f.2) ++ " \x7d"

/-- `Debug` of a vector or an array. -/
def debugList (l : List ℕ) : String := "[" ++ ", ".intercalate (l.map toString) ++ "]"

/-- `Debug` of `PhantomData<F>`, with the name of `F`. -/
def debugPhantom (field : String) : String := "PhantomData<" ++ field ++ ">"

/-! ### Types -/

/-- A gate with the values of its fields. Field elements are given by their words. -/
inductive GateType
  | arithmetic (numOps : ℕ)
  | arithmeticExtension (numOps : ℕ)
  | baseSum (numLimbs b : ℕ)
  | comparison (numBits numChunks : ℕ)
  | constant (numConsts : ℕ)
  | cosetInterpolation (subgroupBits degree : ℕ) (barycentricWeights : List ℕ)
  | exponentiation (numPowerBits : ℕ)
  | lookup (numSlots : ℕ) (lutHash : List ℕ)
  | lookupTable (numSlots : ℕ) (lutHash : List ℕ) (lastLutRow : ℕ)
  | mulExtension (numOps : ℕ)
  | noop
  | poseidon
  | poseidonMds
  | publicInput
  | randomAccess (bits numCopies numExtraConstants : ℕ)
  | reducing (numCoeffs : ℕ)
  | reducingExtension (numCoeffs : ℕ)
  | u32AddMany (numAddends numOps : ℕ)
  | u32Arithmetic (numOps : ℕ)
  | u32Interleave (numOps : ℕ)
  | u32RangeCheck (numInputLimbs : ℕ)
  | u32Subtraction (numOps : ℕ)
  | uninterleaveToB32 (numOps : ℕ)
  | uninterleaveToU32 (numOps : ℕ)
  deriving DecidableEq

/-- `SPONGE_WIDTH`. -/
def spongeWidth : ℕ := 12

namespace GateType

/-- `id` over the field named `field` and its extension of degree `d`. -/
def id (field : String) (d : ℕ) : GateType → String
  | arithmetic numOps => debugStruct "ArithmeticGate" [("num_ops", toString numOps)]
  | arithmeticExtension numOps =>
    debugStruct "ArithmeticExtensionGate" [("num_ops", toString numOps)]
  | baseSum numLimbs b =>
    debugStruct "BaseSumGate" [("num_limbs", toString numLimbs)] ++ " + Base: " ++ toString b
  | comparison numBits numChunks =>
    debugStruct "ComparisonGate" [("num_bits", toString numBits),
      ("num_chunks", toString numChunks), ("_phantom", debugPhantom field)] ++
        "<D=" ++ toString d ++ ">"
  | constant numConsts => debugStruct "ConstantGate" [("num_consts", toString numConsts)]
  | cosetInterpolation subgroupBits degree barycentricWeights =>
    debugStruct "CosetInterpolationGate" [("subgroup_bits", toString subgroupBits),
      ("degree", toString degree), ("barycentric_weights", debugList barycentricWeights),
      ("_phantom", debugPhantom field)] ++ "<D=" ++ toString d ++ ">"
  | exponentiation numPowerBits =>
    debugStruct "ExponentiationGate" [("num_power_bits", toString numPowerBits),
      ("_phantom", debugPhantom field)] ++ "<D=" ++ toString d ++ ">"
  | lookup numSlots lutHash =>
    "LookupGate \x7bnum_slots: " ++ toString numSlots ++ ", lut_hash: " ++ debugList lutHash ++
      "\x7d"
  | lookupTable numSlots lutHash lastLutRow =>
    "LookupTableGate \x7bnum_slots: " ++ toString numSlots ++ ", lut_hash: " ++
      debugList lutHash ++ ", last_lut_row: " ++ toString lastLutRow ++ "\x7d"
  | mulExtension numOps => debugStruct "MulExtensionGate" [("num_ops", toString numOps)]
  | noop => "NoopGate"
  | poseidon => "PoseidonGate(" ++ debugPhantom field ++ ")<WIDTH=12>"
  | poseidonMds => "PoseidonMdsGate(" ++ debugPhantom field ++ ")<WIDTH=12>"
  | publicInput => "PublicInputGate"
  | randomAccess bits numCopies numExtraConstants =>
    debugStruct "RandomAccessGate" [("bits", toString bits), ("num_copies", toString numCopies),
      ("num_extra_constants", toString numExtraConstants), ("_phantom", debugPhantom field)] ++
        "<D=" ++ toString d ++ ">"
  | reducing numCoeffs => debugStruct "ReducingGate" [("num_coeffs", toString numCoeffs)]
  | reducingExtension numCoeffs =>
    debugStruct "ReducingExtensionGate" [("num_coeffs", toString numCoeffs)]
  | u32AddMany numAddends numOps =>
    debugStruct "U32AddManyGate" [("num_addends", toString numAddends),
      ("num_ops", toString numOps), ("_phantom", debugPhantom field)]
  | u32Arithmetic numOps =>
    debugStruct "U32ArithmeticGate" [("num_ops", toString numOps),
      ("_phantom", debugPhantom field)]
  | u32Interleave numOps => debugStruct "U32InterleaveGate" [("num_ops", toString numOps)]
  | u32RangeCheck numInputLimbs =>
    debugStruct "U32RangeCheckGate" [("num_input_limbs", toString numInputLimbs),
      ("_phantom", debugPhantom field)]
  | u32Subtraction numOps =>
    debugStruct "U32SubtractionGate" [("num_ops", toString numOps),
      ("_phantom", debugPhantom field)]
  | uninterleaveToB32 numOps => debugStruct "UninterleaveToB32Gate" [("num_ops", toString numOps)]
  | uninterleaveToU32 numOps => debugStruct "UninterleaveToU32Gate" [("num_ops", toString numOps)]

/-- `num_constraints` over an extension of degree `d`. -/
def numConstraints (d : ℕ) : GateType → ℕ
  | arithmetic numOps => numOps
  | arithmeticExtension numOps => numOps * d
  | baseSum numLimbs _ => 1 + numLimbs
  | comparison numBits numChunks => 6 + 5 * numChunks + ceilDivUsize numBits numChunks
  | constant numConsts => numConsts
  | cosetInterpolation subgroupBits degree _ =>
    d + d + 2 * d * (((1 <<< subgroupBits) - 2) / (degree - 1))
  | exponentiation numPowerBits => numPowerBits + 1
  | lookup _ _ => 0
  | lookupTable _ _ _ => 0
  | mulExtension numOps => numOps * d
  | noop => 0
  | poseidon =>
    spongeWidth * (2 * Poseidon.halfNFullRounds - 1) + Poseidon.nPartialRounds + spongeWidth + 1
  | poseidonMds => spongeWidth * d
  | publicInput => 4
  | randomAccess bits numCopies numExtraConstants => numCopies * (bits + 2) + numExtraConstants
  | reducing numCoeffs => d * numCoeffs
  | reducingExtension numCoeffs => d * numCoeffs
  | u32AddMany _ numOps => numOps * (3 + U32AddManyGate.numLimbs)
  | u32Arithmetic numOps => numOps * (4 + U32ArithmeticGate.numLimbs)
  | u32Interleave numOps => numOps * (32 + 1 + 1)
  | u32RangeCheck numInputLimbs => numInputLimbs * (1 + U32RangeCheckGate.auxLimbsPerInputLimb)
  | u32Subtraction numOps => numOps * (3 + U32SubtractionGate.numLimbs)
  | uninterleaveToB32 numOps => numOps * (64 + 1 + 2)
  | uninterleaveToU32 numOps => numOps * (64 + 1 + 2)

/-- The ids of `generators`. -/
def generators : GateType → List String
  | arithmetic numOps => List.replicate numOps "ArithmeticBaseGenerator"
  | arithmeticExtension numOps => List.replicate numOps "ArithmeticExtensionGenerator"
  | baseSum _ _ => ["BaseSplitGenerator"]
  | comparison _ _ => ["ComparisonGenerator"]
  | constant _ => []
  | cosetInterpolation _ _ _ => ["InterpolationGenerator"]
  | exponentiation _ => ["ExponentiationGenerator"]
  | lookup numSlots _ => List.replicate numSlots "LookupGenerator"
  | lookupTable numSlots _ _ => List.replicate numSlots "LookupTableGenerator"
  | mulExtension numOps => List.replicate numOps "MulExtensionGenerator"
  | noop => []
  | poseidon => ["PoseidonGenerator"]
  | poseidonMds => ["PoseidonMdsGenerator"]
  | publicInput => []
  | randomAccess _ numCopies _ => List.replicate numCopies "RandomAccessGenerator"
  | reducing _ => ["ReducingGenerator"]
  | reducingExtension _ => ["ReducingExtensionGenerator"]
  | u32AddMany _ numOps => List.replicate numOps "U32AddManyGenerator"
  | u32Arithmetic numOps => List.replicate numOps "U32ArithmeticGenerator"
  | u32Interleave numOps => List.replicate numOps "U32InterleaveGenerator"
  | u32RangeCheck _ => ["U32RangeCheckGenerator"]
  | u32Subtraction numOps => List.replicate numOps "U32SubtractionGenerator"
  | uninterleaveToB32 numOps => List.replicate numOps "UninterleaveToB32Generator"
  | uninterleaveToU32 numOps => List.replicate numOps "UninterleaveToU32Generator"

end GateType

end MegaZK
