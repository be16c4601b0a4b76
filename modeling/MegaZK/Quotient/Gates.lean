import Mathlib.Algebra.BigOperators.Group.List.Basic
import MegaZK.Quotient.Constraints

/-! # The gates of the host

`eval_unfiltered` of the constant, arithmetic, base sum and `u32` gates, each a list of constraints
of the wires and the constants of a row. -/

namespace MegaZK

variable {F : Type} [Field F]

/-- `(0..bound).map(|x| limb - x).product()`. -/
def rangeProduct (bound : ℕ) (limb : F) : F := ((List.range bound).map fun x : ℕ => limb - x).prod

/-- `ceil_div_usize`. -/
def ceilDivUsize (a b : ℕ) : ℕ := (a + b - 1) / b

/-- The loop over limbs from the last one down: a range check of each, and the limbs below the
midpoint and above it combined. -/
def limbFold (base bound midpoint numLimbs : ℕ) (limb : ℕ → F) : List F × F × F :=
  (List.range numLimbs).reverse.foldl
    (fun s j => (s.1 ++ [rangeProduct bound (limb j)],
      if j < midpoint then base * s.2.1 + limb j else s.2.1,
      if j < midpoint then s.2.2 else base * s.2.2 + limb j))
    ([], 0, 0)

variable (wires constants : ℕ → F)

/-- `ConstantGate`. -/
def ConstantGate.evalUnfiltered (numConsts : ℕ) : List F :=
  (List.range numConsts).map fun i => constants i - wires i

/-- `ArithmeticGate`. -/
def ArithmeticGate.evalUnfiltered (numOps : ℕ) : List F :=
  let const0 := constants 0
  let const1 := constants 1
  (List.range numOps).map fun i =>
    let multiplicand0 := wires (4 * i)
    let multiplicand1 := wires (4 * i + 1)
    let addend := wires (4 * i + 2)
    let output := wires (4 * i + 3)
    let computedOutput := multiplicand0 * multiplicand1 * const0 + addend * const1
    output - computedOutput

/-- `BaseSumGate`, with base `b`. -/
def BaseSumGate.evalUnfiltered (numLimbs b : ℕ) : List F :=
  let sum := wires 0
  let limbs := (List.range numLimbs).map fun i => wires (1 + i)
  let computedSum := reduceWithPowers (b : F) limbs
  (computedSum - sum) :: limbs.map (rangeProduct b)

namespace U32AddManyGate

/-- `limb_bits`. -/
def limbBits : ℕ := 2

/-- `LOG2_MAX_NUM_ADDENDS`. -/
def log2MaxNumAddends : ℕ := 4

/-- `num_result_limbs`. -/
def numResultLimbs : ℕ := ceilDivUsize 32 limbBits

/-- `num_carry_limbs`. -/
def numCarryLimbs : ℕ := ceilDivUsize log2MaxNumAddends limbBits

/-- `num_limbs`. -/
def numLimbs : ℕ := numResultLimbs + numCarryLimbs

/-- `wire_ith_output_jth_limb`. -/
def wireIthOutputJthLimb (numAddends numOps i j : ℕ) : ℕ :=
  (numAddends + 3) * numOps + numLimbs * i + j

def evalUnfiltered (numAddends numOps : ℕ) : List F :=
  (List.range numOps).flatMap fun i =>
    let addends := (List.range numAddends).map fun j => wires ((numAddends + 3) * i + j)
    let carry := wires ((numAddends + 3) * i + numAddends)
    let computedOutput := addends.foldl (· + ·) 0 + carry
    let outputResult := wires ((numAddends + 3) * i + numAddends + 1)
    let outputCarry := wires ((numAddends + 3) * i + numAddends + 2)
    let base : F := ((1 <<< 32 : ℕ) : F)
    let combinedOutput := outputCarry * base + outputResult
    let limbs := limbFold (1 <<< limbBits) (1 <<< limbBits) numResultLimbs numLimbs fun j =>
      wires (wireIthOutputJthLimb numAddends numOps i j)
    (combinedOutput - computedOutput) ::
      (limbs.1 ++ [limbs.2.1 - outputResult, limbs.2.2 - outputCarry])

end U32AddManyGate

namespace U32ArithmeticGate

/-- `limb_bits`. -/
def limbBits : ℕ := 2

/-- `num_limbs`. -/
def numLimbs : ℕ := 64 / limbBits

/-- `routed_wires_per_op`. -/
def routedWiresPerOp : ℕ := 6

/-- `wire_ith_output_jth_limb`. -/
def wireIthOutputJthLimb (numOps i j : ℕ) : ℕ := routedWiresPerOp * numOps + numLimbs * i + j

def evalUnfiltered (numOps : ℕ) : List F :=
  (List.range numOps).flatMap fun i =>
    let multiplicand0 := wires (routedWiresPerOp * i)
    let multiplicand1 := wires (routedWiresPerOp * i + 1)
    let addend := wires (routedWiresPerOp * i + 2)
    let computedOutput := multiplicand0 * multiplicand1 + addend
    let outputLow := wires (routedWiresPerOp * i + 3)
    let outputHigh := wires (routedWiresPerOp * i + 4)
    let inverse := wires (routedWiresPerOp * i + 5)
    let base : F := ((1 <<< 32 : ℕ) : F)
    let u32Max : F := ((2 ^ 32 - 1 : ℕ) : F)
    let diff := u32Max - outputHigh
    let hiNotMax := inverse * diff - 1
    let hiNotMaxOrLoZero := hiNotMax * outputLow
    let combinedOutput := outputHigh * base + outputLow
    let limbs := limbFold (1 <<< limbBits) (1 <<< limbBits) (numLimbs / 2) numLimbs fun j =>
      wires (wireIthOutputJthLimb numOps i j)
    hiNotMaxOrLoZero :: (combinedOutput - computedOutput) ::
      (limbs.1 ++ [limbs.2.1 - outputLow, limbs.2.2 - outputHigh])

end U32ArithmeticGate

/-- `ComparisonGate`. It divides by the number of chunks and takes fewer bits than the order
has. -/
structure ComparisonGate where
  numBits : ℕ
  numChunks : ℕ
  numBits_lt : numBits < 64
  numChunks_pos : 0 < numChunks

namespace ComparisonGate

variable (gate : ComparisonGate)

/-- `chunk_bits`. -/
def chunkBits : ℕ := ceilDivUsize gate.numBits gate.numChunks

def wireFirstChunkVal (chunk : ℕ) : ℕ := 4 + chunk

def wireSecondChunkVal (chunk : ℕ) : ℕ := 4 + gate.numChunks + chunk

def wireEqualityDummy (chunk : ℕ) : ℕ := 4 + 2 * gate.numChunks + chunk

def wireChunksEqual (chunk : ℕ) : ℕ := 4 + 3 * gate.numChunks + chunk

def wireIntermediateValue (chunk : ℕ) : ℕ := 4 + 4 * gate.numChunks + chunk

def wireMostSignificantDiffBit (bitIndex : ℕ) : ℕ := 4 + 5 * gate.numChunks + bitIndex

/-- The loop over the chunks: its constraints and `most_significant_diff_so_far`. -/
def evalChunks : List F × F :=
  (List.range gate.numChunks).foldl
    (fun s i =>
      let firstChunk := wires (wireFirstChunkVal i)
      let secondChunk := wires (gate.wireSecondChunkVal i)
      let difference := secondChunk - firstChunk
      let equalityDummy := wires (gate.wireEqualityDummy i)
      let chunksEqual := wires (gate.wireChunksEqual i)
      let intermediateValue := wires (gate.wireIntermediateValue i)
      (s.1 ++ [rangeProduct (1 <<< gate.chunkBits) firstChunk,
        rangeProduct (1 <<< gate.chunkBits) secondChunk,
        difference * equalityDummy - (1 - chunksEqual),
        chunksEqual * difference,
        intermediateValue - chunksEqual * s.2],
        intermediateValue + (1 - chunksEqual) * difference))
    ([], 0)

local instance atLeastTwo_bitBase : Nat.AtLeastTwo 2 := ⟨le_refl 2⟩

def evalUnfiltered : List F :=
  let firstInput := wires 0
  let secondInput := wires 1
  let firstChunks := (List.range gate.numChunks).map fun i => wires (wireFirstChunkVal i)
  let secondChunks := (List.range gate.numChunks).map fun i => wires (gate.wireSecondChunkVal i)
  let chunkBase : F := ((1 <<< gate.chunkBits : ℕ) : F)
  let chunks := gate.evalChunks wires
  let mostSignificantDiff := wires 3
  let bits := (List.range (gate.chunkBits + 1)).map fun i =>
    wires (gate.wireMostSignificantDiffBit i)
  let bitsCombined := reduceWithPowers 2 bits
  let twoN : F := ((1 <<< gate.chunkBits : ℕ) : F)
  let resultBool := wires 2
  [reduceWithPowers chunkBase firstChunks - firstInput,
    reduceWithPowers chunkBase secondChunks - secondInput] ++
  chunks.1 ++ [mostSignificantDiff - chunks.2] ++ bits.map (fun bit => bit * (1 - bit)) ++
  [(twoN + mostSignificantDiff) - bitsCombined,
    resultBool - wires (gate.wireMostSignificantDiffBit gate.chunkBits)]

end ComparisonGate

/-- `U32InterleaveGate`. The bits stand from the highest to the lowest. -/
def U32InterleaveGate.evalUnfiltered (numOps : ℕ) : List F :=
  (List.range numOps).flatMap fun i =>
    let x := wires (2 * i)
    let bits := (List.range 32).map fun j => wires (numOps * 2 + 32 * i + j)
    let computedX := reduceWithPowers ((2 : ℕ) : F) bits.reverse
    let xInterleaved := wires (2 * i + 1)
    let computedXInterleaved := reduceWithPowers ((2 * 2 : ℕ) : F) bits.reverse
    (computedX - x) :: (computedXInterleaved - xInterleaved) :: bits.map (rangeProduct 2)

/-- `UninterleaveToU32Gate`. -/
def UninterleaveToU32Gate.evalUnfiltered (numOps : ℕ) : List F :=
  (List.range numOps).flatMap fun i =>
    let xInterleaved := wires (3 * i)
    let bit j := wires (numOps * 3 + 64 * i + j)
    let bits := (List.range 64).map bit
    let computedXInterleaved := reduceWithPowers ((2 : ℕ) : F) bits.reverse
    let xEvens := wires (3 * i + 1)
    let xOdds := wires (3 * i + 2)
    let computed := (List.range (64 / 2)).foldl
      (fun (s : F × F) j =>
        let coeff : F := ((1 <<< (64 / 2 - j - 1) : ℕ) : F)
        (s.1 + coeff * bit (2 * j), s.2 + coeff * bit (2 * j + 1)))
      (0, 0)
    [computedXInterleaved - xInterleaved, computed.1 - xEvens, computed.2 - xOdds] ++
      bits.map (rangeProduct 2)

namespace U32RangeCheckGate

/-- `AUX_LIMB_BITS`. -/
def auxLimbBits : ℕ := 2

/-- `BASE`. -/
def base : ℕ := 1 <<< auxLimbBits

/-- `aux_limbs_per_input_limb`. -/
def auxLimbsPerInputLimb : ℕ := ceilDivUsize 32 auxLimbBits

def evalUnfiltered (numInputLimbs : ℕ) : List F :=
  (List.range numInputLimbs).flatMap fun i =>
    let inputLimb := wires i
    let auxLimbs := (List.range auxLimbsPerInputLimb).map fun j =>
      wires (numInputLimbs + auxLimbsPerInputLimb * i + j)
    let computedSum := reduceWithPowers (base : F) auxLimbs
    (computedSum - inputLimb) :: auxLimbs.map (rangeProduct base)

end U32RangeCheckGate

namespace U32SubtractionGate

/-- `limb_bits`. -/
def limbBits : ℕ := 2

/-- `num_limbs`. -/
def numLimbs : ℕ := 32 / limbBits

def evalUnfiltered (numOps : ℕ) : List F :=
  (List.range numOps).flatMap fun i =>
    let inputX := wires (5 * i)
    let inputY := wires (5 * i + 1)
    let inputBorrow := wires (5 * i + 2)
    let resultInitial := inputX - inputY - inputBorrow
    let base : F := ((1 <<< 32 : ℕ) : F)
    let outputResult := wires (5 * i + 3)
    let outputBorrow := wires (5 * i + 4)
    let limbs := limbFold (1 <<< limbBits) (1 <<< limbBits) numLimbs numLimbs fun j =>
      wires (5 * numOps + numLimbs * i + j)
    (outputResult - (resultInitial + base * outputBorrow)) ::
      (limbs.1 ++ [limbs.2.1 - outputResult, outputBorrow * (1 - outputBorrow)])

end U32SubtractionGate

end MegaZK
