import MegaZK.Quotient.RandomAccess
import MegaZK.U32.Generator

/-! # The generator kernels of the `u32` gates

What the kernels write for the gates of `u32` operations, for base sums and for random access. The
counters of the source are words of 64 bits; a sum of bits with their coefficients fits one. -/

namespace MegaZK

section Kernels

variable (read : ℕ → GoldilocksField)

/-- `u32_arithmetic_generator_new_kernel`. -/
def u32ArithmeticGeneratorNew : List GoldilocksField :=
  let outputU64 := (read 0 * read 1 + read 2).val
  let outputHighU64 := outputU64 >>> 32
  let outputLowU64 := outputU64 &&& ((1 <<< 32) - 1)
  let diff : ℕ := (2 ^ 32 - 1) - outputHighU64
  let inverse := if diff = 0 then 0 else (diff : GoldilocksField)⁻¹
  let numLimbs := 32
  let limbBase := 1 <<< 2
  [(outputHighU64 : GoldilocksField), (outputLowU64 : GoldilocksField), inverse] ++
    splitLoop limbBase numLimbs outputU64

/-- The loop of `comparison_generator_new_kernel` over `n` chunks, and
`most_significant_diff_so_far`. -/
def comparisonLoop (chunkSize : ℕ) :
    ℕ → ℕ → ℕ → GoldilocksField → List GoldilocksField × GoldilocksField
  | 0, _, _, mostSignificantDiffSoFar => ([], mostSignificantDiffSoFar)
  | n + 1, firstInputU64, secondInputU64, mostSignificantDiffSoFar =>
    let firstInputChunk := firstInputU64 % chunkSize
    let secondInputChunk := secondInputU64 % chunkSize
    -- the source calls this `is_equal`
    let isDifferent := firstInputChunk ≠ secondInputChunk
    let difference := (secondInputChunk : GoldilocksField) - firstInputChunk
    let mostSignificantDiff := if isDifferent then difference else mostSignificantDiffSoFar
    let intermediateValue := if isDifferent then 0 else mostSignificantDiff
    let chunksEqual := if isDifferent then 0 else 1
    let equalityDummy := if isDifferent then difference⁻¹ else 1
    let rest := comparisonLoop chunkSize n (firstInputU64 / chunkSize) (secondInputU64 / chunkSize)
      mostSignificantDiff
    ([(firstInputChunk : GoldilocksField), (secondInputChunk : GoldilocksField), equalityDummy,
      chunksEqual, intermediateValue] ++ rest.1, rest.2)

/-- `comparison_generator_new_kernel`. -/
def comparisonGeneratorNew (numBits numChunks : ℕ) : List GoldilocksField :=
  let firstInputU64 := (read 0).val
  let secondInputU64 := (read 1).val
  let result : GoldilocksField := if firstInputU64 ≤ secondInputU64 then 1 else 0
  let chunkBits := (numBits + numChunks - 1) / numChunks
  let chunkSize := 1 <<< chunkBits
  let chunks := comparisonLoop chunkSize numChunks firstInputU64 secondInputU64 0
  let mostSignificantDiff := chunks.2
  let twoN : GoldilocksField := (1 <<< chunkBits : ℕ)
  let twoNPlusMsd := (twoN + mostSignificantDiff).val
  [result] ++ chunks.1 ++ [mostSignificantDiff] ++ splitLoop 2 (chunkBits + 1) twoNPlusMsd

/-- `u32_interleave_generator_new_kernel`. -/
def u32InterleaveGeneratorNew : List GoldilocksField :=
  let xU64 := (read 0).val
  let numBits := 32
  let bit j := (xU64 >>> (numBits - j - 1)) % 2
  let xInterleaved := (List.range numBits).foldl
    (fun xInterleaved j => xInterleaved + bit j * (1 <<< (2 * (numBits - j - 1)))) 0
  (List.range numBits).map (fun j => (bit j : GoldilocksField)) ++
    [(xInterleaved : GoldilocksField)]

/-- `uninterleave_to_u32_generator_new_kernel`. -/
def uninterleaveToU32GeneratorNew : List GoldilocksField :=
  let xInterleaved := (read 0).val
  let numBits := 64
  let shift j := 2 * (numBits / 2 - j - 1)
  let jthEven j := (xInterleaved >>> (shift j + 1)) % 2
  let jthOdd j := (xInterleaved >>> shift j) % 2
  let coeff j := 1 <<< (numBits / 2 - j - 1)
  let sums := (List.range (numBits / 2)).foldl
    (fun (s : ℕ × ℕ) j => (s.1 + jthEven j * coeff j, s.2 + jthOdd j * coeff j)) (0, 0)
  (List.range (numBits / 2)).flatMap
      (fun j => [(jthEven j : GoldilocksField), (jthOdd j : GoldilocksField)]) ++
    [(sums.1 : GoldilocksField), (sums.2 : GoldilocksField)]

/-- `u32_range_check_generator_new_kernel`. -/
def u32RangeCheckGeneratorNew (numInputLimbs : ℕ) : List GoldilocksField :=
  (List.range numInputLimbs).flatMap fun i =>
    let sumValue := (read i).val % 2 ^ 32
    let base := 1 <<< 2
    let auxLimbsPerInputLimb := (32 + 2 - 1) / 2
    splitLoop base auxLimbsPerInputLimb sumValue

/-- `u32_subtraction_generator_new_kernel`. -/
def u32SubtractionGeneratorNew : List GoldilocksField :=
  let inputX := read 0
  let inputY := read 1
  let inputBorrow := read 2
  let resultInitial := inputX - inputY - inputBorrow
  let resultInitialU64 := resultInitial.val
  let outputBorrow : GoldilocksField := if 1 <<< 32 < resultInitialU64 then 1 else 0
  let base : GoldilocksField := (1 <<< 32 : ℕ)
  let outputResult := resultInitial + base * outputBorrow
  let outputResultU64 := outputResult.val
  let numLimbs := 32 / 2
  let limbBase := 1 <<< 2
  splitLoop limbBase numLimbs outputResultU64 ++ [outputResult, outputBorrow]

/-- `base_split_generator_new_kernel`. -/
def baseSplitGeneratorNew (b numLimbs : ℕ) : List GoldilocksField :=
  let sumValue := (read 0).val
  splitLoop b numLimbs sumValue

/-- `random_access_generator_new_kernel`. -/
def randomAccessGeneratorNew (bits : ℕ) : List GoldilocksField :=
  let accessIndex := (read 0).val
  read (1 + accessIndex) ::
    (List.range bits).map fun i => (((accessIndex >>> i) &&& 1 : ℕ) : GoldilocksField)

end Kernels

/-! ### Generators -/

section Generators

/-- `U32ArithmeticGenerator`. -/
def u32ArithmeticGenerator (numOps i : ℕ) : RowGenerator where
  dependencies := [6 * i, 6 * i + 1, 6 * i + 2]
  outputTargets := [6 * i + 4, 6 * i + 3, 6 * i + 5] ++
    (List.range U32ArithmeticGate.numLimbs).map (U32ArithmeticGate.wireIthOutputJthLimb numOps i)
  kernel := u32ArithmeticGeneratorNew

/-- `ComparisonGenerator`. -/
def comparisonGenerator (gate : ComparisonGate) : RowGenerator where
  dependencies := [0, 1]
  outputTargets := [2] ++
    (List.range gate.numChunks).flatMap (fun i =>
      [ComparisonGate.wireFirstChunkVal i, gate.wireSecondChunkVal i, gate.wireEqualityDummy i,
        gate.wireChunksEqual i, gate.wireIntermediateValue i]) ++
    [3] ++ (List.range (gate.chunkBits + 1)).map gate.wireMostSignificantDiffBit
  kernel := fun read => comparisonGeneratorNew read gate.numBits gate.numChunks

/-- `U32InterleaveGenerator`. -/
def u32InterleaveGenerator (numOps i : ℕ) : RowGenerator where
  dependencies := [2 * i]
  outputTargets := (List.range 32).map (fun j => numOps * 2 + 32 * i + j) ++ [2 * i + 1]
  kernel := u32InterleaveGeneratorNew

/-- `UninterleaveToU32Generator`. -/
def uninterleaveToU32Generator (numOps i : ℕ) : RowGenerator where
  dependencies := [3 * i]
  outputTargets := (List.range (64 / 2)).flatMap
      (fun j => [2 * j + numOps * 3 + 64 * i, 2 * j + 1 + numOps * 3 + 64 * i]) ++
    [3 * i + 1, 3 * i + 2]
  kernel := uninterleaveToU32GeneratorNew

/-- `U32RangeCheckGenerator`. -/
def u32RangeCheckGenerator (numInputLimbs : ℕ) : RowGenerator where
  dependencies := List.range numInputLimbs
  outputTargets := (List.range numInputLimbs).flatMap fun i =>
    (List.range U32RangeCheckGate.auxLimbsPerInputLimb).map fun j =>
      numInputLimbs + U32RangeCheckGate.auxLimbsPerInputLimb * i + j
  kernel := fun read => u32RangeCheckGeneratorNew read numInputLimbs

/-- `U32SubtractionGenerator`. -/
def u32SubtractionGenerator (numOps i : ℕ) : RowGenerator where
  dependencies := [5 * i, 5 * i + 1, 5 * i + 2]
  outputTargets := (List.range U32SubtractionGate.numLimbs).map
      (fun j => 5 * numOps + U32SubtractionGate.numLimbs * i + j) ++
    [5 * i + 3, 5 * i + 4]
  kernel := u32SubtractionGeneratorNew

/-- `BaseSplitGenerator`. -/
def baseSplitGenerator (numLimbs b : ℕ) : RowGenerator where
  dependencies := [0]
  outputTargets := (List.range numLimbs).map (1 + ·)
  kernel := fun read => baseSplitGeneratorNew read b numLimbs

/-- `RandomAccessGenerator`. -/
def randomAccessGenerator (gate : RandomAccessGate) (copy : ℕ) : RowGenerator where
  dependencies := gate.wireAccessIndex copy ::
    (List.range gate.vecSize).map fun i => gate.wireListItem i copy
  outputTargets := gate.wireClaimedElement copy ::
    (List.range gate.bits).map fun i => gate.wireBit i copy
  kernel := fun read => randomAccessGeneratorNew read gate.bits

end Generators

end MegaZK
