import Mathlib
import MegaZK.Goldilocks
import MegaZK.Lib.Horner
import MegaZK.Quotient.Gates

/-! # The gate kernels

What the kernels of the constant, arithmetic, base sum and `u32` gates add at one point, from the
wires and constants they load. They hard-code the numbers of limbs and bits that the host derives,
and the kernel of the constant gate takes the configuration's number of constants. A circuit's gates
have a degree below `quotient_degree_factor`, so the counters of the loops do not wrap. -/

namespace MegaZK

open Horner

variable {F : Type} [Field F]

/-! ### Kernels -/

section Kernels

/-- `product` after `for (k = 0; k < n; k++) product *= limb - k`. -/
def productLoop (limb : F) (n : ℕ) : F :=
  (List.range n).foldl (fun product k => product * (limb - (k : ℕ))) 1

/-- `for (int j = n - 1; j >= 0; j--)` over limbs: a product is added for each, and the limbs below
the midpoint and above it are combined. -/
def limbLoop (midpoint : ℕ) (limb : ℕ → F) : ℕ → List F → F → F → List F × F × F
  | 0, cons, low, high => (cons, low, high)
  | j + 1, cons, low, high =>
    limbLoop midpoint limb j (cons ++ [productLoop (limb j) (1 <<< 2)])
      (if j < midpoint then ((1 <<< 2 : ℕ) : F) * low + limb j else low)
      (if j < midpoint then high else ((1 <<< 2 : ℕ) : F) * high + limb j)

/-- A loop that adds the next bit at base `base`. -/
def bitLoop (base : F) (bit : ℕ → F) (n : ℕ) : F :=
  (List.range n).foldl (fun computed j => computed * base + bit j) 0

variable (wire const : ℕ → F)

/-- `constant_gate_partial`. -/
def constantGatePartial (numConstants : ℕ) : List F :=
  (List.range numConstants).map fun i => const i - wire i

/-- `arithmetic_gate_partial`. -/
def arithmeticGatePartial (numOps : ℕ) : List F :=
  let c0 := const 0
  let c1 := const 1
  (List.range numOps).map fun i =>
    let m0 := wire (i * 4)
    let m1 := wire (i * 4 + 1)
    let ad := wire (i * 4 + 2)
    let oput := wire (i * 4 + 3)
    let computed := m0 * m1 * c0 + ad * c1
    oput - computed

/-- `u32_add_many_gate_partial`. -/
def u32AddManyGatePartial (numAddends numOps : ℕ) : List F :=
  (List.range numOps).flatMap fun i =>
    let carry := wire ((numAddends + 3) * i + numAddends)
    let computedOutput := (List.range numAddends).foldl
      (fun computed j => computed + wire ((numAddends + 3) * i + j)) carry
    let outputResult := wire ((numAddends + 3) * i + numAddends + 1)
    let outputCarry := wire ((numAddends + 3) * i + numAddends + 2)
    let combinedOutput := outputCarry * ((1 <<< 32 : ℕ) : F) + outputResult
    let limbs := limbLoop 16 (fun j => wire ((numAddends + 3) * numOps + 18 * i + j)) 18
      [combinedOutput - computedOutput] 0 0
    limbs.1 ++ [limbs.2.1 - outputResult, limbs.2.2 - outputCarry]

/-- `u32_arithmetic_gate_partial`. -/
def u32ArithmeticGatePartial (numOps : ℕ) : List F :=
  (List.range numOps).flatMap fun i =>
    let multiplicand0 := wire (6 * i)
    let multiplicand1 := wire (6 * i + 1)
    let addend := wire (6 * i + 2)
    let computedOutput := multiplicand0 * multiplicand1 + addend
    let outputLow := wire (6 * i + 3)
    let outputHigh := wire (6 * i + 4)
    let inverse := wire (6 * i + 5)
    let diff := ((2 ^ 32 - 1 : ℕ) : F) - outputHigh
    let hiNotMax := inverse * diff - 1
    let hiNotMaxOrLoZero := hiNotMax * outputLow
    let combinedOutput := outputHigh * ((1 <<< 32 : ℕ) : F) + outputLow
    let limbs := limbLoop 16 (fun j => wire (6 * numOps + 32 * i + j)) 32
      [hiNotMaxOrLoZero, combinedOutput - computedOutput] 0 0
    limbs.1 ++ [limbs.2.1 - outputLow, limbs.2.2 - outputHigh]

/-- The second loop of `comparison_gate_partial`: its constraints and
`most_significant_diff_so_far`. -/
def comparisonChunkLoop (numChunks chunkSize : ℕ) : List F × F :=
  (List.range numChunks).foldl
    (fun s i =>
      let firstChunk := wire (4 + i)
      let secondChunk := wire (4 + numChunks + i)
      let difference := secondChunk - firstChunk
      let equalityDummy := wire (4 + 2 * numChunks + i)
      let chunksEqual := wire (4 + 3 * numChunks + i)
      let intermediateValue := wire (4 + 4 * numChunks + i)
      (s.1 ++ [productLoop firstChunk chunkSize, productLoop secondChunk chunkSize,
        difference * equalityDummy - (1 - chunksEqual), chunksEqual * difference,
        intermediateValue - chunksEqual * s.2],
        intermediateValue + (1 - chunksEqual) * difference))
    ([], 0)

/-- `comparison_gate_partial`. -/
def comparisonGatePartial (numBits numChunks : ℕ) : List F :=
  let firstInput := wire 0
  let secondInput := wire 1
  let chunkBits := (numBits + numChunks - 1) / numChunks
  let chunkSize := 1 <<< chunkBits
  let firstChunksCombined := hornerFrom (fun i => wire (4 + i)) (chunkSize : F) numChunks 0
  let secondChunksCombined :=
    hornerFrom (fun i => wire (4 + numChunks + i)) (chunkSize : F) numChunks 0
  let chunks := comparisonChunkLoop wire numChunks chunkSize
  let mostSignificantDiff := wire 3
  let bit i := wire (4 + 5 * numChunks + i)
  let bitsCombined := hornerFrom bit 2 (chunkBits + 1) 0
  let twoN : F := ((1 <<< chunkBits : ℕ) : F)
  let resultBool := wire 2
  [firstChunksCombined - firstInput, secondChunksCombined - secondInput] ++ chunks.1 ++
    [mostSignificantDiff - chunks.2] ++
    (List.range (chunkBits + 1)).map (fun i => bit i * (1 - bit i)) ++
    [twoN + mostSignificantDiff - bitsCombined, resultBool - bit chunkBits]

/-- `u32_interleave_gate_partial`. -/
def u32InterleaveGatePartial (numOps : ℕ) : List F :=
  (List.range numOps).flatMap fun i =>
    let x := wire (2 * i)
    let xInterleaved := wire (2 * i + 1)
    let bit j := wire (2 * numOps + 32 * i + j)
    [bitLoop ((2 : ℕ) : F) bit 32 - x, bitLoop ((4 : ℕ) : F) bit 32 - xInterleaved] ++
      (List.range 32).map fun j => productLoop (bit j) 2

/-- `u32_range_check_gate_partial`. -/
def u32RangeCheckGatePartial (numInputLimbs : ℕ) : List F :=
  let base : F := ((1 <<< 2 : ℕ) : F)
  (List.range numInputLimbs).flatMap fun i =>
    let inputLimb := wire i
    let auxLimb j := wire (numInputLimbs + 16 * i + j)
    [hornerFrom auxLimb base 16 0 - inputLimb] ++
      (List.range 16).map fun j => productLoop (auxLimb j) 4

/-- `u32_subtraction_gate_partial`. -/
def u32SubtractionGatePartial (numOps : ℕ) : List F :=
  (List.range numOps).flatMap fun i =>
    let inputX := wire (5 * i)
    let inputY := wire (5 * i + 1)
    let inputBorrow := wire (5 * i + 2)
    let resultInitial := inputX - inputY - inputBorrow
    let outputResult := wire (5 * i + 3)
    let outputBorrow := wire (5 * i + 4)
    let limbs := limbLoop 16 (fun j => wire (5 * numOps + 16 * i + j)) 16
      [outputResult - (resultInitial + outputBorrow * ((1 <<< 32 : ℕ) : F))] 0 0
    limbs.1 ++ [limbs.2.1 - outputResult, outputBorrow * (1 - outputBorrow)]

/-- `uninterleave_to_u32_gate_partial`. -/
def uninterleaveToU32GatePartial (numOps : ℕ) : List F :=
  (List.range numOps).flatMap fun i =>
    let xInterleaved := wire (3 * i)
    let bit j := wire (3 * numOps + 64 * i + j)
    let xEvens := wire (3 * i + 1)
    let xOdds := wire (3 * i + 2)
    let computed := (List.range 32).foldl
      (fun (s : F × F) j =>
        let jthEven := wire (3 * numOps + 64 * i + 2 * j)
        let jthOdd := wire (3 * numOps + 64 * i + 2 * j + 1)
        let coeff : F := ((1 <<< (32 - j - 1) : ℕ) : F)
        (s.1 + jthEven * coeff, s.2 + jthOdd * coeff))
      (0, 0)
    [bitLoop ((2 : ℕ) : F) bit 64 - xInterleaved, computed.1 - xEvens, computed.2 - xOdds] ++
      (List.range 64).map fun j => productLoop (bit j) 2

/-- `for (int i = num_limbs; i > 0; i--)` of `base_sum_gate_partial`. -/
def baseSumLoop (b : F) : ℕ → F → F
  | 0, computedSum => computedSum
  | i + 1, computedSum => baseSumLoop b i (computedSum * b + wire (i + 1))

/-- `base_sum_gate_partial`. -/
def baseSumGatePartial (numLimbs b : ℕ) : List F :=
  let sum := wire 0
  [baseSumLoop wire (b : F) numLimbs 0 - sum] ++
    (List.range numLimbs).map fun i => productLoop (wire (1 + i)) b

end Kernels

/-! ### Loops -/

section Loops

lemma productLoop_eq (limb : F) (n : ℕ) : productLoop limb n = rangeProduct n limb := by
  rw [rangeProduct, List.prod_eq_foldl, List.foldl_map, productLoop]

lemma limbLoop_append (midpoint : ℕ) (limb : ℕ → F) (n : ℕ) (before cons : List F) (low high : F) :
    limbLoop midpoint limb n (before ++ cons) low high =
      (before ++ (limbLoop midpoint limb n cons low high).1,
        (limbLoop midpoint limb n cons low high).2) := by
  induction n generalizing cons low high with
  | zero => rfl
  | succ n ih => rw [limbLoop, limbLoop, List.append_assoc, ih]

/-- The device's loop down over the limbs is the host's fold. -/
lemma limbLoop_eq (midpoint : ℕ) (limb : ℕ → F) (n : ℕ) (before : List F) :
    limbLoop midpoint limb n before 0 0 =
      (before ++ (limbFold (1 <<< 2) (1 <<< 2) midpoint n limb).1,
        (limbFold (1 <<< 2) (1 <<< 2) midpoint n limb).2) := by
  have hfold : ∀ (cons : List F) (low high : F), limbLoop midpoint limb n cons low high =
      (List.range n).reverse.foldl
        (fun s j => (s.1 ++ [rangeProduct (1 <<< 2) (limb j)],
          if j < midpoint then ((1 <<< 2 : ℕ) : F) * s.2.1 + limb j else s.2.1,
          if j < midpoint then s.2.2 else ((1 <<< 2 : ℕ) : F) * s.2.2 + limb j))
        (cons, low, high) := by
    induction n with
    | zero => exact fun _ _ _ => rfl
    | succ n ih =>
      intro cons low high
      rw [limbLoop, ih, List.range_succ, List.reverse_append, List.reverse_singleton,
        List.singleton_append, List.foldl_cons, productLoop_eq]
  have happend := limbLoop_append midpoint limb n before [] 0 0
  rw [List.append_nil, hfold [] 0 0] at happend
  exact happend

lemma bitLoop_eq (base : F) (bit : ℕ → F) (n : ℕ) :
    bitLoop base bit n = reduceWithPowers base ((List.range n).map bit).reverse := by
  rw [reduceWithPowers, List.foldr_reverse, List.foldl_map, bitLoop]

lemma hornerFrom_eq_reduceWithPowers (limb : ℕ → F) (base : F) (n : ℕ) :
    hornerFrom limb base n 0 = reduceWithPowers base ((List.range n).map limb) := by
  have hfold : ∀ acc, hornerFrom limb base n acc =
      ((List.range n).map limb).foldr (fun term sum => sum * base + term) acc := by
    induction n with
    | zero => exact fun _ => rfl
    | succ n ih =>
      intro acc
      rw [hornerFrom, ih, List.range_succ, List.map_append, List.foldr_append]
      rfl
  exact hfold 0

lemma baseSumLoop_eq (wire : ℕ → F) (b : F) (n : ℕ) (acc : F) :
    baseSumLoop wire b n acc = hornerFrom (fun i => wire (1 + i)) b n acc := by
  induction n generalizing acc with
  | zero => rfl
  | succ n ih => rw [baseSumLoop, ih, hornerFrom, add_comm n 1]

/-- The addends added to the carry one by one, or the carry added to their sum. -/
lemma foldl_add_eq (f : ℕ → F) (l : List ℕ) (carry : F) :
    l.foldl (fun computed j => computed + f j) carry = (l.map f).foldl (· + ·) 0 + carry := by
  rw [← List.sum_eq_foldl]
  induction l generalizing carry with
  | nil => simp
  | cons j l ih =>
    rw [List.foldl_cons, ih, List.map_cons, List.sum_cons]
    ring

end Loops

/-! ### Constraints -/

section Constraints

variable (wires constants : ℕ → F)

lemma arithmeticGatePartial_eq (numOps : ℕ) :
    arithmeticGatePartial wires constants numOps =
      ArithmeticGate.evalUnfiltered wires constants numOps := by
  simp only [arithmeticGatePartial, ArithmeticGate.evalUnfiltered, mul_comm _ 4]

lemma baseSumGatePartial_eq (numLimbs b : ℕ) :
    baseSumGatePartial wires numLimbs b = BaseSumGate.evalUnfiltered wires numLimbs b := by
  simp only [baseSumGatePartial, BaseSumGate.evalUnfiltered, baseSumLoop_eq,
    hornerFrom_eq_reduceWithPowers, productLoop_eq, List.map_map]
  rfl

lemma u32AddManyGatePartial_eq (numAddends numOps : ℕ) :
    u32AddManyGatePartial wires numAddends numOps =
      U32AddManyGate.evalUnfiltered wires numAddends numOps := by
  have hlimbs : U32AddManyGate.numLimbs = 18 := rfl
  have hresult : U32AddManyGate.numResultLimbs = 16 := rfl
  simp only [u32AddManyGatePartial, U32AddManyGate.evalUnfiltered, limbLoop_eq, foldl_add_eq,
    U32AddManyGate.wireIthOutputJthLimb, U32AddManyGate.limbBits, hlimbs, hresult,
    List.nil_append, List.cons_append]

lemma u32ArithmeticGatePartial_eq (numOps : ℕ) :
    u32ArithmeticGatePartial wires numOps = U32ArithmeticGate.evalUnfiltered wires numOps := by
  have hlimbs : U32ArithmeticGate.numLimbs = 32 := rfl
  have hmidpoint : 32 / 2 = 16 := rfl
  simp only [u32ArithmeticGatePartial, U32ArithmeticGate.evalUnfiltered, limbLoop_eq,
    U32ArithmeticGate.wireIthOutputJthLimb, U32ArithmeticGate.routedWiresPerOp,
    U32ArithmeticGate.limbBits, hlimbs, hmidpoint, List.nil_append, List.cons_append]

lemma comparisonGatePartial_eq (gate : ComparisonGate) :
    comparisonGatePartial wires gate.numBits gate.numChunks = gate.evalUnfiltered wires := by
  simp only [comparisonGatePartial, comparisonChunkLoop, productLoop_eq,
    hornerFrom_eq_reduceWithPowers, ComparisonGate.evalUnfiltered, List.map_map]
  rfl

lemma u32InterleaveGatePartial_eq (numOps : ℕ) :
    u32InterleaveGatePartial wires numOps = U32InterleaveGate.evalUnfiltered wires numOps := by
  simp only [u32InterleaveGatePartial, U32InterleaveGate.evalUnfiltered, bitLoop_eq,
    productLoop_eq, List.map_map, mul_comm numOps]
  rfl

lemma uninterleaveToU32GatePartial_eq (numOps : ℕ) :
    uninterleaveToU32GatePartial wires numOps =
      UninterleaveToU32Gate.evalUnfiltered wires numOps := by
  simp only [uninterleaveToU32GatePartial, UninterleaveToU32Gate.evalUnfiltered, bitLoop_eq,
    productLoop_eq, List.map_map, mul_comm numOps, mul_comm (wires _), add_assoc]
  rfl

lemma u32RangeCheckGatePartial_eq (numInputLimbs : ℕ) :
    u32RangeCheckGatePartial wires numInputLimbs =
      U32RangeCheckGate.evalUnfiltered wires numInputLimbs := by
  simp only [u32RangeCheckGatePartial, U32RangeCheckGate.evalUnfiltered, productLoop_eq,
    hornerFrom_eq_reduceWithPowers, List.map_map]
  rfl

lemma u32SubtractionGatePartial_eq (numOps : ℕ) :
    u32SubtractionGatePartial wires numOps = U32SubtractionGate.evalUnfiltered wires numOps := by
  have hlimbs : U32SubtractionGate.numLimbs = 16 := rfl
  simp only [u32SubtractionGatePartial, U32SubtractionGate.evalUnfiltered, limbLoop_eq,
    U32SubtractionGate.limbBits, hlimbs, mul_comm _ ((1 <<< 32 : ℕ) : F), List.nil_append,
    List.cons_append]

end Constraints

/-! ### The gates together -/

/-- A gate of one of the ten kernels with its parameters. -/
inductive KernelGate
  | constant (numConsts : ℕ)
  | arithmetic (numOps : ℕ)
  | baseSum (numLimbs b : ℕ)
  | u32AddMany (numAddends numOps : ℕ)
  | u32Arithmetic (numOps : ℕ)
  | comparison (gate : ComparisonGate)
  | u32Interleave (numOps : ℕ)
  | uninterleaveToU32 (numOps : ℕ)
  | u32RangeCheck (numInputLimbs : ℕ)
  | u32Subtraction (numOps : ℕ)

namespace KernelGate

/-- `eval_unfiltered` of the gate. -/
def evalUnfiltered (wires constants : ℕ → F) : KernelGate → List F
  | .constant numConsts => ConstantGate.evalUnfiltered wires constants numConsts
  | .arithmetic numOps => ArithmeticGate.evalUnfiltered wires constants numOps
  | .baseSum numLimbs b => BaseSumGate.evalUnfiltered wires numLimbs b
  | .u32AddMany numAddends numOps => U32AddManyGate.evalUnfiltered wires numAddends numOps
  | .u32Arithmetic numOps => U32ArithmeticGate.evalUnfiltered wires numOps
  | .comparison gate => gate.evalUnfiltered wires
  | .u32Interleave numOps => U32InterleaveGate.evalUnfiltered wires numOps
  | .uninterleaveToU32 numOps => UninterleaveToU32Gate.evalUnfiltered wires numOps
  | .u32RangeCheck numInputLimbs => U32RangeCheckGate.evalUnfiltered wires numInputLimbs
  | .u32Subtraction numOps => U32SubtractionGate.evalUnfiltered wires numOps

/-- The constraints of the gate's kernel, launched with `num_constants` of the configuration. -/
def kernel (numConstants : ℕ) (wire const : ℕ → F) : KernelGate → List F
  | .constant _ => constantGatePartial wire const numConstants
  | .arithmetic numOps => arithmeticGatePartial wire const numOps
  | .baseSum numLimbs b => baseSumGatePartial wire numLimbs b
  | .u32AddMany numAddends numOps => u32AddManyGatePartial wire numAddends numOps
  | .u32Arithmetic numOps => u32ArithmeticGatePartial wire numOps
  | .comparison gate => comparisonGatePartial wire gate.numBits gate.numChunks
  | .u32Interleave numOps => u32InterleaveGatePartial wire numOps
  | .uninterleaveToU32 numOps => uninterleaveToU32GatePartial wire numOps
  | .u32RangeCheck numInputLimbs => u32RangeCheckGatePartial wire numInputLimbs
  | .u32Subtraction numOps => u32SubtractionGatePartial wire numOps

/-- For every row and challenge the kernel yields the host's combination of exactly the gate's
constraints. -/
def Agrees (F : Type) [Field F] (numConstants : ℕ) (gate : KernelGate) : Prop :=
  ∀ (wires constants : ℕ → F) (alpha : F),
    combine alpha (gate.kernel numConstants wires constants) =
      reduceWithPowers alpha (gate.evalUnfiltered wires constants)

variable {numConstants : ℕ}

/-- Apart from the number of constants, the kernels compute the gates' constraints in their
order. -/
lemma kernel_eq (gate : KernelGate) (h : ∀ numConsts, gate = .constant numConsts →
    numConsts = numConstants) (wires constants : ℕ → F) :
    gate.kernel numConstants wires constants = gate.evalUnfiltered wires constants := by
  cases gate with
  | constant numConsts =>
    rw [kernel, evalUnfiltered, h numConsts rfl]
    rfl
  | arithmetic numOps => exact arithmeticGatePartial_eq wires constants numOps
  | baseSum numLimbs b => exact baseSumGatePartial_eq wires numLimbs b
  | u32AddMany numAddends numOps => exact u32AddManyGatePartial_eq wires numAddends numOps
  | u32Arithmetic numOps => exact u32ArithmeticGatePartial_eq wires numOps
  | comparison gate => exact comparisonGatePartial_eq wires gate
  | u32Interleave numOps => exact u32InterleaveGatePartial_eq wires numOps
  | uninterleaveToU32 numOps => exact uninterleaveToU32GatePartial_eq wires numOps
  | u32RangeCheck numInputLimbs => exact u32RangeCheckGatePartial_eq wires numInputLimbs
  | u32Subtraction numOps => exact u32SubtractionGatePartial_eq wires numOps

/-- Where only constant `m` is not zero, one challenge tells whether it is among the first `n`. -/
lemma sum_constant_single (m n : ℕ) :
    ((List.range n).map fun i => (Pi.single m 1 : ℕ → F) i - (0 : ℕ → F) i).sum =
      if m < n then 1 else 0 := by
  change ∑ i ∈ Finset.range n, _ = _
  simp only [Pi.zero_apply, sub_zero, Pi.single_apply, Finset.sum_ite_eq', Finset.mem_range]

/-- A constant gate is evaluated with as many constraints as the configuration has constants. -/
lemma Agrees.numConsts_eq {numConsts : ℕ} (h : Agrees F numConstants (.constant numConsts)) :
    numConsts = numConstants := by
  have hsum : ∀ m : ℕ, (if m < numConstants then (1 : F) else 0) = if m < numConsts then 1 else 0 := by
    intro m
    have hone := h 0 (Pi.single m 1) 1
    rw [combine_eq, reduceWithPowers_one, reduceWithPowers_one] at hone
    exact (sum_constant_single m _).symm.trans (hone.trans (sum_constant_single m _))
  rcases lt_trichotomy numConsts numConstants with hlt | heq | hgt
  · have hne := hsum numConsts
    rw [if_pos hlt, if_neg (lt_irrefl _)] at hne
    exact absurd hne one_ne_zero
  · exact heq
  · have hne := hsum numConstants
    rw [if_neg (lt_irrefl _), if_pos hgt] at hne
    exact absurd hne zero_ne_one

end KernelGate

end MegaZK
