import MegaZK.Assembly.Shape
import MegaZK.BitReversal
import MegaZK.Kernel
import MegaZK.Lib.Horner
import MegaZK.Query.Index

/-! # Query kernels

`FriQueryService`: the kernels that evaluate the leaves of the queries, walk the Merkle trees and
copy the folding steps, and the loops that launch them. A run is `none` when a launch is refused,
a thread stores outside its buffer or a shift is undefined. Words of `x_indexes` are numbers. -/

namespace MegaZK

open Grid Horner Scatter

variable {F : Type}

/-- `TILE_O`. -/
def tileO : ℕ := 64

/-- `PolyLayout`: the columns of every segment whose LDEs stay on the device, as asserted by
`new`. -/
structure PolyLayout (c : CommonCircuitData) where
  numLdes : PolySegment → ℕ
  numLdes_le : ∀ seg, numLdes seg ≤ c.counts.count seg

namespace PolyLayout

variable {c : CommonCircuitData} (layout : PolyLayout c)

/-- `non_lde_polynomial_count`. -/
def nonLdePolynomialCount (seg : PolySegment) : ℕ := c.counts.count seg - layout.numLdes seg

/-- `fp_offset_after_ldes`. -/
def fpOffsetAfterLdes (seg : PolySegment) : ℕ :=
  2 ^ c.degreeBits * c.counts.offset seg + layout.numLdes seg <<< c.degreeBits

/-- `lde_offset`. -/
def ldeOffset (seg : PolySegment) : ℕ :=
  let length := 2 ^ c.degreeBits <<< c.rateBits
  match seg with
  | .constantsSigmas => 0
  | .wires => length * layout.numLdes .constantsSigmas
  | .partialProducts => length * (layout.numLdes .constantsSigmas + layout.numLdes .wires)
  | .quotients =>
    length * (layout.numLdes .constantsSigmas + layout.numLdes .wires +
      layout.numLdes .partialProducts)

end PolyLayout

/-! ### Initial leaves -/

/-- `(1 << log_n) / TILE_O`: a division of `int`s that is stored as `unsigned`. -/
def tileLen (logN : ℕ) : Option ℕ :=
  if logN < 31 then some (2 ^ logN / tileO)
  else if logN = 31 then some (2 ^ 32 - 2 ^ 31 / tileO) else none

/-- The generator of the group of order `2 ^ 32` is a numeral of every ring. -/
instance atLeastTwo_rootUnity : Nat.AtLeastTwo 0x185629dcda58878c := ⟨by decide⟩

/-- The point of the coset that leaf `x` belongs to: a root of unity of order `2 ^ bits` to the
reversed index, times the shift of the coset. -/
def queryPoint [CommSemiring F] (bits x : ℕ) : F :=
  let rootUnity := squareTimes (32 - bits) (0x185629dcda58878c : F)
  powBits bits (reverseBits x bits) rootUnity 1 * 7

/-- The cell of the partial sums that a thread of `fri_initial_leaves_seg` stores to. -/
def segAddress (th : Thread) : ℕ := u32 (th.x * tileO + th.t)

/-- The threads of `fri_initial_leaves_seg` that store. -/
def segThreads (blocks numQuerys numPolys : ℕ) : Option (List Thread) := do
  let ths ← (launch 1 blocks tileO).toOption
  return ths.filter fun th => th.x < u32 (numQuerys * numPolys)

/-- `fri_initial_leaves_seg`: block `p * num_querys + query` evaluates the tiles of column `p`, one
by each thread. -/
def friInitialLeavesSeg [CommSemiring F] (inputs : ℕ → F) (buffer : DeviceBuffer F)
    (xIndexes : ℕ → ℕ) (blocks numQuerys numPolys logN rateBits : ℕ) :
    Option (DeviceBuffer F × (ℕ → ℕ)) := do
  let ths ← segThreads blocks numQuerys numPolys
  let degree ← shlInt logN
  let ldeDegree ← shlInt (logN + rateBits)
  let segLen ← tileLen logN
  let xIndex := fun th : Thread => xIndexes (th.x % numQuerys) % ldeDegree
  let acc := fun th : Thread =>
    horner (fun j => inputs (th.x / numQuerys * degree + u32 (th.t * segLen) + j)) segLen
      (queryPoint (logN + rateBits) (xIndex th))
  let buffer ← (buffer.store ths (fun th => segAddress th) acc).toOption
  let writers := ths.filter fun th => th.x / numQuerys = 0 ∧ th.t = 0
  return (buffer, scatter writers (fun th => th.x % numQuerys) xIndex xIndexes)

/-- The cell of the output that `fri_initial_leaves_reduce_partial` stores column `p` of a query
to. -/
def leafAddress (numPolys query p : ℕ) : ℕ := u32 (query * numPolys + p)

/-- The numbers of the threads of `fri_initial_leaves_reduce_partial` that store. -/
def reduceIds (blocks numQuerys numPolys : ℕ) : Option (List ℕ) := do
  let ths ← (launch 1 blocks 32).toOption
  return (ths.map fun th => u32 (th.x * 32 + th.t)).filter fun gId => gId < u32 (numQuerys * numPolys)

/-- `fri_initial_leaves_reduce_partial`: resident columns are looked up, the tiles of the others
are put together. -/
def friInitialLeavesReducePartial [CommSemiring F] (ldes : ℕ → F) (buffer leave : DeviceBuffer F)
    (xIndexes : ℕ → ℕ) (blocks numQuerys numPolys numLdes logN rateBits : ℕ) :
    Option (DeviceBuffer F × (ℕ → ℕ)) := do
  let ids ← reduceIds blocks numQuerys numPolys
  let ldeDegree ← shlInt (logN + rateBits)
  let segLen ← tileLen logN
  let xIndex := fun gId => xIndexes (gId % numQuerys) % ldeDegree
  let value := fun gId =>
    if gId / numQuerys < numLdes then ldes (gId / numQuerys * ldeDegree + xIndex gId)
    else
      let omegaJ := squareWhile segLen 32 1 (queryPoint (logN + rateBits) (xIndex gId) : F)
      let start := u32 (u32 (gId + 2 ^ 32 - u32 (numLdes * numQuerys)) * tileO)
      horner (fun j => buffer.cell (start + j)) tileO omegaJ
  let leave ← (leave.store ids
    (fun gId => leafAddress numPolys (gId % numQuerys) (gId / numQuerys)) value).toOption
  return (leave, scatter ids (fun gId => gId % numQuerys) xIndex xIndexes)

/-! ### Merkle paths -/

/-- A difference of 64-bit words. -/
def subU64 (a b : ℕ) : ℕ := (a + 2 ^ 64 - b) % 2 ^ 64

/-- `(1 << k) - 1`, which overflows an `int` from 31 on. -/
def maskInt (k : ℕ) : Option ℕ := if k < 31 then some (2 ^ k - 1) else none

/-- The loop that counts the ones of `id` above its lowest bit; a word has 64 bits. -/
def siblingLayer : ℕ → ℕ → ℕ → ℕ
  | 0, _, layer => layer
  | fuel + 1, id, layer =>
    let id := id >>> 1
    if id % 2 = 1 then siblingLayer fuel id (layer + 1) else layer

/-- Where the node with number `sibling` in the order of the proofs lies in the buffer of digests. -/
def digestIndex (numLayers fullLayers treeIndex sibling layer : ℕ) : Option ℕ := do
  let idInLayer :=
    subU64 (sibling + 2) (← shlInt (layer + 1)) / (← shlInt (layer + 2)) * 2 + sibling % 2
  let index := subU64 (idInLayer + (← shlInt fullLayers)) (← shlInt (fullLayers - layer))
  return (index + treeIndex <<< (numLayers - layer)) % 2 ^ 64

/-- One round of the loop that walks up a tree: the digest that is read for the node with number
`2 * pairIndex + parity` of layer `i`. -/
def siblingIndex (numLayers fullLayers treeIndex i pairIndex parity : ℕ) : Option ℕ := do
  let siblingsIndex := subU64 (pairIndex <<< (i + 1) + (← shlInt i)) 1
  let sibling := 2 * siblingsIndex + (1 - parity)
  digestIndex numLayers fullLayers treeIndex sibling (siblingLayer 64 sibling 0)

/-- The rounds from `i` on. -/
def siblingLoop (numLayers fullLayers treeIndex : ℕ) : ℕ → ℕ → ℕ → Option (List ℕ)
  | 0, _, _ => some []
  | n + 1, i, pairIndex => do
    let parity := pairIndex % 2
    let pairIndex := pairIndex >>> 1
    let index ← siblingIndex numLayers fullLayers treeIndex i pairIndex parity
    let rest ← siblingLoop numLayers fullLayers treeIndex n (i + 1) pairIndex
    return index :: rest

/-- The digests that the query kernels read for leaf `xIndex`, from the leaves to the cap. -/
def siblingIndices (numLayers capHeight xIndex : ℕ) : Option (List ℕ) := do
  let mask ← maskInt numLayers
  siblingLoop numLayers (numLayers + capHeight + 1) (xIndex >>> numLayers) numLayers 0
    (xIndex &&& mask)

/-- Four words of the digest at every index, stored one after the other. -/
def siblingWrites (digests : ℕ → F) (address : ℕ → ℕ → ℕ) (indices : List ℕ) : List (ℕ × F) :=
  indices.zipIdx.flatMap fun index =>
    (List.range 4).map fun j => (address index.2 j, digests (4 * index.1 + j))

/-- Where `fri_initial_siblings` stores word `j` of layer `i`, in the part of its oracle. -/
def initialSiblingAddress (numLayers query i j : ℕ) : ℕ :=
  u32 (query * u32 (4 * 4 * numLayers)) + u32 (4 * i + j)

/-- The numbers of the threads of a launch of single-thread blocks below `num_querys`. -/
def queryIds (blocks numQuerys : ℕ) : Option (List ℕ) := do
  let ths ← (launch 1 blocks 1).toOption
  return (ths.map fun th => th.x).filter fun gId => gId < numQuerys

/-- `fri_initial_siblings`, which gets a pointer to the part of its oracle. -/
def friInitialSiblings (digests : ℕ → F) (siblings : DeviceBuffer F) (offset : ℕ)
    (xIndexes : ℕ → ℕ) (blocks numQuerys logN capHeight numLayers : ℕ) :
    Option (DeviceBuffer F) := do
  let ids ← queryIds blocks numQuerys
  let degree ← shlInt logN
  let writes ← ids.mapM fun gId => do
    let indices ← siblingIndices numLayers capHeight (xIndexes gId % degree)
    return siblingWrites digests
      (fun i j => offset + initialSiblingAddress numLayers gId i j) indices
  siblings.storeAll writes.flatten

/-! ### Folding steps -/

/-- `2 << arity_bits` as `unsigned`. -/
def stepNumPolys (arityBits : ℕ) : Option ℕ :=
  if arityBits < 32 then some (u32 (2 <<< arityBits)) else none

/-- Where `fri_step` stores word `i` of the evaluations of a query. -/
def stepEvalAddress (aritySum arityAcc query i : ℕ) : ℕ :=
  u32 (query * aritySum * 2) + u32 (arityAcc * 2) + i

/-- Where `fri_step` stores word `j` of layer `i`. -/
def stepSiblingAddress (totalStepSiblings accStepSiblings query i j : ℕ) : ℕ :=
  u32 (query * totalStepSiblings * 4) + u32 (accStepSiblings * 4) + u32 (4 * i + j)

/-- The two outputs of the folding steps and the words of the indices. -/
structure StepState (F : Type) where
  evaluations : DeviceBuffer F
  siblings : DeviceBuffer F
  xIndexes : ℕ → ℕ

/-- `fri_step`. -/
def friStep (leaves digests : ℕ → F) (st : StepState F)
    (blocks numQuerys arityBits aritySum arityAcc totalStepSiblings accStepSiblings logN
      capHeight : ℕ) : Option (StepState F) := do
  let ids ← queryIds blocks numQuerys
  let numPolys ← stepNumPolys arityBits
  let xIndex := fun gId => st.xIndexes gId >>> arityBits
  let evaluations ← st.evaluations.storeAll (ids.flatMap fun gId =>
    (List.range numPolys).map fun i =>
      (stepEvalAddress aritySum arityAcc gId i, leaves (xIndex gId * numPolys + i)))
  let writes ← ids.mapM fun gId => do
    let indices ← siblingIndices (logN - capHeight) capHeight (xIndex gId)
    return siblingWrites digests
      (fun i j => stepSiblingAddress totalStepSiblings accStepSiblings gId i j) indices
  let siblings ← st.siblings.storeAll writes.flatten
  return { evaluations, siblings, xIndexes := scatter ids (fun gId => gId) xIndex st.xIndexes }

/-! ### Launches -/

namespace CommonCircuitData

variable (c : CommonCircuitData)

/-- The blocks of `fri_initial_leaves_seg` for `n` columns. -/
def segBlocks (n : ℕ) : ℕ := u32 (c.numQueryRounds * n)

/-- The blocks of `fri_initial_leaves_reduce_partial` for `n` columns. -/
def reduceBlocks (n : ℕ) : ℕ := u32 (u32 (c.numQueryRounds * n) + 32 - 1) / 32

/-- The blocks of the kernels with one thread for every query. -/
def queryBlocks : ℕ := u32 c.numQueryRounds

/-- The layers of the initial trees below their caps. -/
def numLayers : ℕ := c.degreeBits + c.rateBits - c.capHeight

/-- The length of `fri_buf`. -/
def friBufLen : ℕ := c.numQueryRounds * (c.numWires + 1) * tileO

end CommonCircuitData

/-- What `initial_proofs` reads: the coefficients of all columns, the resident LDEs and the
trees. -/
structure QueryInputs (F : Type) where
  fpInputs : ℕ → F
  ldes : ℕ → F
  treeDigests : PolySegment → ℕ → F

/-- What `initial_proofs` writes: the partial sums, the words of the indices, the leaves of every
oracle and the siblings of all of them. -/
structure InitialState (F : Type) where
  scratch : DeviceBuffer F
  xIndexes : ℕ → ℕ
  leaves : PolySegment → DeviceBuffer F
  siblings : DeviceBuffer F

namespace PolyLayout

variable {c : CommonCircuitData} (layout : PolyLayout c)

/-- The launch of `fri_initial_leaves_seg` in a round of `initial_proofs`, for the columns that are
not resident. -/
def segStage [CommSemiring F] (inputs : QueryInputs F) (scratch : DeviceBuffer F)
    (xIndexes : ℕ → ℕ) (seg : PolySegment) : Option (DeviceBuffer F × (ℕ → ℕ)) :=
  let numNtts := layout.nonLdePolynomialCount seg
  if 0 < numNtts then
    friInitialLeavesSeg (fun a => inputs.fpInputs (layout.fpOffsetAfterLdes seg + a)) scratch
      xIndexes (c.segBlocks numNtts) (u32 c.numQueryRounds) (u32 numNtts) c.degreeBits c.rateBits
  else some (scratch, xIndexes)

/-- The launches of a round of `initial_proofs` that give the leaves of an oracle. -/
def leavesRound [CommSemiring F] (inputs : QueryInputs F) (scratch leave : DeviceBuffer F)
    (xIndexes : ℕ → ℕ) (seg : PolySegment) :
    Option (DeviceBuffer F × DeviceBuffer F × (ℕ → ℕ)) := do
  let num := c.counts.count seg
  let (scratch, xIndexes) ← layout.segStage inputs scratch xIndexes seg
  let (leave, xIndexes) ←
    friInitialLeavesReducePartial (fun a => inputs.ldes (layout.ldeOffset seg + a)) scratch leave
      xIndexes (c.reduceBlocks num) (u32 c.numQueryRounds) (u32 num) (u32 (layout.numLdes seg))
      c.degreeBits c.rateBits
  return (scratch, leave, xIndexes)

/-- The round of `initial_proofs` for oracle `i`. -/
def initialRound [CommSemiring F] (inputs : QueryInputs F) (st : InitialState F)
    (r : ℕ × PolySegment) : Option (InitialState F) := do
  let (i, seg) := r
  let (scratch, leave, xIndexes) ←
    layout.leavesRound inputs st.scratch (st.leaves seg) st.xIndexes seg
  let siblings ←
    friInitialSiblings (inputs.treeDigests seg) st.siblings (i * 4 * c.numLayers) xIndexes
      c.queryBlocks (u32 c.numQueryRounds) c.ldeBits c.capHeight c.numLayers
  return { scratch, xIndexes, leaves := Function.update st.leaves seg leave, siblings }

/-- `initial_proofs`. -/
def initialProofs [CommSemiring F] (inputs : QueryInputs F) (st : InitialState F) :
    Option (InitialState F) :=
  ((List.range 4).zip PolySegment.all).foldlM (layout.initialRound inputs) st

end PolyLayout

/-- The loop of `query_steps` from round `round` on, with the evaluations and siblings passed so
far and the siblings of the current layer. -/
def CommonCircuitData.queryStepsFrom (c : CommonCircuitData) (leaves digests : ℕ → ℕ → F) :
    ℕ → ℕ → ℕ → ℕ → List ℕ → StepState F → Option (StepState F)
  | _, _, _, _, [], st => some st
  | round, arityAcc, accStepSiblings, currentStepSiblings, arityBits :: rest, st => do
    let g := c.assemblyConfig.friGeometry
    let currentStepSiblings := currentStepSiblings - arityBits
    let st ← friStep (leaves round) (digests round) st c.queryBlocks (u32 c.numQueryRounds)
      (u32 arityBits) (u32 g.aritySum) (u32 arityAcc) (u32 g.totalStepSiblings)
      (u32 accStepSiblings) (u32 (currentStepSiblings + c.capHeight)) (u32 c.capHeight)
    c.queryStepsFrom leaves digests (round + 1) (arityAcc + 1 <<< arityBits)
      (accStepSiblings + currentStepSiblings) currentStepSiblings rest st

/-- `query_steps`. -/
def CommonCircuitData.querySteps (c : CommonCircuitData) (leaves digests : ℕ → ℕ → F)
    (st : StepState F) : Option (StepState F) :=
  c.queryStepsFrom leaves digests 0 0 0 c.numLayers c.reductionArityBits st

end MegaZK
