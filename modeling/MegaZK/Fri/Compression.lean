import MegaZK.Fri.Prover
import MegaZK.Merkle.Compression

/-! # Compressed FRI proofs

`FriProof::compress` keeps one opening of every leaf, leaves out the evaluation that a reduction
step repeats, and compresses the Merkle proofs of each tree together. `decompress` puts back the
evaluations that `get_inferred_elements` computes. A hash map is the list of its entries, and `none`
is a panic. -/

namespace MegaZK

open Horner
open scoped QuadraticField

/-! ### Source -/

/-- `entry(k).or_insert(v)`. -/
def orInsert {V : Type} (m : List (ℕ × V)) (k : ℕ) (v : V) : List (ℕ × V) :=
  if (m.lookup k).isSome then m else m ++ [(k, v)]

/-- The vectors of `n` trees, after a loop that pushed the parts of every row. -/
def pushed {α : Type} (n : ℕ) (rows : List (List α)) : Option (List (List α)) := do
  guard (∀ row ∈ rows, row.length ≤ n)
  return (List.range n).map fun j => rows.filterMap (·[j]?)

/-- `CompressedFriQueryRounds`. -/
structure CompressedFriQueryRounds (F : Type) where
  indices : List ℕ
  initialTreesProofs : List (ℕ × List (List F × List (List F)))
  steps : List (List (ℕ × FriQueryStep F))

/-- `CompressedFriProof`. -/
structure CompressedFriProof (F : Type) where
  commitPhaseMerkleCaps : List (List (List F))
  queryRoundProofs : CompressedFriQueryRounds F
  finalPoly : List (F × F)
  powWitness : F

section Compress

variable {F : Type}

/-- The loop of `compress` over the steps of a query: the element that can be inferred is
removed. -/
def removeInferred : List ℕ → List (FriQueryStep F) → ℕ → Option (List (ℕ × FriQueryStep F))
  | _, [], _ => some []
  | [], _ :: _, _ => none
  | arityBits :: arities, step :: steps, index => do
    let indexWithinCoset := index &&& (1 <<< arityBits - 1)
    let index := index >>> arityBits
    guard (indexWithinCoset < step.evals.length)
    let evals := step.evals.eraseIdx indexWithinCoset
    let rest ← removeInferred arities steps index
    return (index, { step with evals }) :: rest

/-- The loop of `compress` over the maps of the steps, for the query with number `i`. -/
def insertSteps (i : ℕ) : List ℕ → List (List (ℕ × FriQueryStep F)) →
    List (List (List (List F))) → List (List (ℕ × FriQueryStep F)) → ℕ →
    Option (List (List (ℕ × FriQueryStep F)))
  | arityBits :: arities, steps :: stepsRest, proofs :: proofsRest, m :: maps, index => do
    let index := index >>> arityBits
    let step ← steps[i]?
    let merkleProof ← proofs[i]?
    let maps ← insertSteps i arities stepsRest proofsRest maps index
    return orInsert m index { step.2 with merkleProof } :: maps
  | [], _, _, _, _ => some []
  | _, _, _, _, _ => none

/-- The rows of a query in the vectors of the trees, with the compressed proofs. -/
def initialProofAt (i : ℕ) (trees : List (List (ℕ × List F × List (List F))))
    (proofs : List (List (List (List F)))) : Option (List (List F × List (List F))) :=
  (trees.zip proofs).mapM fun t => do
    let entry ← t.1[i]?
    let proof ← t.2[i]?
    return (entry.2.1, proof)

/-- The loop of `compress` over the queries with their numbers: the first query of an index enters
the maps. -/
def insertQuery (arities : List ℕ) (initialTrees : List (List (ℕ × List F × List (List F))))
    (initialTreesProofs : List (List (List (List F)))) (steps : List (List (ℕ × FriQueryStep F)))
    (stepsProofs : List (List (List (List F))))
    (maps : List (ℕ × List (List F × List (List F))) × List (List (ℕ × FriQueryStep F)))
    (q : ℕ × ℕ) :
    Option (List (ℕ × List (List F × List (List F))) × List (List (ℕ × FriQueryStep F))) := do
  let initialProof ← initialProofAt q.2 initialTrees initialTreesProofs
  let steps ← insertSteps q.2 arities steps stepsProofs maps.2 q.1
  return (orInsert maps.1 q.1 initialProof, steps)

/-- `FriProof::compress`. -/
def CommonCircuitData.compressFriProof (c : CommonCircuitData) (indices : List ℕ)
    (proof : FriProof F) : Option (CompressedFriProof F) := do
  let first ← proof.queryRoundProofs.head?
  let numInitialTrees := first.initialTreesProof.length
  let numReductions := c.reductionArityBits.length
  let queries := indices.zip proof.queryRoundProofs
  let initialTrees ← pushed numInitialTrees (queries.map fun q =>
    q.2.initialTreesProof.map fun p => (q.1, p))
  let steps ← pushed numReductions (← queries.mapM fun q =>
    removeInferred c.reductionArityBits q.2.steps q.1)
  let initialTreesProofs ← initialTrees.mapM fun tree =>
    compressMerkleProofs c.capHeight (tree.map (·.1)) (tree.map (·.2.2))
  let stepsProofs ← steps.mapM fun tree =>
    compressMerkleProofs c.capHeight (tree.map (·.1)) (tree.map (·.2.merkleProof))
  let maps ← indices.zipIdx.foldlM
    (insertQuery c.reductionArityBits initialTrees initialTreesProofs steps stepsProofs)
    ([], List.replicate numReductions [])
  return { commitPhaseMerkleCaps := proof.commitPhaseMerkleCaps
           queryRoundProofs := { indices, initialTreesProofs := maps.1, steps := maps.2 }
           finalPoly := proof.finalPoly
           powWitness := proof.powWitness }

end Compress

/-- The loop of `get_inferred_elements` over the reductions of a query, with the indices that were
seen at every depth. -/
def inferredSteps : List ℕ → List QuadraticExtension →
    List (List (ℕ × FriQueryStep GoldilocksField)) → List (List ℕ) → ℕ → GoldilocksField →
    QuadraticExtension → Option (List QuadraticExtension × List (List ℕ))
  | arityBits :: arities, betas, m :: maps, seen :: depths, xIndex, subgroupX, oldEval => do
    let cosetIndex := xIndex >>> arityBits
    if cosetIndex ∈ seen then return ([], seen :: depths)
    else
      let step ← m.lookup cosetIndex
      let xIndexWithinCoset := xIndex &&& (1 <<< arityBits - 1)
      guard (xIndexWithinCoset ≤ step.evals.length)
      let evals := (step.evals.map extensionOf).insertIdx xIndexWithinCoset oldEval
      let beta ← betas.head?
      let eval ← computeEvaluation subgroupX xIndexWithinCoset arityBits evals beta
      let (inferred, depths) ← inferredSteps arities betas.tail maps depths cosetIndex
        (squareTimes arityBits subgroupX) eval
      return (oldEval :: inferred, (cosetIndex :: seen) :: depths)
  | [], _, _, depths, _, _, _ => some ([], depths)
  | _, _, _, _, _, _, _ => none

/-- The loop of `get_inferred_elements` over the queries. -/
def CommonCircuitData.inferredRounds (c : CommonCircuitData) (i : FriInstance c)
    (precomputedReducedEvals : List QuadraticExtension) (challenges : FriChallenges)
    (rounds : CompressedFriQueryRounds GoldilocksField) :
    List ℕ → List (List ℕ) → Option (List QuadraticExtension)
  | [], _ => some []
  | xIndex :: indices, depths => do
    let subgroupX : GoldilocksField :=
      7 * primitiveRootOfUnity c.ldeBits ^ reverseBits xIndex c.ldeBits
    let initialProof ← rounds.initialTreesProofs.lookup xIndex
    let oldEval ← c.friCombineInitial i initialProof challenges.friAlpha subgroupX
      precomputedReducedEvals
    let (inferred, depths) ← inferredSteps c.reductionArityBits challenges.friBetas rounds.steps
      depths xIndex subgroupX oldEval
    let rest ← inferredRounds c i precomputedReducedEvals challenges rounds indices depths
    return inferred ++ rest

/-- `get_inferred_elements`. -/
def CommonCircuitData.inferredElements (c : CommonCircuitData) (i : FriInstance c)
    (openings : List (List QuadraticExtension)) (challenges : FriChallenges)
    (proof : CompressedFriProof GoldilocksField) : Option (List QuadraticExtension) :=
  c.inferredRounds i (reducedOpenings openings challenges.friAlpha) challenges
    proof.queryRoundProofs challenges.friQueryIndices
    (List.replicate c.reductionArityBits.length [])

/-- What is pushed of a query for every tree: the index, the data of the leaf and the compressed
proof. -/
abbrev TreeRow := ℕ × List GoldilocksField × List (List GoldilocksField)

/-- The loop of `decompress` over the reductions of a query, with the evaluations that were
reconstructed at every depth and the inferred elements that are left. -/
def insertInferred : List ℕ → List (List (ℕ × FriQueryStep GoldilocksField)) →
    List (List (ℕ × List (GoldilocksField × GoldilocksField))) → List QuadraticExtension → ℕ →
    Option (List TreeRow × List (List (ℕ × List (GoldilocksField × GoldilocksField))) ×
      List QuadraticExtension)
  | arityBits :: arities, m :: maps, evalsByIndex :: depths, inferred, index => do
    let indexWithinCoset := index &&& (1 <<< arityBits - 1)
    let index := index >>> arityBits
    let step ← m.lookup index
    let (evals, evalsByIndex, inferred) ← match evalsByIndex.lookup index with
      | some evals => some (evals, evalsByIndex, inferred)
      | none => do
        let element ← inferred.head?
        guard (indexWithinCoset ≤ step.evals.length)
        let evals := step.evals.insertIdx indexWithinCoset (pairOf element)
        some (evals, (index, evals) :: evalsByIndex, inferred.tail)
    let (rest, depths, inferred) ← insertInferred arities maps depths inferred index
    return ((index, flatten (evals.map extensionOf), step.merkleProof) :: rest,
      evalsByIndex :: depths, inferred)
  | [], _, depths, inferred, _ => some ([], depths, inferred)
  | _, _, _, _, _ => none

/-- The loop of `decompress` over the queries. -/
def decompressRows (arities : List ℕ) (rounds : CompressedFriQueryRounds GoldilocksField) :
    List ℕ → List (List (ℕ × List (GoldilocksField × GoldilocksField))) →
    List QuadraticExtension → Option (List (List TreeRow × List TreeRow))
  | [], _, _ => some []
  | index :: indices, depths, inferred => do
    let initialTreesProof ← rounds.initialTreesProofs.lookup index
    let (steps, depths, inferred) ← insertInferred arities rounds.steps depths inferred index
    let rest ← decompressRows arities rounds indices depths inferred
    return (initialTreesProof.map fun p => (index, p), steps) :: rest

/-- `decompress_merkle_proofs` for the rows of a tree. -/
def decompressTree (permute : (Fin 12 → GoldilocksField) → Fin 12 → GoldilocksField)
    (height capHeight : ℕ) (tree : List TreeRow) : Option (List (List (List GoldilocksField))) := do
  let proofs ← decompressMerkleProofs (hashOrNoop permute) (compress permute) (tree.map (·.2.1))
    (tree.map (·.1)) (tree.map (·.2.2.map hashOf)) height capHeight
  return proofs.map proofOf

/-- The query round with number `i`, from the rows of the trees and their proofs. -/
def queryRoundAt (i : ℕ)
    (initialTrees steps : List (List TreeRow × List (List (List GoldilocksField)))) :
    Option (FriQueryRound GoldilocksField) := do
  let initialTreesProof ← initialTrees.mapM fun t => do
    let row ← t.1[i]?
    let proof ← t.2[i]?
    return (row.2.1, proof)
  let steps ← steps.mapM fun t => do
    let row ← t.1[i]?
    let merkleProof ← t.2[i]?
    return { evals := unflatten row.2.1, merkleProof }
  return { initialTreesProof, steps }

/-- `CompressedFriProof::decompress`. -/
def CommonCircuitData.decompressFriProof (c : CommonCircuitData)
    (permute : (Fin 12 → GoldilocksField) → Fin 12 → GoldilocksField) (indices : List ℕ)
    (inferred : List QuadraticExtension) (proof : CompressedFriProof GoldilocksField) :
    Option (FriProof GoldilocksField) := do
  let first ← proof.queryRoundProofs.initialTreesProofs.head?
  let numInitialTrees := first.2.length
  let numReductions := c.reductionArityBits.length
  let height := c.ldeBits
  let heights := (c.reductionArityBits.scanl (· - ·) height).tail
  let rows ← decompressRows c.reductionArityBits proof.queryRoundProofs indices
    (List.replicate numReductions []) inferred
  let initialTrees ← pushed numInitialTrees (rows.map (·.1))
  let steps ← pushed numReductions (rows.map (·.2))
  let initialTreesProofs ← initialTrees.mapM (decompressTree permute height c.capHeight)
  let stepsProofs ← (steps.zip heights).mapM fun t => decompressTree permute t.2 c.capHeight t.1
  let queryRoundProofs ← (List.range indices.length).mapM fun i =>
    queryRoundAt i (initialTrees.zip initialTreesProofs) (steps.zip stepsProofs)
  return { commitPhaseMerkleCaps := proof.commitPhaseMerkleCaps
           queryRoundProofs
           finalPoly := proof.finalPoly
           powWitness := proof.powWitness }

/-- `fri_challenges` for the parts of a compressed proof. -/
def Host.compressedFriChallenges
    (permute : (Fin 12 → GoldilocksField) → Fin 12 → GoldilocksField) (c : CommonCircuitData)
    (proof : CompressedFriProof GoldilocksField)
    (t : Challenger GoldilocksField × List (Event GoldilocksField)) : FriChallenges :=
  (Host.friChallenges permute c
    { commitPhaseMerkleCaps := proof.commitPhaseMerkleCaps
      queryRoundProofs := []
      finalPoly := proof.finalPoly
      powWitness := proof.powWitness } t).1

end MegaZK
