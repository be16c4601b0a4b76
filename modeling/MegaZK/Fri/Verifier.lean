import MegaZK.Assembly.Shape
import MegaZK.Field.Interpolation
import MegaZK.Field.QuadraticField
import MegaZK.Fri.CommittedTrees
import MegaZK.Fri.Pow
import MegaZK.Fri.ProveOpenings
import MegaZK.Query.Leaves

/-! # The verifier of FRI proofs

`verify_fri_proof`: the shape of the proof, the proof of work, and the query rounds, each of which
starts from the opened values and follows the foldings down to the final polynomial. `none` is a
panic. -/

namespace MegaZK

open Horner PolynomialCoeffs
open scoped QuadraticField

/-! ### What is verified -/

/-- `FriPolynomialInfo`. -/
structure FriPolynomialInfo where
  oracleIndex : ℕ
  polynomialIndex : ℕ

/-- `FriBatchInfo`. -/
structure FriBatchInfo where
  point : QuadraticExtension
  polynomials : List FriPolynomialInfo

/-- `FriChallenges`. -/
structure FriChallenges where
  friAlpha : QuadraticExtension
  friBetas : List QuadraticExtension
  friPowResponse : GoldilocksField
  friQueryIndices : List ℕ

/-- The parameters of a FRI proof that the circuit does not give. -/
structure FriInstance (c : CommonCircuitData) where
  proofOfWorkBits : ℕ
  batches : List FriBatchInfo

/-- An element of the extension in a proof. -/
def extensionOf (e : GoldilocksField × GoldilocksField) : QuadraticExtension := ⟨e.1, e.2⟩

/-- A hash in a proof. -/
def hashOf (elements : List GoldilocksField) : HashOut GoldilocksField := fun j => elements.getD j 0

/-! ### Source -/

/-- What the verifier computes: a panic, an error, or a value. -/
abbrev Verification (α : Type) := ExceptT String Option α

namespace Verification

/-- A value that may panic. -/
def unwrap {α : Type} (x : Option α) : Verification α := ExceptT.mk (x.map .ok)

end Verification

open Verification

/-- `compute_evaluation`. -/
def computeEvaluation (x : GoldilocksField) (xIndexWithinCoset arityBits : ℕ)
    (evals : List QuadraticExtension) (beta : QuadraticExtension) : Option QuadraticExtension := do
  let arity := 1 <<< arityBits
  let g : GoldilocksField := primitiveRootOfUnity arityBits
  let evals ← reverseIndexBitsInPlace evals
  let revXIndexWithinCoset := reverseBits xIndexWithinCoset arityBits
  let cosetStart := x * g ^ (arity - revXIndexWithinCoset)
  let points := evals.zipIdx.map fun e => ((.C (cosetStart * g ^ e.2) : QuadraticExtension), e.1)
  let weights ← barycentricWeights points
  interpolate points beta weights

/-- `ReducingFactor::reduce`. -/
def ReducingFactor.reduce {R : Type} [CommRing R] (alpha : ReducingFactor R) (xs : List R) :
    R × ReducingFactor R :=
  xs.foldr (fun x s => (s.2.base * s.1 + x, { s.2 with count := s.2.count + 1 })) (0, alpha)

/-- `ReducingFactor::shift`. -/
def ReducingFactor.shift {R : Type} [CommRing R] (alpha : ReducingFactor R) (x : R) :
    R × ReducingFactor R :=
  (alpha.base ^ alpha.count * x, { alpha with count := 0 })

/-- `PrecomputedReducedOpenings::from_os_and_alpha`. -/
def reducedOpenings (openings : List (List QuadraticExtension)) (alpha : QuadraticExtension) :
    List QuadraticExtension :=
  openings.map fun values => (ReducingFactor.reduce ⟨alpha, 0⟩ values).1

/-- `fri_verify_proof_of_work`. -/
def friVerifyProofOfWork (friPowResponse : GoldilocksField) (proofOfWorkBits : ℕ) :
    Verification Unit :=
  ensure (Fri.minLeadingZeros proofOfWorkBits ≤ Fri.leadingZeros friPowResponse.val)
    "Invalid proof of work witness."

section Source

variable (permute : (Fin 12 → GoldilocksField) → Fin 12 → GoldilocksField)

/-- `verify_merkle_proof_to_cap` on the hashes of a proof. -/
def verifyMerkleProof (leafData : List GoldilocksField) (leafIndex : ℕ)
    (merkleCap siblings : List (List GoldilocksField)) : Verification Unit :=
  ExceptT.mk (verifyMerkleProofToCap (hashOrNoop permute) (compress permute) leafData leafIndex
    (merkleCap.map hashOf) (siblings.map hashOf))

/-- `fri_verify_initial_proof`. -/
def friVerifyInitialProof (xIndex : ℕ)
    (proof : List (List GoldilocksField × List (List GoldilocksField)))
    (initialMerkleCaps : List (List (List GoldilocksField))) : Verification Unit :=
  (proof.zip initialMerkleCaps).forM fun p =>
    verifyMerkleProof permute p.1.1 xIndex p.2 p.1.2

namespace CommonCircuitData

variable (c : CommonCircuitData)

/-- `unsalted_eval`, with the salt that the oracle has under `params.hiding`. -/
def unsaltedEval (proof : List (List GoldilocksField × List (List GoldilocksField)))
    (p : FriPolynomialInfo) : Option GoldilocksField := do
  let oracle ← c.friOracles[p.oracleIndex]?
  let salted := c.zeroKnowledge && oracle.blinding
  let evals ← proof[p.oracleIndex]?
  let unsalted ← sliceRange evals.1 0 (evals.1.length - saltSize salted)
  unsalted[p.polynomialIndex]?

/-- The loop of `fri_combine_initial` over the batches. -/
def combineBatches (proof : List (List GoldilocksField × List (List GoldilocksField)))
    (subgroupX : QuadraticExtension) :
    List (FriBatchInfo × QuadraticExtension) → ReducingFactor QuadraticExtension →
      QuadraticExtension → Option QuadraticExtension
  | [], _, sum => some sum
  | (batch, reducedOpening) :: rest, alpha, sum => do
    let evals ← batch.polynomials.mapM (c.unsaltedEval proof)
    let (reducedEvals, alpha) := alpha.reduce (evals.map .C)
    let numerator := reducedEvals - reducedOpening
    let (sum, alpha) := alpha.shift sum
    let inverseDenominator ← tryInverse (subgroupX - batch.point)
    combineBatches proof subgroupX rest alpha (sum + numerator * inverseDenominator)

/-- `fri_combine_initial`. -/
def friCombineInitial (i : FriInstance c)
    (proof : List (List GoldilocksField × List (List GoldilocksField)))
    (alpha : QuadraticExtension) (subgroupX : GoldilocksField)
    (precomputedReducedEvals : List QuadraticExtension) : Option QuadraticExtension :=
  c.combineBatches proof (.C subgroupX) (i.batches.zip precomputedReducedEvals) ⟨alpha, 0⟩ 0

end CommonCircuitData

/-- The loop over the reductions, with their numbers, down to the final polynomial. -/
def verifyReductions (challenges : FriChallenges) (proof : FriProof GoldilocksField)
    (round : FriQueryRound GoldilocksField) :
    List (ℕ × ℕ) → ℕ → GoldilocksField → QuadraticExtension → Verification Unit
  | [], _, subgroupX, oldEval =>
    let finalPoly := proof.finalPoly.map extensionOf
    ensure (horner (finalPoly.getD · 0) finalPoly.length (.C subgroupX) = oldEval)
      "Final polynomial evaluation is invalid."
  | (arityBits, i) :: rest, xIndex, subgroupX, oldEval => do
    let arity := 1 <<< arityBits
    let step ← unwrap round.steps[i]?
    let evals := step.evals.map extensionOf
    let cosetIndex := xIndex >>> arityBits
    let xIndexWithinCoset := xIndex &&& (arity - 1)
    let eval ← unwrap evals[xIndexWithinCoset]?
    ensure (eval = oldEval) "evals[x_index_within_coset] == old_eval"
    let beta ← unwrap challenges.friBetas[i]?
    let oldEval ← unwrap (computeEvaluation subgroupX xIndexWithinCoset arityBits evals beta)
    let cap ← unwrap proof.commitPhaseMerkleCaps[i]?
    verifyMerkleProof permute (flatten evals) cosetIndex cap step.merkleProof
    verifyReductions challenges proof round rest cosetIndex (squareTimes arityBits subgroupX)
      oldEval

namespace CommonCircuitData

variable (c : CommonCircuitData)

/-- `fri_verifier_query_round`. -/
def friVerifierQueryRound (i : FriInstance c) (challenges : FriChallenges)
    (precomputedReducedEvals : List QuadraticExtension)
    (initialMerkleCaps : List (List (List GoldilocksField))) (proof : FriProof GoldilocksField)
    (xIndex : ℕ) (round : FriQueryRound GoldilocksField) : Verification Unit := do
  friVerifyInitialProof permute xIndex round.initialTreesProof initialMerkleCaps
  let subgroupX : GoldilocksField :=
    7 * primitiveRootOfUnity c.ldeBits ^ reverseBits xIndex c.ldeBits
  let oldEval ← unwrap (c.friCombineInitial i round.initialTreesProof challenges.friAlpha subgroupX
    precomputedReducedEvals)
  verifyReductions permute challenges proof round c.reductionArityBits.zipIdx xIndex subgroupX
    oldEval

/-- `verify_fri_proof`. -/
def verifyFriProof (i : FriInstance c) (openings : List (List QuadraticExtension))
    (challenges : FriChallenges) (initialMerkleCaps : List (List (List GoldilocksField)))
    (proof : FriProof GoldilocksField) : Verification Unit := do
  c.validateFriProofShape proof
  friVerifyProofOfWork challenges.friPowResponse i.proofOfWorkBits
  ensure (c.numQueryRounds = proof.queryRoundProofs.length)
    "Number of query rounds does not match config."
  let precomputedReducedEvals := reducedOpenings openings challenges.friAlpha
  (challenges.friQueryIndices.zip proof.queryRoundProofs).forM fun q =>
    c.friVerifierQueryRound permute i challenges precomputedReducedEvals initialMerkleCaps proof
      q.1 q.2

end CommonCircuitData

end Source

end MegaZK
