import MegaZK.Fri.Verifier
import MegaZK.Merkle.Proofs

/-! # The prover of FRI proofs

`PolynomialBatch::from_coeffs` commits to polynomials, and `prove_openings` reduces the openings of
several such batches to one polynomial, commits to its foldings, grinds, and answers the queries. -/

namespace MegaZK

open Horner PolynomialCoeffs
open scoped QuadraticField

/-! ### Commitments -/

/-- `to_extension` and `eval`. -/
def evalExtension {F : Type} [CommRing F] (z : ExtensionField F) (p : List F) : ExtensionField F :=
  p.reverse.foldl (fun acc c => acc * z + .C c) 0

/-- `PolynomialBatch`. -/
structure PolynomialBatch where
  polynomials : List (List GoldilocksField)
  merkleTree : MerkleTree GoldilocksField

/-- `lde` and `coset_fft` of a polynomial over the base field. -/
def ldeValues (rateBits : ℕ) (p : List GoldilocksField) : Option (List GoldilocksField) := do
  let len := p.length <<< rateBits
  let bits ← log2Strict len
  return (List.range len).map fun i =>
    evalSum (p.getD · 0) p.length (primitiveRootOfUnity bits ^ i * 7)

section Source

variable (permute : (Fin 12 → GoldilocksField) → Fin 12 → GoldilocksField)

/-- `PolynomialBatch::from_coeffs`; `salt` is what `rand_vec` returns for the columns of a blinded
batch. -/
def PolynomialBatch.fromCoeffs (rateBits capHeight : ℕ) (blinding : Bool)
    (salt : ℕ → ℕ → GoldilocksField) (polynomials : List (List GoldilocksField)) :
    Option PolynomialBatch := do
  let first ← polynomials.head?
  guard (∀ p ∈ polynomials, p.length = first.length)
  let n := first.length <<< rateBits
  let values ← polynomials.mapM (ldeValues rateBits)
  let salts := (List.range (saltSize blinding)).map fun s => (List.range n).map (salt s)
  let leaves ← reverseIndexBitsInPlace (← transpose (values ++ salts))
  let merkleTree ← MerkleTree.new permute leaves capHeight
  return { polynomials, merkleTree }

/-! ### Queries -/

/-- The proof of a leaf, as it is part of a FRI proof. -/
def proofOf (siblings : List (HashOut GoldilocksField)) : List (List GoldilocksField) :=
  siblings.map List.ofFn

/-- A pair of base field elements, as it is part of a FRI proof. -/
def pairOf (e : QuadraticExtension) : GoldilocksField × GoldilocksField := (e.re, e.im)

/-- `unflatten`. -/
def unflatten (l : List GoldilocksField) : List (GoldilocksField × GoldilocksField) :=
  (chunksExact 2 l).map fun c => (c.getD 0 0, c.getD 1 0)

/-- The loop of `fri_prover_query_round` over the trees of the commit phase. -/
def querySteps : List ℕ → List (MerkleTree GoldilocksField) → ℕ →
    Option (List (FriQueryStep GoldilocksField))
  | arityBits :: arities, tree :: trees, xIndex => do
    let leaf ← tree.get (xIndex >>> arityBits)
    let merkleProof ← tree.prove (xIndex >>> arityBits)
    let steps ← querySteps arities trees (xIndex >>> arityBits)
    return { evals := unflatten leaf, merkleProof := proofOf merkleProof } :: steps
  | [], _ :: _, _ => none
  | _, [], _ => some []

/-- `fri_prover_query_round`. -/
def friProverQueryRound (reductionArityBits : List ℕ)
    (initialMerkleTrees trees : List (MerkleTree GoldilocksField)) (xIndex : ℕ) :
    Option (FriQueryRound GoldilocksField) := do
  let initialTreesProof ← initialMerkleTrees.mapM fun tree => do
    let leaf ← tree.get xIndex
    let siblings ← tree.prove xIndex
    return (leaf, proofOf siblings)
  let steps ← querySteps reductionArityBits trees xIndex
  return { initialTreesProof, steps }

/-! ### Proofs -/

/-- `fri_proof_of_work`: `find_any` returned `powWitness`, and the response of the challenger is
checked. -/
def friProofOfWork (proofOfWorkBits : ℕ) (powWitness : GoldilocksField) :
    StateT (Challenger GoldilocksField × List (Event GoldilocksField)) Option Unit := do
  let response ← fun t => some ((Host.observe permute [powWitness] >>= fun _ =>
    Host.sample permute 1) t)
  guard (Fri.minLeadingZeros proofOfWorkBits ≤ Fri.leadingZeros (response.getD 0 0).val)

namespace CommonCircuitData

variable (c : CommonCircuitData)

/-- `fri_proof`. -/
def friProof (proofOfWorkBits : ℕ) (initialMerkleTrees : List (MerkleTree GoldilocksField))
    (coeffs values : List QuadraticExtension) (powWitness : GoldilocksField) :
    StateT (Challenger GoldilocksField × List (Event GoldilocksField)) Option
      (FriProof GoldilocksField) := do
  guard (coeffs.length = values.length)
  let committed ← fun t => (MegaZK.friCommittedTrees permute c.rateBits c.capHeight
    c.reductionArityBits coeffs values t).map fun r => (r, r.transcript)
  friProofOfWork permute proofOfWorkBits powWitness
  let rands ← fun t => some (Host.sample permute c.numQueryRounds t)
  let queryRoundProofs ← StateT.lift (rands.mapM fun rand =>
    friProverQueryRound c.reductionArityBits initialMerkleTrees committed.trees
      (rand.val % values.length))
  return { commitPhaseMerkleCaps := committed.trees.map fun tree => proofOf tree.cap
           queryRoundProofs
           finalPoly := committed.coeffs.map pairOf
           powWitness }

/-- The coefficients of a polynomial of an oracle. -/
def polynomialOf (oracles : List PolynomialBatch) (p : FriPolynomialInfo) :
    Option (List GoldilocksField) := do
  let oracle ← oracles[p.oracleIndex]?
  oracle.polynomials[p.polynomialIndex]?

/-- The coefficients of the polynomials of a batch. -/
def batchOf (oracles : List PolynomialBatch) (batch : FriBatchInfo) :
    Option (FriBatch GoldilocksField) := do
  let polynomials ← batch.polynomials.mapM (polynomialOf oracles)
  return { point := batch.point, polynomials }

/-- The values of the polynomials of a batch at its point. -/
def openBatch (oracles : List PolynomialBatch) (batch : FriBatchInfo) :
    Option (List QuadraticExtension) := do
  let polynomials ← batch.polynomials.mapM (polynomialOf oracles)
  return polynomials.map (evalExtension batch.point)

/-- `prove_openings`. -/
def proveOpenings (i : FriInstance c) (oracles : List PolynomialBatch)
    (powWitness : GoldilocksField) :
    StateT (Challenger GoldilocksField × List (Event GoldilocksField)) Option
      (FriProof GoldilocksField) := do
  let alpha ← fun t => some (Host.sample permute extensionDegree t)
  let batches ← StateT.lift (i.batches.mapM (batchOf oracles))
  let finalPoly := provedFinalPoly ⟨alpha.getD 0 0, alpha.getD 1 0⟩ batches
  let ldeFinalPoly := finalPoly ++ List.replicate
    ((finalPoly.length <<< c.rateBits) - finalPoly.length) 0
  let ldeFinalValues ← StateT.lift (PolynomialCoeffs.cosetFft ldeFinalPoly (.C 7))
  c.friProof permute i.proofOfWorkBits (oracles.map (·.merkleTree)) ldeFinalPoly ldeFinalValues
    powWitness

end CommonCircuitData

/-! ### Challenges -/

namespace Host

/-- The challenges of the foldings, each after its cap. -/
def foldingBetas : List (List (List GoldilocksField)) →
    Transcript (Challenger GoldilocksField) GoldilocksField (List QuadraticExtension)
  | [] => pure []
  | cap :: caps => do
    observeAll permute cap
    let beta ← sample permute extensionDegree
    let betas ← foldingBetas caps
    pure (⟨beta.getD 0 0, beta.getD 1 0⟩ :: betas)

/-- `fri_challenges`. -/
def friChallenges (c : CommonCircuitData) (proof : FriProof GoldilocksField) :
    Transcript (Challenger GoldilocksField) GoldilocksField FriChallenges := do
  let alpha ← sample permute extensionDegree
  let friBetas ← foldingBetas permute proof.commitPhaseMerkleCaps
  observeAll permute (basefield proof.finalPoly)
  observe permute [proof.powWitness]
  let response ← sample permute 1
  let samples ← sample permute c.numQueryRounds
  pure { friAlpha := ⟨alpha.getD 0 0, alpha.getD 1 0⟩
         friBetas
         friPowResponse := response.getD 0 0
         friQueryIndices := samples.map fun s => s.val % 2 ^ c.ldeBits }

end Host

end Source

end MegaZK
