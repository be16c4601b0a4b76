import MegaZK.Assembly.Basic
import MegaZK.Challenger.Tracking
import MegaZK.Lib.Relational

/-! # The transcript of a proof

What the GPU orchestrator absorbs and squeezes during a prove, and what `get_challenges` absorbs
and squeezes when it is given the assembled proof. Circuits have no lookups, two challenges and
extension degree two. -/

namespace MegaZK

variable {F : Type} [Zero F] (permute : (Fin 12 → F) → Fin 12 → F)

/-- One element through the transcript. -/
inductive Event (F : Type)
  | absorbed (x : F)
  | squeezed (x : F)
  deriving DecidableEq, Repr

/-- A computation with a challenger and the log of everything absorbed and squeezed. -/
abbrev Transcript (σ F α : Type) := StateM (σ × List (Event F)) α

namespace Host

def observe (xs : List F) : Transcript (Challenger F) F Unit :=
  modify fun s => (s.1.observeElements permute xs, s.2 ++ xs.map .absorbed)

/-- Observe one group of elements after the other: the hashes of a cap, the coordinates of
extension elements. -/
def observeAll : List (List F) → Transcript (Challenger F) F Unit
  | [] => pure ()
  | xs :: xss => do
    observe permute xs
    observeAll xss

def sample (n : ℕ) : Transcript (Challenger F) F (List F) := do
  let s ← get
  let r := s.1.getNChallenges permute n
  set (r.2, s.2 ++ r.1.map .squeezed)
  pure r.1

end Host

namespace Device

/-- `observe_elements_gpu`; the log holds the elements the kernel reads. -/
def observe (elts : DeviceBuffer F) (numElts offset : ℕ) : Transcript (ChallengerGpu F) F Unit :=
  modify fun s => (s.1.observeElementsGpu permute elts numElts offset,
    s.2 ++ (((List.range (u32 numElts)).map fun i => elts.cell (u32 (i + u32 offset))).map
      .absorbed))

/-- `TranscriptStep::observe_cap`. -/
def observeCap (tree : DeviceBuffer F) (capHeight : ℕ) : Transcript (ChallengerGpu F) F Unit :=
  observe permute tree (capLen capHeight) (capOffset tree.len capHeight)

/-- `TranscriptStep::sample_into`. -/
def sampleInto (n : ℕ) : Transcript (ChallengerGpu F) F (List F) := do
  let s ← get
  let r := s.1.getNChallengesGpu permute n
  set (r.2, s.2 ++ r.1.map .squeezed)
  pure r.1

end Device

/-! ### Sizes -/

def numChallenges : ℕ := 2

/-- The sizes of a circuit that the transcript depends on. The circuit builder asserts that the
FRI reductions do not go below the cap. -/
structure CircuitShape where
  degreeBits : ℕ
  rateBits : ℕ
  capHeight : ℕ
  reductionArityBits : List ℕ
  numConstants : ℕ
  numRoutedWires : ℕ
  numWires : ℕ
  numPartialProducts : ℕ
  numQuotients : ℕ
  numQueryRounds : ℕ
  numPublicInputs : ℕ
  arities_le : reductionArityBits.sum + capHeight ≤ degreeBits + rateBits

namespace CircuitShape

variable (sh : CircuitShape)

/-- `merkle_tree_len`. -/
def merkleTreeLen : ℕ := (8 * 2 ^ sh.degreeBits) <<< sh.rateBits

def numConstSigmas : ℕ := sh.numConstants + sh.numRoutedWires

def counts : PolyCounts where
  numConstSigmas := sh.numConstSigmas
  numWires := sh.numWires
  numPartialProducts := sh.numPartialProducts
  numQuotients := sh.numQuotients

/-- `proof_assembly_config`. -/
def assemblyConfig : ProofAssemblyConfig where
  numPublicInputs := sh.numPublicInputs
  numConstants := sh.numConstants
  numRoutedWires := sh.numRoutedWires
  numChallenges := numChallenges
  degreeBits := sh.degreeBits
  rateBits := sh.rateBits
  capHeight := sh.capHeight
  numQueryRounds := sh.numQueryRounds
  reductionArityBits := sh.reductionArityBits

/-- The number of base field elements of all openings. -/
def openingsLen : ℕ := extensionDegree * (sh.counts.numPolys + numChallenges)

end CircuitShape

def CircuitShape.friCommitPartLens (sh : CircuitShape) : List FriCommitPartLens :=
  friCommitPartLensFrom ((8 * 2 ^ sh.degreeBits) <<< sh.rateBits)
    ((2 ^ sh.degreeBits * extensionDegree) <<< sh.rateBits) sh.reductionArityBits

/-- The length of the coefficient buffer of the last round. -/
def CircuitShape.finalFoldedLen (sh : CircuitShape) : ℕ :=
  (sh.friCommitPartLens.getLast?.map FriCommitPartLens.foldedLen).getD 0

/-- The number of extension coefficients of the final polynomial. -/
def CircuitShape.finalPolyLen (sh : CircuitShape) : ℕ :=
  (sh.finalFoldedLen / extensionDegree) >>> sh.rateBits

/-! ### Hashing the public inputs -/

/-- Chunk `i` of `inputs.chunks(RATE)`; the last one may be shorter. -/
def rateChunk (inputs : List F) (i : ℕ) : List F := (inputs.drop (rate * i)).take rate

/-- The absorption loop of `hash_n_to_m_no_pad`, chunk by chunk. -/
def absorbChunks (inputs : List F) : Fin 12 → F :=
  (List.range ((inputs.length + 7) / rate)).foldl
    (fun st i => permute
      (overwrite st (rateChunk inputs i).length ((rateChunk inputs i).getD · 0)))
    (fun _ => 0)

/-- `hash_n_to_hash_no_pad`: the first squeeze already holds the four elements. -/
def hashNoPad (inputs : List F) : List F :=
  (List.range 4).map (lane (absorbChunks permute inputs))

/-- The kernel `hash_pi`; `pi i` is the witness value at the `i`-th public input index. -/
def hashPi (pi : ℕ → F) (numPublicInputs : ℕ) : ℕ → F :=
  let numBlocks := u32 (numPublicInputs >>> 3)
  let numLeft := u32 (numPublicInputs - u32 (numBlocks <<< 3))
  let st := (List.range numBlocks).foldl
    (fun st i => permute (overwrite st 8 fun j => pi (u32 (j + 8 * i)))) (fun _ => 0)
  let st := if numLeft ≠ 0 then
      permute (overwrite st numLeft fun j => pi (u32 (j + 8 * numBlocks)))
    else st
  lane st

/-! ### The orchestrator -/

/-- The device buffers that enter the transcript. -/
structure ProveBuffers (F : Type) where
  circuitDigest : ℕ → F
  publicInputs : ℕ → F
  wiresTree : ℕ → F
  partialProductsTree : ℕ → F
  quotientsTree : ℕ → F
  openings : ℕ → F
  roundTrees : ℕ → ℕ → F
  finalCoefficients : ℕ → F
  powWitness : F

/-- `ProofChallenges`, with the elements sampled for the query indices. -/
structure ProofChallenges (F : Type) where
  plonkBetas : List F
  plonkGammas : List F
  plonkAlphas : List F
  plonkZeta : List F
  friAlpha : List F
  friBetas : List (List F)
  friPowResponse : List F
  friQuerySamples : List F
  deriving DecidableEq

namespace Device

/-- The loop over the FRI rounds, with the tree digests of each round. -/
def friRounds (capHeight : ℕ) :
    List (DeviceBuffer F) → Transcript (ChallengerGpu F) F (List (List F))
  | [] => pure []
  | tree :: trees => do
    observeCap permute tree capHeight
    let beta ← sampleInto permute extensionDegree
    let betas ← friRounds capHeight trees
    pure (beta :: betas)

/-- The tree digests of the FRI rounds. -/
def roundTrees (sh : CircuitShape) (b : ProveBuffers F) : List (DeviceBuffer F) :=
  sh.friCommitPartLens.zipIdx.map fun p => ⟨p.1.digestsLen, b.roundTrees p.2⟩

/-- The transcript of a prove: the circuit digest is absorbed at setup, the rest by the stages
of the orchestrator. -/
def prove (sh : CircuitShape) (b : ProveBuffers F) :
    Transcript (ChallengerGpu F) F (ProofChallenges F) := do
  observe permute ⟨4, b.circuitDigest⟩ 4 0
  observe permute ⟨4, hashPi permute b.publicInputs sh.numPublicInputs⟩ 4 0
  observeCap permute ⟨sh.merkleTreeLen, b.wiresTree⟩ sh.capHeight
  let plonkBetas ← sampleInto permute numChallenges
  let plonkGammas ← sampleInto permute numChallenges
  observeCap permute ⟨sh.merkleTreeLen, b.partialProductsTree⟩ sh.capHeight
  let plonkAlphas ← sampleInto permute numChallenges
  observeCap permute ⟨sh.merkleTreeLen, b.quotientsTree⟩ sh.capHeight
  let plonkZeta ← sampleInto permute extensionDegree
  observe permute ⟨sh.openingsLen, b.openings⟩ sh.openingsLen 0
  let friAlpha ← sampleInto permute extensionDegree
  let friBetas ← friRounds permute sh.capHeight (roundTrees sh b)
  observe permute ⟨sh.finalFoldedLen, b.finalCoefficients⟩ (sh.finalFoldedLen >>> sh.rateBits) 0
  observe permute ⟨1, fun _ => b.powWitness⟩ 1 0
  let friPowResponse ← sampleInto permute 1
  let friQuerySamples ← sampleInto permute sh.numQueryRounds
  pure { plonkBetas, plonkGammas, plonkAlphas, plonkZeta, friAlpha, friBetas, friPowResponse,
         friQuerySamples }

end Device

/-! ### The assembled proof -/

/-- The parts of a proof that `get_challenges` reads. A cap is a list of hashes. -/
structure TranscriptProof (F : Type) where
  publicInputs : List F
  wiresCap : List (List F)
  plonkZsPartialProductsCap : List (List F)
  quotientPolysCap : List (List F)
  openings : OpeningSet F
  commitPhaseMerkleCaps : List (List (List F))
  finalPoly : List (F × F)
  powWitness : F

/-- `get_final_proof`, as far as the transcript reads it. -/
def assembleProof (sh : CircuitShape) (b : ProveBuffers F) : Option (TranscriptProof F) := do
  let openings ← getOpeningSet sh.counts sh.assemblyConfig ⟨sh.openingsLen, b.openings⟩
  pure
    { publicInputs := (List.range sh.numPublicInputs).map b.publicInputs
      wiresCap := assembleCap ⟨sh.merkleTreeLen, b.wiresTree⟩ sh.capHeight
      plonkZsPartialProductsCap :=
        assembleCap ⟨sh.merkleTreeLen, b.partialProductsTree⟩ sh.capHeight
      quotientPolysCap := assembleCap ⟨sh.merkleTreeLen, b.quotientsTree⟩ sh.capHeight
      openings := openings
      commitPhaseMerkleCaps := (Device.roundTrees sh b).map (assembleCap · sh.capHeight)
      finalPoly := (extensionVec sh.finalFoldedLen b.finalCoefficients).take sh.finalPolyLen
      powWitness := b.powWitness }

/-! ### `get_challenges` -/

/-- The coordinates of extension elements. -/
def basefield (es : List (F × F)) : List (List F) := es.map fun e => [e.1, e.2]

namespace Host

def observeOpenings : List (List (F × F)) → Transcript (Challenger F) F Unit
  | [] => pure ()
  | batch :: batches => do
    observeAll permute (basefield batch)
    observeOpenings batches

def friBetas : List (List (List F)) → Transcript (Challenger F) F (List (List F))
  | [] => pure []
  | cap :: caps => do
    observeAll permute cap
    let beta ← sample permute extensionDegree
    let betas ← friBetas caps
    pure (beta :: betas)

/-- `get_challenges` on a proof, with the circuit digest from the verifier data. -/
def getChallenges (sh : CircuitShape) (circuitDigest : List F) (p : TranscriptProof F) :
    Transcript (Challenger F) F (ProofChallenges F) := do
  observe permute circuitDigest
  observe permute (hashNoPad permute p.publicInputs)
  observeAll permute p.wiresCap
  let plonkBetas ← sample permute numChallenges
  let plonkGammas ← sample permute numChallenges
  observeAll permute p.plonkZsPartialProductsCap
  let plonkAlphas ← sample permute numChallenges
  observeAll permute p.quotientPolysCap
  let plonkZeta ← sample permute extensionDegree
  observeOpenings permute p.openings.toFriOpenings
  let friAlpha ← sample permute extensionDegree
  let friBetas ← friBetas permute p.commitPhaseMerkleCaps
  observeAll permute (basefield p.finalPoly)
  observe permute [p.powWitness]
  let friPowResponse ← sample permute 1
  let friQuerySamples ← sample permute sh.numQueryRounds
  pure { plonkBetas, plonkGammas, plonkAlphas, plonkZeta, friAlpha, friBetas, friPowResponse,
         friQuerySamples }

end Host

end MegaZK
