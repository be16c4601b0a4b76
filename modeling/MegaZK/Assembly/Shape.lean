import MegaZK.Assembly.Basic

/-! # The shape of a proof

The sizes that `GpuProverSetup::new` derives from the circuit, the proof that the first prove
assembles from buffers of these sizes, and the shape checks of the verifier. -/

namespace MegaZK

variable {F : Type}

/-- The parts of `CommonCircuitData` and its configuration that sizes depend on. The fields that
are propositions are checked while a circuit is built: the FRI reductions stop above the cap, the
setup takes `log2_strict` of the quotient degree factor, the public input gate connects four
wires, and the root table of the largest FFT exists. -/
structure CommonCircuitData where
  numWires : ℕ
  numRoutedWires : ℕ
  numChallenges : ℕ
  maxQuotientDegreeFactor : ℕ
  zeroKnowledge : Bool
  rateBits : ℕ
  capHeight : ℕ
  numQueryRounds : ℕ
  degreeBits : ℕ
  reductionArityBits : List ℕ
  numConstants : ℕ
  numPublicInputs : ℕ
  numLookupPolys : ℕ
  arities_le : reductionArityBits.sum + capHeight ≤ degreeBits + rateBits
  quotientDegree_pow : ∃ k, maxQuotientDegreeFactor = 2 ^ k
  four_le_routed : 4 ≤ numRoutedWires
  lde_le : degreeBits + rateBits ≤ 32

/-! The standard sizes meet these conditions. -/

lemma standardQuotientDegree : ∃ k, 8 = 2 ^ k := ⟨3, rfl⟩

lemma standardRoutedWires : 4 ≤ 80 := by decide

lemma standardArities : [4, 4].sum + 4 ≤ 12 + 3 := by decide

lemma standardLde : 12 + 3 ≤ 32 := by decide

namespace CommonCircuitData

variable (c : CommonCircuitData)

def quotientDegreeFactor : ℕ := c.maxQuotientDegreeFactor

/-- `num_partial_products`. -/
def numPartialProducts : ℕ :=
  (c.numRoutedWires + c.quotientDegreeFactor - 1) / c.quotientDegreeFactor - 1

def numZsPartialProductsPolys : ℕ := c.numChallenges * (1 + c.numPartialProducts)

def numAllLookupPolys : ℕ := c.numChallenges * c.numLookupPolys

def numQuotientPolys : ℕ := c.numChallenges * c.quotientDegreeFactor

/-- `lde_bits`. -/
def ldeBits : ℕ := c.degreeBits + c.rateBits

/-- `final_poly_len`: the subtraction wraps, and the shift uses the low bits of its amount. -/
def finalPolyLen : ℕ :=
  1 <<< ((c.degreeBits + 2 ^ 64 - c.reductionArityBits.sum) % 2 ^ 64 % 64)

/-! ### Setup -/

/-- The polynomial counts of the layout. -/
def counts : PolyCounts where
  numConstSigmas := c.numConstants + c.numRoutedWires
  numWires := c.numWires
  numPartialProducts := c.numRoutedWires / c.maxQuotientDegreeFactor * c.numChallenges
  numQuotients := c.maxQuotientDegreeFactor * c.numChallenges

/-- `proof_assembly_config`. -/
def assemblyConfig : ProofAssemblyConfig where
  numPublicInputs := c.numPublicInputs
  numConstants := c.numConstants
  numRoutedWires := c.numRoutedWires
  numChallenges := c.numChallenges
  degreeBits := c.degreeBits
  rateBits := c.rateBits
  capHeight := c.capHeight
  numQueryRounds := c.numQueryRounds
  reductionArityBits := c.reductionArityBits

end CommonCircuitData

/-- What the kernels of a prove leave in the buffers. -/
structure ProofCells (F : Type) where
  publicInputs : ℕ → F
  wiresTree : ℕ → F
  partialProductsTree : ℕ → F
  quotientsTree : ℕ → F
  roundTrees : ℕ → ℕ → F
  initialLeaves : PolySegment → ℕ → F
  initialSiblings : ℕ → F
  openings : ℕ → F
  finalCoefficients : ℕ → F
  stepEvaluations : ℕ → F
  stepSiblings : ℕ → F
  powWitness : F

/-- The buffers of `GpuProverSetup::new`, with the caps pushed by the FRI rounds. -/
def CommonCircuitData.assemblyBuffers (c : CommonCircuitData) (cells : ProofCells F)
    (caps : List (List (List F))) : ProofAssemblyBuffers F :=
  let g := c.assemblyConfig.friGeometry
  { friInitialLeaves := fun seg => ⟨c.counts.count seg * c.numQueryRounds, cells.initialLeaves seg⟩
    openings := ⟨extensionDegree * (c.counts.numPolys + c.numChallenges), cells.openings⟩
    friFinalCoefficients := ⟨g.leavesLen, cells.finalCoefficients⟩
    friStepEvaluations := ⟨extensionDegree * g.aritySum * c.numQueryRounds, cells.stepEvaluations⟩
    friStepSiblings := ⟨4 * g.totalStepSiblings * c.numQueryRounds, cells.stepSiblings⟩
    friInitialSiblings :=
      ⟨4 * 4 * (c.degreeBits + c.rateBits - c.capHeight) * c.numQueryRounds,
        cells.initialSiblings⟩
    friCommitPhaseCaps := caps
    friPowWitness := cells.powWitness }

/-- `copy_w_offset` runs one thread per element of the cap in a single block; a larger block is
a launch error, which is unwrapped. -/
def copyCap (tree : DeviceBuffer F) (capHeight : ℕ) : Option (List (List F)) :=
  if capLen capHeight ≤ maxThreadsPerBlock then some (assembleCap tree capHeight) else none

/-! ### The proof -/

structure Proof (F : Type) where
  wiresCap : List (List F)
  plonkZsPartialProductsCap : List (List F)
  quotientPolysCap : List (List F)
  openings : OpeningSet F
  openingProof : FriProof F

structure ProofWithPublicInputs (F : Type) where
  proof : Proof F
  publicInputs : List F

namespace CommonCircuitData

variable (c : CommonCircuitData) (cells : ProofCells F)

/-- The caps of `fri_committed_trees`. After the rounds it reads the coefficients of round
`num_arity - 1`. -/
def friCommittedTrees : Option (List (List (List F))) := do
  let parts := friCommitPartLensFrom ((8 * 2 ^ c.degreeBits) <<< c.rateBits)
    ((2 ^ c.degreeBits * extensionDegree) <<< c.rateBits) c.reductionArityBits
  let caps ← parts.zipIdx.mapM fun p => copyCap ⟨p.1.digestsLen, cells.roundTrees p.2⟩ c.capHeight
  if c.reductionArityBits = [] then none else some caps

/-- The proof of the first prove. -/
def firstProof : Option (ProofWithPublicInputs F) := do
  let caps ← c.friCommittedTrees cells
  let b := c.assemblyBuffers cells caps
  let treeLen := (8 * 2 ^ c.degreeBits) <<< c.rateBits
  let wiresCap ← copyCap ⟨treeLen, cells.wiresTree⟩ c.capHeight
  let plonkZsPartialProductsCap ← copyCap ⟨treeLen, cells.partialProductsTree⟩ c.capHeight
  let quotientPolysCap ← copyCap ⟨treeLen, cells.quotientsTree⟩ c.capHeight
  let openings ← getOpeningSet c.counts c.assemblyConfig b.openings
  let openingProof ← b.getFriProof c.counts c.assemblyConfig
  pure
    { proof := { wiresCap, plonkZsPartialProductsCap, quotientPolysCap, openings, openingProof }
      publicInputs := (List.range c.numPublicInputs).map cells.publicInputs }

end CommonCircuitData

/-! ### The checks of the verifier -/

/-- `ensure!`. -/
def ensure (p : Prop) [Decidable p] (msg : String) : Except String Unit :=
  if p then .ok () else .error msg

/-- `MerkleCap::height`, with the assertion of `log2_strict`. -/
def merkleCapHeight (cap : List (List F)) : Except String ℕ :=
  if cap.length = 2 ^ cap.length.log2 then .ok cap.length.log2
  else .error s!"Not a power of two: {cap.length}"

/-- The check of a cap. -/
def ensureCapHeight (cap : List (List F)) (capHeight : ℕ) (msg : String) :
    Except String Unit := do
  let height ← merkleCapHeight cap
  ensure (height = capHeight) msg

/-- `SALT_SIZE`. -/
def saltSize (salted : Bool) : ℕ := if salted then 4 else 0

/-- `FriOracleInfo`. -/
structure FriOracleInfo where
  numPolys : ℕ
  blinding : Bool

namespace CommonCircuitData

variable (c : CommonCircuitData)

/-- `fri_oracles`. -/
def friOracles : List FriOracleInfo :=
  [⟨c.numConstants + c.numRoutedWires, false⟩,
    ⟨c.numWires, true⟩,
    ⟨c.numZsPartialProductsPolys + c.numAllLookupPolys, true⟩,
    ⟨c.numQuotientPolys, true⟩]

/-- `validate_proof_shape`. -/
def validateProofShape (p : Proof F) : Except String Unit := do
  let o := p.openings
  ensureCapHeight p.wiresCap c.capHeight "wires_cap.height() == cap_height"
  ensureCapHeight p.plonkZsPartialProductsCap c.capHeight
    "plonk_zs_partial_products_cap.height() == cap_height"
  ensureCapHeight p.quotientPolysCap c.capHeight "quotient_polys_cap.height() == cap_height"
  ensure (o.constants.length = c.numConstants) "constants.len() == common_data.num_constants"
  ensure (o.plonkSigmas.length = c.numRoutedWires)
    "plonk_sigmas.len() == config.num_routed_wires"
  ensure (o.wires.length = c.numWires) "wires.len() == config.num_wires"
  ensure (o.plonkZs.length = c.numChallenges) "plonk_zs.len() == config.num_challenges"
  ensure (o.plonkZsNext.length = c.numChallenges) "plonk_zs_next.len() == config.num_challenges"
  ensure (o.partialProducts.length = c.numChallenges * c.numPartialProducts)
    "partial_products.len() == config.num_challenges * common_data.num_partial_products"
  ensure (o.quotientPolys.length = c.numQuotientPolys)
    "quotient_polys.len() == common_data.num_quotient_polys()"
  ensure (o.lookupZs.length = c.numAllLookupPolys)
    "lookup_zs.len() == common_data.num_all_lookup_polys()"
  ensure (o.lookupZsNext.length = c.numAllLookupPolys)
    "lookup_zs_next.len() == common_data.num_all_lookup_polys()"

/-- `validate_proof_with_pis_shape`. -/
def validateProofWithPisShape (p : ProofWithPublicInputs F) : Except String Unit := do
  c.validateProofShape p.proof
  ensure (p.publicInputs.length = c.numPublicInputs)
    "Number of public inputs doesn't match circuit data."

/-- The loop over the reduction steps of a query, with the length of the codeword. -/
def validateSteps : ℕ → List (FriQueryStep F × ℕ) → Except String Unit
  | _, [] => .ok ()
  | codewordLenBits, (step, arityBits) :: rest => do
    let codewordLenBits := codewordLenBits - arityBits
    ensure (step.evals.length = 1 <<< arityBits) "evals.len() == arity"
    ensure (step.merkleProof.length + c.capHeight = codewordLenBits)
      "merkle_proof.len() + cap_height == codeword_len_bits"
    validateSteps codewordLenBits rest

/-- The checks of one query round. -/
def validateQueryRound (r : FriQueryRound F) : Except String Unit := do
  ensure (r.initialTreesProof.length = c.friOracles.length)
    "initial_trees_proof.evals_proofs.len() == instance.oracles.len()"
  (r.initialTreesProof.zip c.friOracles).forM fun po => do
    ensure (po.1.1.length = po.2.numPolys + saltSize (po.2.blinding && c.zeroKnowledge))
      "leaf.len() == oracle.num_polys + salt_size(oracle.blinding && params.hiding)"
    ensure (po.1.2.length + c.capHeight = c.ldeBits)
      "merkle_proof.len() + cap_height == params.lde_bits()"
  ensure (r.steps.length = c.reductionArityBits.length)
    "steps.len() == params.reduction_arity_bits.len()"
  c.validateSteps c.ldeBits (r.steps.zip c.reductionArityBits)

/-- `validate_fri_proof_shape`. -/
def validateFriProofShape (p : FriProof F) : Except String Unit := do
  p.commitPhaseMerkleCaps.forM fun cap =>
    ensureCapHeight cap c.capHeight "cap.height() == cap_height"
  p.queryRoundProofs.forM c.validateQueryRound
  ensure (p.finalPoly.length = c.finalPolyLen) "final_poly.len() == params.final_poly_len()"

/-- The first prove yields a proof, and it passes both shape checks. -/
def FirstProofPasses (cells : ProofCells F) : Prop :=
  ∃ p, c.firstProof cells = some p ∧ c.validateProofWithPisShape p = .ok () ∧
    c.validateFriProofShape p.proof.openingProof = .ok ()

end CommonCircuitData

end MegaZK
