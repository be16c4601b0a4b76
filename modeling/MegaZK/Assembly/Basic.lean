import Mathlib
import MegaZK.Device

/-! # Assembling a proof

`ProofAssemblyService`: the host buffers that the phases of a prove fill, and how they are cut
into the parts of a proof. A slice or an index outside a buffer panics, which is `none`. -/

namespace MegaZK

variable {F : Type}

/-- The extension degree `D`. -/
def extensionDegree : ℕ := 2

/-- `GpuPolynomialSegment`. -/
inductive PolySegment
  | constantsSigmas
  | wires
  | partialProducts
  | quotients
  deriving DecidableEq, Repr

/-- `GpuPolynomialSegment::ALL`. -/
def PolySegment.all : List PolySegment := [.constantsSigmas, .wires, .partialProducts, .quotients]

/-- The polynomial counts of `PolyLayout`. -/
structure PolyCounts where
  numConstSigmas : ℕ
  numWires : ℕ
  numPartialProducts : ℕ
  numQuotients : ℕ

namespace PolyCounts

variable (c : PolyCounts)

/-- `polynomial_count`. -/
def count : PolySegment → ℕ
  | .constantsSigmas => c.numConstSigmas
  | .wires => c.numWires
  | .partialProducts => c.numPartialProducts
  | .quotients => c.numQuotients

/-- `polynomial_offset`. -/
def offset : PolySegment → ℕ
  | .constantsSigmas => 0
  | .wires => c.numConstSigmas
  | .partialProducts => c.numConstSigmas + c.numWires
  | .quotients => c.numConstSigmas + c.numWires + c.numPartialProducts

def numPolys : ℕ := c.numConstSigmas + c.numWires + c.numPartialProducts + c.numQuotients

end PolyCounts

/-- `ProofAssemblyConfig`; the ranges of the constants and sigmas are given by their sizes. -/
structure ProofAssemblyConfig where
  numPublicInputs : ℕ
  numConstants : ℕ
  numRoutedWires : ℕ
  numChallenges : ℕ
  degreeBits : ℕ
  rateBits : ℕ
  capHeight : ℕ
  numQueryRounds : ℕ
  reductionArityBits : List ℕ

/-! ### Caps -/

/-- `TranscriptStep::cap_len`. -/
def capLen (capHeight : ℕ) : ℕ := 4 <<< capHeight

/-- `TranscriptStep::cap_offset`. -/
def capOffset (treeLen capHeight : ℕ) : ℕ := treeLen - 8 <<< capHeight

/-- The hashes of a cap, copied from a tree by `copy_w_offset`. -/
def assembleCap (tree : DeviceBuffer F) (capHeight : ℕ) : List (List F) :=
  let cap := fun j => tree.cell (u32 (u32 (capOffset tree.len capHeight) + j))
  (List.range (capLen capHeight / 4)).map fun i =>
    [cap (4 * i), cap (4 * i + 1), cap (4 * i + 2), cap (4 * i + 3)]

/-! ### FRI geometry -/

/-- `FriCommitPartLens`. -/
structure FriCommitPartLens where
  digestsLen : ℕ
  leavesLen : ℕ
  foldedLen : ℕ

/-- The loop of `fri_commit_part_lens`. -/
def friCommitPartLensFrom : ℕ → ℕ → List ℕ → List FriCommitPartLens
  | _, _, [] => []
  | digestsLen, leavesLen, arityBits :: rest =>
    let digestsLen := digestsLen >>> arityBits
    let foldedLen := leavesLen >>> arityBits
    ⟨digestsLen, leavesLen, foldedLen⟩ :: friCommitPartLensFrom digestsLen foldedLen rest

/-- The sizes that the setup walks the FRI reductions for. -/
structure FriGeometry where
  aritySum : ℕ
  totalStepSiblings : ℕ
  currentStepSiblings : ℕ
  leavesLen : ℕ

/-- The loop of `GpuProverSetup::new` over the reduction arities. -/
def ProofAssemblyConfig.friGeometry (cfg : ProofAssemblyConfig) : FriGeometry :=
  cfg.reductionArityBits.foldl
    (fun g arityBits =>
      { aritySum := g.aritySum + 1 <<< arityBits
        currentStepSiblings := g.currentStepSiblings - arityBits
        totalStepSiblings := g.totalStepSiblings + (g.currentStepSiblings - arityBits)
        leavesLen := g.leavesLen >>> arityBits })
    { aritySum := 0
      totalStepSiblings := 0
      currentStepSiblings := cfg.degreeBits + cfg.rateBits - cfg.capHeight
      leavesLen := (2 ^ cfg.degreeBits * extensionDegree) <<< cfg.rateBits }

/-! ### Openings -/

structure OpeningSet (F : Type) where
  constants : List (F × F)
  plonkSigmas : List (F × F)
  wires : List (F × F)
  plonkZs : List (F × F)
  plonkZsNext : List (F × F)
  partialProducts : List (F × F)
  quotientPolys : List (F × F)
  lookupZs : List (F × F)
  lookupZsNext : List (F × F)

/-- `v[start..stop]`, which panics outside the vector. -/
def sliceRange {α : Type} (l : List α) (start stop : ℕ) : Option (List α) :=
  if start ≤ stop ∧ stop ≤ l.length then some ((l.drop start).take (stop - start)) else none

/-- The elements of a buffer of base field elements read as extension elements. -/
def extensionVec (len : ℕ) (cell : ℕ → F) : List (F × F) :=
  (List.range (len / extensionDegree)).map fun i => (cell (2 * i), cell (2 * i + 1))

/-- `get_opening_set`. -/
def getOpeningSet (c : PolyCounts) (cfg : ProofAssemblyConfig) (openings : DeviceBuffer F) :
    Option (OpeningSet F) := do
  let openingsVec := extensionVec openings.len openings.cell
  let offset := c.offset .partialProducts
  let constants ← sliceRange openingsVec 0 cfg.numConstants
  let plonkSigmas ← sliceRange openingsVec cfg.numConstants (cfg.numConstants + cfg.numRoutedWires)
  let wires ← sliceRange openingsVec c.numConstSigmas offset
  let plonkZs ← sliceRange openingsVec offset (offset + cfg.numChallenges)
  let plonkZsNext ← sliceRange openingsVec c.numPolys openingsVec.length
  let partialProducts ←
    sliceRange openingsVec (offset + cfg.numChallenges) (offset + c.numPartialProducts)
  let quotientPolys ← sliceRange openingsVec (offset + c.numPartialProducts) c.numPolys
  pure { constants, plonkSigmas, wires, plonkZs, plonkZsNext, partialProducts, quotientPolys,
         lookupZs := [], lookupZsNext := [] }

/-- `OpeningSet::to_fri_openings`: the batch at `zeta` and the batch at the next point. -/
def OpeningSet.toFriOpenings (o : OpeningSet F) : List (List (F × F)) :=
  [o.constants ++ o.plonkSigmas ++ o.wires ++ o.plonkZs ++ o.partialProducts ++ o.quotientPolys ++
      o.lookupZs,
    o.plonkZsNext ++ o.lookupZsNext]

lemma sliceRange_eq_some {α : Type} {l x : List α} {start stop : ℕ}
    (h : sliceRange l start stop = some x) :
    start ≤ stop ∧ stop ≤ l.length ∧ l.take stop = l.take start ++ x := by
  unfold sliceRange at h
  split_ifs at h with hrange
  obtain rfl := Option.some.inj h
  refine ⟨hrange.1, hrange.2, ?_⟩
  obtain ⟨k, rfl⟩ := Nat.exists_eq_add_of_le hrange.1
  rw [Nat.add_sub_cancel_left, List.take_add]

/-- The parts of the opening set, in the order they are absorbed, are the whole vector. -/
lemma flatten_of_getOpeningSet {c : PolyCounts} {cfg : ProofAssemblyConfig}
    {openings : DeviceBuffer F} {o : OpeningSet F}
    (hsigmas : cfg.numConstants + cfg.numRoutedWires = c.numConstSigmas)
    (h : getOpeningSet c cfg openings = some o) :
    o.toFriOpenings.flatten = extensionVec openings.len openings.cell := by
  unfold getOpeningSet at h
  simp only [Option.bind_eq_bind, Option.bind_eq_some_iff, Option.pure_def,
    Option.some.injEq] at h
  obtain ⟨x₁, h₁, x₂, h₂, x₃, h₃, x₄, h₄, x₅, h₅, x₆, h₆, x₇, h₇, rfl⟩ := h
  obtain ⟨-, -, e₁⟩ := sliceRange_eq_some h₁
  obtain ⟨-, -, e₂⟩ := sliceRange_eq_some h₂
  obtain ⟨-, -, e₃⟩ := sliceRange_eq_some h₃
  obtain ⟨-, -, e₄⟩ := sliceRange_eq_some h₄
  obtain ⟨-, -, e₅⟩ := sliceRange_eq_some h₅
  obtain ⟨-, -, e₆⟩ := sliceRange_eq_some h₆
  obtain ⟨-, -, e₇⟩ := sliceRange_eq_some h₇
  rw [List.take_zero, List.nil_append] at e₁
  rw [List.take_length] at e₅
  simp only [OpeningSet.toFriOpenings, List.flatten_cons, List.flatten_nil, List.append_nil]
  rw [hsigmas] at e₂
  rw [e₅, e₇, e₆, e₄, e₃, e₂, e₁]

/-! ### The FRI proof -/

/-- A Merkle proof is the list of its sibling hashes. -/
structure FriQueryStep (F : Type) where
  evals : List (F × F)
  merkleProof : List (List F)

structure FriQueryRound (F : Type) where
  initialTreesProof : List (List F × List (List F))
  steps : List (FriQueryStep F)

structure FriProof (F : Type) where
  commitPhaseMerkleCaps : List (List (List F))
  queryRoundProofs : List (FriQueryRound F)
  finalPoly : List (F × F)
  powWitness : F

/-- `ProofAssemblyBuffers`. -/
structure ProofAssemblyBuffers (F : Type) where
  friInitialLeaves : PolySegment → DeviceBuffer F
  openings : DeviceBuffer F
  friFinalCoefficients : DeviceBuffer F
  friStepEvaluations : DeviceBuffer F
  friStepSiblings : DeviceBuffer F
  friInitialSiblings : DeviceBuffer F
  friCommitPhaseCaps : List (List (List F))
  friPowWitness : F

/-- The hash stored in four consecutive cells. -/
def DeviceBuffer.hashAt (b : DeviceBuffer F) (idx : ℕ) : Option (List F) :=
  if idx + 3 < b.len then some [b.cell idx, b.cell (idx + 1), b.cell (idx + 2), b.cell (idx + 3)]
  else none

namespace ProofAssemblyBuffers

variable (b : ProofAssemblyBuffers F) (c : PolyCounts) (cfg : ProofAssemblyConfig)

/-- The proof of query `i` in tree `r`. -/
def initialProof (i : ℕ) (r : ℕ × PolySegment) : Option (List F × List (List F)) := do
  let numLayers := cfg.degreeBits + cfg.rateBits - cfg.capHeight
  let siblings ← (List.range numLayers).mapM fun j =>
    b.friInitialSiblings.hashAt (i * 4 * 4 * numLayers + r.1 * 4 * numLayers + 4 * j)
  let leaves := (List.range (b.friInitialLeaves r.2).len).map (b.friInitialLeaves r.2).cell
  let leaf ← sliceRange leaves (i * c.count r.2) ((i + 1) * c.count r.2)
  pure (leaf, siblings)

/-- The loop over the reductions of query `i`, with the siblings and evaluations passed so far
and the siblings of the current layer. -/
def querySteps (i : ℕ) : ℕ → ℕ → ℕ → List ℕ → Option (List (FriQueryStep F))
  | _, _, _, [] => some []
  | accStepSiblings, arityAcc, currentStepSiblings, arityBits :: rest => do
    let g := cfg.friGeometry
    let currentStepSiblings := currentStepSiblings - arityBits
    let siblings ← (List.range currentStepSiblings).mapM fun j =>
      b.friStepSiblings.hashAt (i * g.totalStepSiblings * 4 + accStepSiblings * 4 + 4 * j)
    let evals ← sliceRange (extensionVec b.friStepEvaluations.len b.friStepEvaluations.cell)
      (i * g.aritySum + arityAcc) (i * g.aritySum + arityAcc + 1 <<< arityBits)
    let steps ← querySteps i (accStepSiblings + currentStepSiblings) (arityAcc + 1 <<< arityBits)
      currentStepSiblings rest
    pure (⟨evals, siblings⟩ :: steps)

/-- Query `i`. -/
def queryRound (i : ℕ) : Option (FriQueryRound F) := do
  let initialTreesProof ← ((List.range 4).zip PolySegment.all).mapM (b.initialProof c cfg i)
  let steps ← b.querySteps cfg i 0 0 (cfg.degreeBits + cfg.rateBits - cfg.capHeight)
    cfg.reductionArityBits
  pure { initialTreesProof, steps }

/-- `get_fri_proof`. -/
def getFriProof : Option (FriProof F) := do
  let finalPolyVec := extensionVec b.friFinalCoefficients.len b.friFinalCoefficients.cell
  let queryRoundProofs ← (List.range cfg.numQueryRounds).mapM (b.queryRound c cfg)
  pure
    { commitPhaseMerkleCaps := b.friCommitPhaseCaps
      queryRoundProofs
      finalPoly := finalPolyVec.take (finalPolyVec.length >>> cfg.rateBits)
      powWitness := b.friPowWitness }

end ProofAssemblyBuffers

end MegaZK
