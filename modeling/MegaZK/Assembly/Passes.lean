import MegaZK.Assembly.Shape

/-! # When the first proof passes the shape checks

The sizes of the assembled proof, and the condition under which they are the sizes that the
verifier derives from the common data. -/

namespace MegaZK

variable {F : Type}

/-! ### Slices and loops -/

lemma sliceRange_of_le {α : Type} {l : List α} {start stop : ℕ} (h : start ≤ stop)
    (hl : stop ≤ l.length) :
    ∃ x, sliceRange l start stop = some x ∧ x.length = stop - start := by
  refine ⟨_, if_pos ⟨h, hl⟩, ?_⟩
  rw [List.length_take, List.length_drop]
  omega

/-- A loop over fallible steps that all succeed. -/
lemma mapM_of_forall {α β : Type} {f : α → Option β} {P : β → Prop} {l : List α}
    (h : ∀ x ∈ l, ∃ y, f x = some y ∧ P y) :
    ∃ ys, l.mapM f = some ys ∧ ys.length = l.length ∧ ∀ y ∈ ys, P y := by
  induction l with
  | nil => exact ⟨[], rfl, rfl, by simp⟩
  | cons x l ih =>
    obtain ⟨y, hy, hP⟩ := h x (by simp)
    obtain ⟨ys, hys, hlen, hPs⟩ := ih fun z hz => h z (by simp [hz])
    refine ⟨y :: ys, by simp [List.mapM_cons, hy, hys], by simp [hlen], ?_⟩
    intro z hz
    rcases List.mem_cons.mp hz with rfl | hz
    · exact hP
    · exact hPs z hz

/-- Reading one hash for every element of a range. -/
lemma mapM_hashAt (b : DeviceBuffer F) (idx : ℕ → ℕ) {n : ℕ} (h : ∀ j < n, idx j + 3 < b.len) :
    ∃ hs, ((List.range n).mapM fun j => b.hashAt (idx j)) = some hs ∧ hs.length = n := by
  obtain ⟨hs, hhs, hlen, -⟩ := mapM_of_forall (P := fun _ => True) (l := List.range n)
    (f := fun j => b.hashAt (idx j))
    (fun j hj => ⟨_, if_pos (h j (List.mem_range.mp hj)), trivial⟩)
  exact ⟨hs, hhs, by simpa using hlen⟩

@[simp] lemma length_extensionVec (len : ℕ) (cell : ℕ → F) :
    (extensionVec len cell).length = len / extensionDegree := by
  simp [extensionVec]

@[simp] lemma length_assembleCap (tree : DeviceBuffer F) (capHeight : ℕ) :
    (assembleCap tree capHeight).length = 2 ^ capHeight := by
  simp [assembleCap, capLen, Nat.shiftLeft_eq]

/-! ### The FRI geometry -/

/-- The number of evaluations and siblings of every step, from the siblings of the layer before
the first one. -/
def stepShapes : ℕ → List ℕ → List (ℕ × ℕ)
  | _, [] => []
  | siblings, arityBits :: rest =>
    (2 ^ arityBits, siblings - arityBits) :: stepShapes (siblings - arityBits) rest

lemma length_stepShapes (siblings : ℕ) (arities : List ℕ) :
    (stepShapes siblings arities).length = arities.length := by
  induction arities generalizing siblings with
  | nil => rfl
  | cons a arities ih => simp [stepShapes, ih]

lemma ProofAssemblyConfig.friGeometry_eq (cfg : ProofAssemblyConfig) :
    cfg.friGeometry.aritySum =
        ((stepShapes (cfg.degreeBits + cfg.rateBits - cfg.capHeight)
          cfg.reductionArityBits).map Prod.fst).sum ∧
      cfg.friGeometry.totalStepSiblings =
        ((stepShapes (cfg.degreeBits + cfg.rateBits - cfg.capHeight)
          cfg.reductionArityBits).map Prod.snd).sum ∧
      cfg.friGeometry.leavesLen =
        ((2 ^ cfg.degreeBits * extensionDegree) <<< cfg.rateBits) >>>
          cfg.reductionArityBits.sum := by
  -- from any state of the loop
  have key : ∀ (arities : List ℕ) (g : FriGeometry),
      let g' := arities.foldl
        (fun g arityBits =>
          ({ aritySum := g.aritySum + 1 <<< arityBits
             currentStepSiblings := g.currentStepSiblings - arityBits
             totalStepSiblings := g.totalStepSiblings + (g.currentStepSiblings - arityBits)
             leavesLen := g.leavesLen >>> arityBits } : FriGeometry)) g
      g'.aritySum = g.aritySum + ((stepShapes g.currentStepSiblings arities).map Prod.fst).sum ∧
        g'.totalStepSiblings = g.totalStepSiblings +
          ((stepShapes g.currentStepSiblings arities).map Prod.snd).sum ∧
        g'.leavesLen = g.leavesLen >>> arities.sum := by
    intro arities
    induction arities with
    | nil => intro g; simp [stepShapes]
    | cons a arities ih =>
      intro g
      obtain ⟨h₁, h₂, h₃⟩ := ih
        { aritySum := g.aritySum + 1 <<< a
          currentStepSiblings := g.currentStepSiblings - a
          totalStepSiblings := g.totalStepSiblings + (g.currentStepSiblings - a)
          leavesLen := g.leavesLen >>> a }
      simp only [List.foldl_cons]
      refine ⟨?_, ?_, ?_⟩
      · rw [h₁]
        simp [stepShapes, Nat.shiftLeft_eq, Nat.add_assoc]
      · rw [h₂]
        simp [stepShapes, Nat.add_assoc]
      · rw [h₃, List.sum_cons, Nat.shiftRight_add]
  simpa [ProofAssemblyConfig.friGeometry] using key cfg.reductionArityBits
    { aritySum := 0
      totalStepSiblings := 0
      currentStepSiblings := cfg.degreeBits + cfg.rateBits - cfg.capHeight
      leavesLen := (2 ^ cfg.degreeBits * extensionDegree) <<< cfg.rateBits }

/-! ### The assembled proof -/

/-- The numbers of evaluations and siblings of the steps of a query. -/
def stepLengths (steps : List (FriQueryStep F)) : List (ℕ × ℕ) :=
  steps.map fun s => (s.evals.length, s.merkleProof.length)

/-- The lengths of the leaves and siblings of the initial proofs of a query. -/
def initialLengths (proofs : List (List F × List (List F))) : List (ℕ × ℕ) :=
  proofs.map fun p => (p.1.length, p.2.length)

namespace ProofAssemblyBuffers

variable {b : ProofAssemblyBuffers F} {cfg : ProofAssemblyConfig}

/-- The steps of query `i`, when the buffers hold those of `numQueryRounds` queries. -/
lemma querySteps_spec {i : ℕ} (hi : i < cfg.numQueryRounds)
    (hsib : b.friStepSiblings.len = 4 * cfg.friGeometry.totalStepSiblings * cfg.numQueryRounds)
    (heval : b.friStepEvaluations.len =
      extensionDegree * cfg.friGeometry.aritySum * cfg.numQueryRounds)
    (arities : List ℕ) (acc arityAcc cur : ℕ)
    (hacc : acc + ((stepShapes cur arities).map Prod.snd).sum ≤ cfg.friGeometry.totalStepSiblings)
    (harity : arityAcc + ((stepShapes cur arities).map Prod.fst).sum ≤ cfg.friGeometry.aritySum) :
    ∃ steps, b.querySteps cfg i acc arityAcc cur arities = some steps ∧
      stepLengths steps = stepShapes cur arities := by
  induction arities generalizing acc arityAcc cur with
  | nil => exact ⟨[], rfl, rfl⟩
  | cons a arities ih =>
    simp only [stepShapes, List.map_cons, List.sum_cons] at hacc harity
    have hround : ∀ total, i * total + total ≤ total * cfg.numQueryRounds := by
      intro total
      calc i * total + total = (i + 1) * total := by ring
        _ ≤ cfg.numQueryRounds * total := Nat.mul_le_mul_right _ hi
        _ = total * cfg.numQueryRounds := Nat.mul_comm _ _
    have hsiblings := hround cfg.friGeometry.totalStepSiblings
    have hevals := hround cfg.friGeometry.aritySum
    obtain ⟨siblings, hs, hslen⟩ := mapM_hashAt b.friStepSiblings
      (fun j => i * cfg.friGeometry.totalStepSiblings * 4 + acc * 4 + 4 * j) (n := cur - a)
      (fun j hj => by
        rw [hsib]
        have : 4 * cfg.friGeometry.totalStepSiblings * cfg.numQueryRounds =
          4 * (cfg.friGeometry.totalStepSiblings * cfg.numQueryRounds) := by ring
        omega)
    obtain ⟨evals, he, helen⟩ := sliceRange_of_le
      (l := extensionVec b.friStepEvaluations.len b.friStepEvaluations.cell)
      (Nat.le_add_right (i * cfg.friGeometry.aritySum + arityAcc) (1 <<< a)) (by
        rw [length_extensionVec, heval, Nat.one_shiftLeft]
        have : extensionDegree * cfg.friGeometry.aritySum * cfg.numQueryRounds / extensionDegree =
            cfg.friGeometry.aritySum * cfg.numQueryRounds := by
          rw [Nat.mul_assoc, Nat.mul_div_cancel_left _ (by decide)]
        omega)
    obtain ⟨steps, hsteps, hlens⟩ := ih (acc + (cur - a)) (arityAcc + 1 <<< a) (cur - a)
      (by omega) (by rw [Nat.one_shiftLeft]; omega)
    refine ⟨⟨evals, siblings⟩ :: steps, ?_, ?_⟩
    · simp only [querySteps, hs, he, hsteps, Option.bind_eq_bind, Option.bind_some,
        Option.pure_def]
    · simp only [stepLengths, List.map_cons, stepShapes, hslen, helen, Nat.one_shiftLeft] at hlens ⊢
      rw [hlens]
      simp

/-- The proof of query `i` in tree `r`. -/
lemma initialProof_spec {c : PolyCounts} {i : ℕ} (hi : i < cfg.numQueryRounds)
    (hsib : b.friInitialSiblings.len =
      4 * 4 * (cfg.degreeBits + cfg.rateBits - cfg.capHeight) * cfg.numQueryRounds)
    (hleaf : ∀ seg, (b.friInitialLeaves seg).len = c.count seg * cfg.numQueryRounds)
    (r : ℕ × PolySegment) (hr : r.1 < 4) :
    ∃ p, b.initialProof c cfg i r = some p ∧
      (p.1.length, p.2.length) =
        (c.count r.2, cfg.degreeBits + cfg.rateBits - cfg.capHeight) := by
  generalize hn : cfg.degreeBits + cfg.rateBits - cfg.capHeight = n at hsib
  have hround : ∀ total, i * total + total ≤ total * cfg.numQueryRounds := by
    intro total
    calc i * total + total = (i + 1) * total := by ring
      _ ≤ cfg.numQueryRounds * total := Nat.mul_le_mul_right _ hi
      _ = total * cfg.numQueryRounds := Nat.mul_comm _ _
  obtain ⟨siblings, hs, hslen⟩ := mapM_hashAt b.friInitialSiblings
    (fun j => i * 4 * 4 * n + r.1 * 4 * n + 4 * j) (n := n)
    (fun j hj => by
      have h₁ := hround (4 * 4 * n)
      have h₂ : r.1 * 4 * n ≤ 3 * 4 * n :=
        Nat.mul_le_mul_right _ (Nat.mul_le_mul_right _ (by omega))
      have h₃ : i * 4 * 4 * n = i * (4 * 4 * n) := by ring
      rw [hsib, h₃]
      omega)
  obtain ⟨leaf, hl, hllen⟩ := sliceRange_of_le
    (l := (List.range (b.friInitialLeaves r.2).len).map (b.friInitialLeaves r.2).cell)
    (Nat.mul_le_mul_right (c.count r.2) (Nat.le_succ i)) (by
      rw [List.length_map, List.length_range, hleaf, Nat.mul_comm (c.count r.2)]
      exact Nat.mul_le_mul_right _ hi)
  refine ⟨(leaf, siblings), ?_, ?_⟩
  · simp only [initialProof, hn, hs, hl, Option.bind_eq_bind, Option.bind_some, Option.pure_def]
  · rw [hllen, hslen, Nat.succ_mul, Nat.add_sub_cancel_left]

/-- The lengths in a query round. -/
structure RoundShaped (c : PolyCounts) (cfg : ProofAssemblyConfig) (r : FriQueryRound F) :
    Prop where
  initial : initialLengths r.initialTreesProof = PolySegment.all.map fun seg =>
    (c.count seg, cfg.degreeBits + cfg.rateBits - cfg.capHeight)
  steps : stepLengths r.steps =
    stepShapes (cfg.degreeBits + cfg.rateBits - cfg.capHeight) cfg.reductionArityBits

lemma queryRound_spec (b : ProofAssemblyBuffers F) (c : PolyCounts) {i : ℕ} (hi : i < cfg.numQueryRounds)
    (hinit : b.friInitialSiblings.len =
      4 * 4 * (cfg.degreeBits + cfg.rateBits - cfg.capHeight) * cfg.numQueryRounds)
    (hleaf : ∀ seg, (b.friInitialLeaves seg).len = c.count seg * cfg.numQueryRounds)
    (hsib : b.friStepSiblings.len = 4 * cfg.friGeometry.totalStepSiblings * cfg.numQueryRounds)
    (heval : b.friStepEvaluations.len =
      extensionDegree * cfg.friGeometry.aritySum * cfg.numQueryRounds) :
    ∃ r, b.queryRound c cfg i = some r ∧ RoundShaped c cfg r := by
  obtain ⟨hsum, htotal, -⟩ := cfg.friGeometry_eq
  obtain ⟨steps, hsteps, hslens⟩ := querySteps_spec hi hsib heval cfg.reductionArityBits 0 0
    (cfg.degreeBits + cfg.rateBits - cfg.capHeight) (by rw [htotal]; omega) (by rw [hsum]; omega)
  have hproof := fun r hr => initialProof_spec (c := c) hi hinit hleaf r hr
  obtain ⟨p₀, h₀, l₀⟩ := hproof (0, .constantsSigmas) (by decide)
  obtain ⟨p₁, h₁, l₁⟩ := hproof (1, .wires) (by decide)
  obtain ⟨p₂, h₂, l₂⟩ := hproof (2, .partialProducts) (by decide)
  obtain ⟨p₃, h₃, l₃⟩ := hproof (3, .quotients) (by decide)
  have hzip : (List.range 4).zip PolySegment.all =
      [(0, .constantsSigmas), (1, .wires), (2, .partialProducts), (3, .quotients)] := by decide
  refine ⟨⟨[p₀, p₁, p₂, p₃], steps⟩, ?_, ⟨?_, hslens⟩⟩
  · simp only [queryRound, hzip, List.mapM_cons, List.mapM_nil, h₀, h₁, h₂, h₃, hsteps,
      Option.bind_eq_bind, Option.bind_some, Option.pure_def]
  · simp [initialLengths, PolySegment.all, l₀, l₁, l₂, l₃]

end ProofAssemblyBuffers

/-! ### The first proof -/

/-- The lengths of the openings of the first proof. -/
lemma getOpeningSet_spec (c : PolyCounts) (cfg : ProofAssemblyConfig)
    (hconst : c.numConstSigmas = cfg.numConstants + cfg.numRoutedWires) (cell : ℕ → F) :
    let openings : DeviceBuffer F := ⟨extensionDegree * (c.numPolys + cfg.numChallenges), cell⟩
    (cfg.numChallenges ≤ c.numPartialProducts → ∃ o, getOpeningSet c cfg openings = some o ∧
      o.constants.length = cfg.numConstants ∧ o.plonkSigmas.length = cfg.numRoutedWires ∧
      o.wires.length = c.numWires ∧ o.plonkZs.length = cfg.numChallenges ∧
      o.plonkZsNext.length = cfg.numChallenges ∧
      o.partialProducts.length = c.numPartialProducts - cfg.numChallenges ∧
      o.quotientPolys.length = c.numQuotients ∧ o.lookupZs = [] ∧ o.lookupZsNext = []) ∧
    (∀ o, getOpeningSet c cfg openings = some o → cfg.numChallenges ≤ c.numPartialProducts) := by
  intro openings
  have hlen : (extensionVec openings.len openings.cell).length = c.numPolys + cfg.numChallenges := by
    rw [length_extensionVec, Nat.mul_div_cancel_left _ (by decide)]
  have hpolys : c.numPolys =
      c.numConstSigmas + c.numWires + c.numPartialProducts + c.numQuotients := rfl
  have hoffset : c.offset .partialProducts = c.numConstSigmas + c.numWires := rfl
  refine ⟨fun hle => ?_, fun o ho => ?_⟩
  · obtain ⟨x₁, h₁, l₁⟩ := sliceRange_of_le
      (l := extensionVec openings.len openings.cell) (Nat.zero_le cfg.numConstants)
      (by rw [hlen]; omega)
    obtain ⟨x₂, h₂, l₂⟩ := sliceRange_of_le (l := extensionVec openings.len openings.cell)
      (Nat.le_add_right cfg.numConstants cfg.numRoutedWires) (by rw [hlen]; omega)
    obtain ⟨x₃, h₃, l₃⟩ := sliceRange_of_le (l := extensionVec openings.len openings.cell)
      (show c.numConstSigmas ≤ c.offset .partialProducts by omega) (by rw [hlen]; omega)
    obtain ⟨x₄, h₄, l₄⟩ := sliceRange_of_le (l := extensionVec openings.len openings.cell)
      (Nat.le_add_right (c.offset .partialProducts) cfg.numChallenges) (by rw [hlen]; omega)
    obtain ⟨x₅, h₅, l₅⟩ := sliceRange_of_le (l := extensionVec openings.len openings.cell)
      (show c.numPolys ≤ (extensionVec openings.len openings.cell).length by rw [hlen]; omega)
      (le_refl _)
    obtain ⟨x₆, h₆, l₆⟩ := sliceRange_of_le (l := extensionVec openings.len openings.cell)
      (show c.offset .partialProducts + cfg.numChallenges ≤
        c.offset .partialProducts + c.numPartialProducts by omega) (by rw [hlen]; omega)
    obtain ⟨x₇, h₇, l₇⟩ := sliceRange_of_le (l := extensionVec openings.len openings.cell)
      (show c.offset .partialProducts + c.numPartialProducts ≤ c.numPolys by omega)
      (by rw [hlen]; omega)
    refine ⟨⟨x₁, x₂, x₃, x₄, x₅, x₆, x₇, [], []⟩, ?_, ?_⟩
    · simp only [getOpeningSet, h₁, h₂, h₃, h₄, h₅, h₆, h₇, Option.bind_eq_bind, Option.bind_some,
        Option.pure_def]
    · rw [hlen] at l₅
      dsimp only
      refine ⟨by omega, by omega, by omega, by omega, by omega, by omega, by omega, rfl, rfl⟩
  · unfold getOpeningSet at ho
    simp only [Option.bind_eq_bind, Option.bind_eq_some_iff] at ho
    obtain ⟨_, -, _, -, _, -, _, -, _, -, x₆, h₆, -⟩ := ho
    unfold sliceRange at h₆
    split_ifs at h₆ with hle
    omega

namespace CommonCircuitData

variable {c : CommonCircuitData}

/-- The lengths in the first proof. -/
structure Shaped (c : CommonCircuitData) (p : ProofWithPublicInputs F) : Prop where
  caps : p.proof.wiresCap.length = 2 ^ c.capHeight ∧
    p.proof.plonkZsPartialProductsCap.length = 2 ^ c.capHeight ∧
    p.proof.quotientPolysCap.length = 2 ^ c.capHeight
  constants : p.proof.openings.constants.length = c.numConstants
  plonkSigmas : p.proof.openings.plonkSigmas.length = c.numRoutedWires
  wires : p.proof.openings.wires.length = c.numWires
  plonkZs : p.proof.openings.plonkZs.length = c.numChallenges
  plonkZsNext : p.proof.openings.plonkZsNext.length = c.numChallenges
  partialProducts : p.proof.openings.partialProducts.length =
    c.counts.numPartialProducts - c.numChallenges
  quotientPolys : p.proof.openings.quotientPolys.length =
    c.maxQuotientDegreeFactor * c.numChallenges
  lookups : p.proof.openings.lookupZs = [] ∧ p.proof.openings.lookupZsNext = []
  commitCaps : ∀ cap ∈ p.proof.openingProof.commitPhaseMerkleCaps, cap.length = 2 ^ c.capHeight
  numRounds : p.proof.openingProof.queryRoundProofs.length = c.numQueryRounds
  rounds : ∀ r ∈ p.proof.openingProof.queryRoundProofs,
    ProofAssemblyBuffers.RoundShaped c.counts c.assemblyConfig r
  finalPoly : p.proof.openingProof.finalPoly.length =
    2 ^ (c.degreeBits + c.rateBits - c.reductionArityBits.sum) >>> c.rateBits
  publicInputs : p.publicInputs.length = c.numPublicInputs

/-- What keeps the first prove from panicking while it assembles the proof. -/
def Assembles (c : CommonCircuitData) : Prop :=
  capLen c.capHeight ≤ maxThreadsPerBlock ∧ c.reductionArityBits ≠ [] ∧
    c.numChallenges ≤ c.counts.numPartialProducts

lemma friCommittedTrees_spec (cells : ProofCells F) (hcap : capLen c.capHeight ≤ maxThreadsPerBlock)
    (hne : c.reductionArityBits ≠ []) :
    ∃ caps, c.friCommittedTrees cells = some caps ∧ ∀ cap ∈ caps, cap.length = 2 ^ c.capHeight := by
  obtain ⟨caps, hcaps, -, hall⟩ := mapM_of_forall
    (f := fun p : FriCommitPartLens × ℕ =>
      copyCap ⟨p.1.digestsLen, cells.roundTrees p.2⟩ c.capHeight)
    (P := fun cap => cap.length = 2 ^ c.capHeight)
    (l := (friCommitPartLensFrom ((8 * 2 ^ c.degreeBits) <<< c.rateBits)
      ((2 ^ c.degreeBits * extensionDegree) <<< c.rateBits) c.reductionArityBits).zipIdx)
    (fun p _ => ⟨_, if_pos hcap, length_assembleCap _ _⟩)
  refine ⟨caps, ?_, hall⟩
  simp only [friCommittedTrees, hcaps, Option.bind_eq_bind, Option.bind_some, hne, ↓reduceIte]

lemma firstProof_spec (cells : ProofCells F) (h : c.Assembles) : ∃ p, c.firstProof cells = some p ∧ Shaped c p := by
  obtain ⟨hcap, hne, hpp⟩ := h
  obtain ⟨caps, hcaps, hcapLens⟩ := friCommittedTrees_spec cells hcap hne
  obtain ⟨o, ho, ho₁, ho₂, ho₃, ho₄, ho₅, ho₆, ho₇, ho₈, ho₉⟩ :=
    (getOpeningSet_spec c.counts c.assemblyConfig rfl cells.openings).1 hpp
  obtain ⟨rounds, hrounds, hnum, hall⟩ := mapM_of_forall
    (f := (c.assemblyBuffers cells caps).queryRound c.counts c.assemblyConfig)
    (P := ProofAssemblyBuffers.RoundShaped c.counts c.assemblyConfig)
    (l := List.range c.numQueryRounds)
    (fun i hi => ProofAssemblyBuffers.queryRound_spec (c.assemblyBuffers cells caps) c.counts
      (List.mem_range.mp hi) rfl (fun _ => rfl) rfl rfl)
  obtain ⟨-, -, hleaves⟩ := c.assemblyConfig.friGeometry_eq
  obtain ⟨friProof, hfri⟩ : ∃ friProof,
      (c.assemblyBuffers cells caps).getFriProof c.counts c.assemblyConfig = some friProof ∧
        friProof.commitPhaseMerkleCaps = caps ∧ friProof.queryRoundProofs = rounds ∧
        friProof.finalPoly.length =
          2 ^ (c.degreeBits + c.rateBits - c.reductionArityBits.sum) >>> c.rateBits := by
    have hrounds' : (List.range c.assemblyConfig.numQueryRounds).mapM
        ((c.assemblyBuffers cells caps).queryRound c.counts c.assemblyConfig) = some rounds :=
      hrounds
    refine ⟨_, by
      simp only [ProofAssemblyBuffers.getFriProof, hrounds', Option.bind_eq_bind,
        Option.bind_some, Option.pure_def]
      rfl, rfl, rfl, ?_⟩
    have hlen : (c.assemblyBuffers cells caps).friFinalCoefficients.len / extensionDegree =
        2 ^ (c.degreeBits + c.rateBits - c.reductionArityBits.sum) := by
      have hle : c.reductionArityBits.sum ≤ c.degreeBits + c.rateBits := by
        have := c.arities_le
        omega
      have hshift : ((2 ^ c.degreeBits * extensionDegree) <<< c.rateBits) >>>
          c.reductionArityBits.sum =
          extensionDegree * 2 ^ (c.degreeBits + c.rateBits - c.reductionArityBits.sum) := by
        rw [Nat.shiftLeft_eq, Nat.shiftRight_eq_div_pow, Nat.mul_comm _ extensionDegree,
          Nat.mul_assoc, ← pow_add, Nat.mul_div_assoc _ (Nat.pow_dvd_pow 2 hle),
          Nat.pow_div hle (by decide)]
      change c.assemblyConfig.friGeometry.leavesLen / extensionDegree = _
      rw [hleaves]
      change ((2 ^ c.degreeBits * extensionDegree) <<< c.rateBits) >>>
        c.reductionArityBits.sum / extensionDegree = _
      rw [hshift, Nat.mul_div_cancel_left _ (by decide)]
    simp only [List.length_take, length_extensionVec, hlen]
    exact Nat.min_eq_left (by rw [Nat.shiftRight_eq_div_pow]; exact Nat.div_le_self _ _)
  obtain ⟨hfri, hfriCaps, hfriRounds, hfinal⟩ := hfri
  have ho' : getOpeningSet c.counts c.assemblyConfig (c.assemblyBuffers cells caps).openings =
      some o := ho
  refine ⟨_, by
    simp only [firstProof, hcaps, copyCap, hcap, ↓reduceIte, Option.bind_eq_bind,
      Option.bind_some, ho', hfri, Option.pure_def]
    rfl, ?_⟩
  exact
    { caps := ⟨length_assembleCap _ _, length_assembleCap _ _, length_assembleCap _ _⟩
      constants := ho₁
      plonkSigmas := ho₂
      wires := ho₃
      plonkZs := ho₄
      plonkZsNext := ho₅
      partialProducts := ho₆
      quotientPolys := ho₇
      lookups := ⟨ho₈, ho₉⟩
      commitCaps := by
        rw [hfriCaps]
        exact hcapLens
      numRounds := by
        rw [hfriRounds]
        simpa using hnum
      rounds := by
        rw [hfriRounds]
        exact hall
      finalPoly := hfinal
      publicInputs := by simp }

lemma assembles_of_firstProof {cells : ProofCells F} {p : ProofWithPublicInputs F}
    (h : c.firstProof cells = some p) : c.Assembles := by
  simp only [firstProof, friCommittedTrees, Option.bind_eq_bind, Option.bind_eq_some_iff] at h
  obtain ⟨caps, ⟨_, -, hne⟩, _, hcap, _, -, _, -, o, ho, -⟩ := h
  refine ⟨?_, ?_, ?_⟩
  · unfold copyCap at hcap
    split_ifs at hcap with hle
    exact hle
  · rintro hnil
    rw [if_pos hnil] at hne
    cases hne
  · exact (getOpeningSet_spec c.counts c.assemblyConfig rfl cells.openings).2 o ho

end CommonCircuitData

/-! ### The checks -/

@[simp] lemma ensure_eq_ok {p : Prop} [Decidable p] {msg : String} :
    ensure p msg = .ok () ↔ p := by
  by_cases hp : p <;> simp [ensure, hp]

@[simp] lemma bind_unit_eq_ok {x y : Except String Unit} :
    (x >>= fun _ => y) = .ok () ↔ x = .ok () ∧ y = .ok () := by
  cases x with
  | error e => simp [bind, Except.bind]
  | ok u => simp [bind, Except.bind]

lemma forM_eq_ok {α : Type} {f : α → Except String Unit} {l : List α} :
    l.forM f = .ok () ↔ ∀ x ∈ l, f x = .ok () := by
  induction l with
  | nil => simp [pure, Except.pure]
  | cons x l ih =>
    change (f x >>= fun _ => l.forM f) = .ok () ↔ _
    rw [bind_unit_eq_ok, ih, List.forall_mem_cons]

lemma ensureCapHeight_of_length {cap : List (List F)} {capHeight : ℕ}
    (h : cap.length = 2 ^ capHeight) (msg : String) :
    ensureCapHeight cap capHeight msg = .ok () := by
  simp [ensureCapHeight, merkleCapHeight, h, Nat.log2_two_pow, bind, Except.bind, ensure]

namespace CommonCircuitData

variable {c : CommonCircuitData} {p : ProofWithPublicInputs F}

lemma Shaped.validateProofWithPisShape_iff (hp : Shaped c p) :
    c.validateProofWithPisShape p = .ok () ↔
      c.counts.numPartialProducts - c.numChallenges = c.numChallenges * c.numPartialProducts ∧
        c.numAllLookupPolys = 0 := by
  have hquot : c.maxQuotientDegreeFactor * c.numChallenges = c.numQuotientPolys :=
    Nat.mul_comm _ _
  simp only [validateProofWithPisShape, validateProofShape, bind_unit_eq_ok, ensure_eq_ok,
    ensureCapHeight_of_length hp.caps.1, ensureCapHeight_of_length hp.caps.2.1,
    ensureCapHeight_of_length hp.caps.2.2, hp.constants, hp.plonkSigmas, hp.wires, hp.plonkZs,
    hp.plonkZsNext, hp.partialProducts, hp.quotientPolys, hquot, hp.lookups.1, hp.lookups.2,
    hp.publicInputs, List.length_nil, true_and, and_true, and_self, @eq_comm ℕ 0]

/-- The steps of a query always have the lengths the verifier expects. -/
lemma validateSteps_of_stepLengths (steps : List (FriQueryStep F)) (arities : List ℕ)
    (codewordLenBits : ℕ) (hle : arities.sum + c.capHeight ≤ codewordLenBits)
    (h : stepLengths steps = stepShapes (codewordLenBits - c.capHeight) arities) :
    c.validateSteps codewordLenBits (steps.zip arities) = .ok () := by
  induction arities generalizing steps codewordLenBits with
  | nil => simp [validateSteps]
  | cons a arities ih =>
    cases steps with
    | nil => simp [stepLengths, stepShapes] at h
    | cons step steps =>
      simp only [stepLengths, stepShapes, List.map_cons, List.cons.injEq, Prod.mk.injEq] at h
      rw [List.sum_cons] at hle
      obtain ⟨⟨heval, hsib⟩, hrest⟩ := h
      simp only [List.zip_cons_cons, validateSteps, bind_unit_eq_ok, ensure_eq_ok, heval, hsib,
        Nat.one_shiftLeft, true_and]
      refine ⟨by omega, ih steps (codewordLenBits - a) (by omega) ?_⟩
      rw [stepLengths, hrest]
      congr 1
      omega

lemma validateQueryRound_iff {r : FriQueryRound F}
    (hr : ProofAssemblyBuffers.RoundShaped c.counts c.assemblyConfig r) :
    c.validateQueryRound r = .ok () ↔ c.zeroKnowledge = false ∧
      c.counts.numPartialProducts = c.numZsPartialProductsPolys + c.numAllLookupPolys := by
  have harities := c.arities_le
  obtain ⟨hinit, hsteps⟩ := hr
  have hlen : r.steps.length = c.reductionArityBits.length := by
    have := congrArg List.length hsteps
    simpa [stepLengths, length_stepShapes, assemblyConfig] using this
  have hvalid : c.validateSteps c.ldeBits (r.steps.zip c.reductionArityBits) = .ok () :=
    validateSteps_of_stepLengths _ _ _ harities hsteps
  -- the four initial proofs
  obtain ⟨p₀, p₁, p₂, p₃, hproofs⟩ : ∃ p₀ p₁ p₂ p₃, r.initialTreesProof = [p₀, p₁, p₂, p₃] := by
    have := congrArg List.length hinit
    simp only [initialLengths, List.length_map] at this
    exact List.length_eq_four.mp this
  simp only [hproofs, initialLengths, PolySegment.all, List.map_cons, List.map_nil,
    List.cons.injEq, Prod.mk.injEq, and_true] at hinit
  obtain ⟨⟨a₀, b₀⟩, ⟨a₁, b₁⟩, ⟨a₂, b₂⟩, ⟨a₃, b₃⟩⟩ := hinit
  have hsib : c.assemblyConfig.degreeBits + c.assemblyConfig.rateBits -
      c.assemblyConfig.capHeight + c.capHeight = c.ldeBits :=
    Nat.sub_add_cancel (by have := c.arities_le; exact le_trans (Nat.le_add_left _ _) this)
  have hquot : c.counts.count .quotients = c.numQuotientPolys := Nat.mul_comm _ _
  have hconst : c.counts.count .constantsSigmas = c.numConstants + c.numRoutedWires := rfl
  have hwires : c.counts.count .wires = c.numWires := rfl
  have hpp : c.counts.count .partialProducts = c.counts.numPartialProducts := rfl
  simp only [validateQueryRound, bind_unit_eq_ok, ensure_eq_ok, forM_eq_ok, hproofs, friOracles,
    List.zip_cons_cons, List.zip_nil_right, List.forall_mem_cons, List.not_mem_nil,
    false_implies, implies_true, and_true, a₀, b₀, a₁, b₁, a₂, b₂, a₃, b₃, hsib, hlen, hvalid,
    hquot, hconst, hwires, hpp, List.length_cons, List.length_nil, Bool.false_and, Bool.true_and,
    true_and]
  cases c.zeroKnowledge <;> simp [saltSize]

lemma Shaped.validateFriProofShape_iff (hp : Shaped c p) :
    c.validateFriProofShape p.proof.openingProof = .ok () ↔
      (c.numQueryRounds = 0 ∨ (c.zeroKnowledge = false ∧
        c.counts.numPartialProducts = c.numZsPartialProductsPolys + c.numAllLookupPolys)) ∧
      2 ^ (c.degreeBits + c.rateBits - c.reductionArityBits.sum) >>> c.rateBits =
        c.finalPolyLen := by
  have hcaps : p.proof.openingProof.commitPhaseMerkleCaps.forM
      (fun cap => ensureCapHeight cap c.capHeight "cap.height() == cap_height") = .ok () :=
    forM_eq_ok.mpr fun cap hcap => ensureCapHeight_of_length (hp.commitCaps cap hcap) _
  simp only [validateFriProofShape, bind_unit_eq_ok, ensure_eq_ok, hcaps, true_and, hp.finalPoly]
  refine and_congr_left fun _ => ?_
  rw [forM_eq_ok]
  have hround := fun r hr => validateQueryRound_iff (hp.rounds r hr)
  constructor
  · intro hall
    by_cases hzero : c.numQueryRounds = 0
    · exact .inl hzero
    · have hlen := hp.numRounds
      obtain ⟨r, hr⟩ := List.exists_mem_of_length_pos
        (l := p.proof.openingProof.queryRoundProofs) (by omega)
      exact .inr ((hround r hr).mp (hall r hr))
  · rintro (hzero | hcond) r hr
    · have hlen := hp.numRounds
      rw [hzero, List.length_eq_zero_iff] at hlen
      rw [hlen] at hr
      cases hr
    · exact (hround r hr).mpr hcond

/-! ### The condition -/

/-- The final polynomial has the expected length unless the reductions go below its degree. -/
lemma finalPoly_iff : 2 ^ (c.degreeBits + c.rateBits - c.reductionArityBits.sum) >>> c.rateBits =
    c.finalPolyLen ↔ c.reductionArityBits.sum ≤ c.degreeBits := by
  have harities := c.arities_le
  have hlde := c.lde_le
  unfold finalPolyLen
  rw [Nat.one_shiftLeft, Nat.shiftRight_eq_div_pow]
  by_cases hle : c.reductionArityBits.sum ≤ c.degreeBits
  · have hexp : (c.degreeBits + 2 ^ 64 - c.reductionArityBits.sum) % 2 ^ 64 % 64 =
        c.degreeBits - c.reductionArityBits.sum := by omega
    have hsub : c.degreeBits + c.rateBits - c.reductionArityBits.sum - c.rateBits =
        c.degreeBits - c.reductionArityBits.sum := by omega
    rw [hexp, Nat.pow_div (by omega) (by decide), hsub]
    simp [hle]
  · have hzero : 2 ^ (c.degreeBits + c.rateBits - c.reductionArityBits.sum) / 2 ^ c.rateBits = 0 :=
      Nat.div_eq_of_lt (Nat.pow_lt_pow_right (by decide) (by omega))
    rw [hzero]
    have hpos := Nat.two_pow_pos
      ((c.degreeBits + 2 ^ 64 - c.reductionArityBits.sum) % 2 ^ 64 % 64)
    simp only [hle, iff_false]
    omega

/-- The floor and the ceiling of the number of chunks agree when the chunks fill the wires. -/
private lemma div_eq_ceil_iff {r q : ℕ} (hr : 0 < r) (hq : 0 < q) :
    r / q = (r + q - 1) / q - 1 + 1 ↔ q ∣ r := by
  have hceil : 1 ≤ (r + q - 1) / q := (Nat.one_le_div_iff hq).mpr (by omega)
  rw [Nat.sub_add_cancel hceil]
  have hdiv := Nat.div_add_mod r q
  have hmod := Nat.mod_lt r hq
  constructor
  · intro h
    by_contra hdvd
    have hpos : 0 < r % q := Nat.pos_of_ne_zero fun h0 => hdvd (Nat.dvd_of_mod_eq_zero h0)
    have hge : r / q + 1 ≤ (r + q - 1) / q := by
      rw [Nat.le_div_iff_mul_le hq, Nat.succ_mul, Nat.mul_comm]
      omega
    omega
  · rintro ⟨k, rfl⟩
    rw [Nat.mul_div_cancel_left _ hq, Nat.add_sub_assoc hq, Nat.mul_add_div hq,
      Nat.div_eq_of_lt (by omega), Nat.add_zero]

/-- The circuits whose first proof has the right shape. -/
def ShapesAgree (c : CommonCircuitData) : Prop :=
  (c.numChallenges = 0 ∨ (c.maxQuotientDegreeFactor ∣ c.numRoutedWires ∧ c.numLookupPolys = 0)) ∧
    (c.numQueryRounds = 0 ∨ c.zeroKnowledge = false) ∧
    c.reductionArityBits ≠ [] ∧ c.reductionArityBits.sum ≤ c.degreeBits ∧ c.capHeight ≤ 8

lemma capLen_le_iff (capHeight : ℕ) : capLen capHeight ≤ maxThreadsPerBlock ↔ capHeight ≤ 8 := by
  unfold capLen maxThreadsPerBlock
  rw [Nat.shiftLeft_eq]
  constructor
  · intro h
    by_contra hlt
    have := Nat.pow_le_pow_right (n := 2) (by decide) (by omega : 9 ≤ capHeight)
    omega
  · intro h
    have := Nat.pow_le_pow_right (n := 2) (by decide) h
    omega

/-- The partial products and lookups agree exactly when the chunks fill the wires and there are
no lookups. -/
lemma partialProducts_iff :
    (c.numChallenges ≤ c.counts.numPartialProducts ∧
      c.counts.numPartialProducts - c.numChallenges = c.numChallenges * c.numPartialProducts ∧
      c.numAllLookupPolys = 0) ↔
    (c.numChallenges = 0 ∨
      (c.maxQuotientDegreeFactor ∣ c.numRoutedWires ∧ c.numLookupPolys = 0)) := by
  obtain ⟨k, hk⟩ := c.quotientDegree_pow
  have hq : 0 < c.maxQuotientDegreeFactor := hk ▸ Nat.two_pow_pos k
  have hr : 0 < c.numRoutedWires := by have := c.four_le_routed; omega
  have hpps : c.counts.numPartialProducts =
      c.numRoutedWires / c.maxQuotientDegreeFactor * c.numChallenges := rfl
  rw [hpps, ← div_eq_ceil_iff hr hq, numAllLookupPolys, mul_eq_zero]
  by_cases hzero : c.numChallenges = 0
  · simp [hzero]
  have hpos : 0 < c.numChallenges := Nat.pos_of_ne_zero hzero
  simp only [hzero, false_or]
  have hnpp : c.numPartialProducts = (c.numRoutedWires + c.maxQuotientDegreeFactor - 1) /
      c.maxQuotientDegreeFactor - 1 := rfl
  rw [← hnpp]
  generalize c.numRoutedWires / c.maxQuotientDegreeFactor = chunks
  constructor
  · rintro ⟨hle, heq, hlookup⟩
    refine ⟨Nat.eq_of_mul_eq_mul_right hpos ?_, hlookup⟩
    rw [Nat.succ_mul, Nat.mul_comm c.numPartialProducts, ← heq]
    omega
  · rintro ⟨rfl, hlookup⟩
    rw [Nat.succ_mul, Nat.mul_comm c.numPartialProducts]
    exact ⟨Nat.le_add_left _ _, Nat.add_sub_cancel _ _, hlookup⟩

/-- Then the leaves of the partial-product tree have the right length too. -/
lemma leaf_of_partialProducts (hle : c.numChallenges ≤ c.counts.numPartialProducts)
    (heq : c.counts.numPartialProducts - c.numChallenges = c.numChallenges * c.numPartialProducts)
    (hlookup : c.numAllLookupPolys = 0) :
    c.counts.numPartialProducts = c.numZsPartialProductsPolys + c.numAllLookupPolys := by
  rw [hlookup, numZsPartialProductsPolys, Nat.mul_add, Nat.mul_one, ← heq]
  omega

/-- Ten routed wires in chunks of eight: the last chunk is not full. -/
def tenRoutedWires : CommonCircuitData where
  numWires := 12
  numRoutedWires := 10
  numChallenges := 2
  maxQuotientDegreeFactor := 8
  zeroKnowledge := false
  rateBits := 3
  capHeight := 0
  numQueryRounds := 1
  degreeBits := 3
  reductionArityBits := [1]
  numConstants := 2
  numPublicInputs := 1
  numLookupPolys := 0
  arities_le := by decide
  quotientDegree_pow := standardQuotientDegree
  four_le_routed := by decide
  lde_le := by decide

end CommonCircuitData

end MegaZK
