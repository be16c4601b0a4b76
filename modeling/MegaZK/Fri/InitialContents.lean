import MegaZK.Fri.CommitStage
import MegaZK.Fri.FinalPolynomial
import MegaZK.Fri.Pow

/-! # What the buffers held before

From the final polynomial to the proof of work, with the buffers as they are handed out: nothing
clears them before a prove. -/

namespace MegaZK

open Horner

/-! ### Source -/

/-- The buffers that the prove finds after the openings. -/
structure ProofMemory where
  finalPoly : FinalPolyScratch GoldilocksField
  rounds : List FriCommitRound
  pow : Fri.PowBuffers

/-- What the host reads back of them. -/
structure ReadBack where
  coefficients : List QuadraticExtension
  roundLeaves : List (List QuadraticExtension)
  found : ℕ
  powWitness : GoldilocksField

namespace CommonCircuitData

variable (c : CommonCircuitData)

lemma numChallenges_le_numQuotients : c.numChallenges ≤ c.counts.numQuotients := by
  obtain ⟨k, hk⟩ := c.quotientDegree_pow
  have hpos : 0 < c.maxQuotientDegreeFactor := hk ▸ Nat.two_pow_pos k
  exact Nat.le_mul_of_pos_left _ hpos

lemma numPolys_pos : 0 < c.counts.numPolys := by
  have := c.four_le_routed
  simp only [PolyCounts.numPolys, counts]
  omega

lemma next_le_numPolys :
    c.counts.offset .partialProducts + c.numChallenges ≤ c.counts.numPolys := by
  have := c.numChallenges_le_numQuotients
  simp only [PolyCounts.numPolys, PolyCounts.offset]
  omega

/-- `final_poly_config`. -/
def finalPolyConfig : FinalPolyConfig where
  degreeBits := c.degreeBits
  rateBits := c.rateBits
  numPolys := c.counts.numPolys
  numNext := c.numChallenges
  nextStart := c.counts.offset .partialProducts
  polys_pos := c.numPolys_pos
  next_le := c.next_le_numPolys

/-- The buffers have their sizes. -/
structure Allocated (mem : ProofMemory) : Prop where
  finalPoly : mem.finalPoly.Allocated c.finalPolyConfig
  rounds : List.Forall₂ FriCommitRound.HasSize c.friCommitPartLens mem.rounds

variable (permute : (Fin 12 → GoldilocksField) → Fin 12 → GoldilocksField)
  (response : (Fin 12 → GoldilocksField) → ℕ) (proofOfWorkBits : ℕ)
  (schedule : ℕ → Fri.PowSchedule) (fpInputs : ℕ → GoldilocksField)
  (alpha zeta : QuadraticExtension)
  (transcript : ChallengerGpu GoldilocksField × List (Event GoldilocksField))

/-- `get_final_poly`, `fri_committed_trees` and the proof of work of `fri_prove`. -/
def proveFri (fuel : ℕ) (mem : ProofMemory) : Option ReadBack := do
  let g := QuadraticExtension.primitiveRootOfUnity c.degreeBits
  let s ← c.finalPolyConfig.compute fpInputs alpha zeta g mem.finalPoly
  let first ← mem.rounds.head?
  let leaves ← batchPadCosetExt c.degreeBits (u32 (2 ^ c.degreeBits)) 7 s.coefficients.cell
    first.leaves
  let leaves ← nttExtensionInplace (c.degreeBits + c.rateBits) 1 leaves
  let stage ← c.friCommitStage permute s.coefficients.cell
    ({ first with leaves } :: mem.rounds.tail) transcript
  let pow ← Fri.compute response (.ofChallenger stage.transcript.1 proofOfWorkBits) schedule fuel 0 0
    mem.pow
  return {
    coefficients := (List.range (2 ^ c.degreeBits)).map s.coefficients.cell
    roundLeaves := stage.rounds.map fun r => (List.range r.leaves.len).map r.leaves.cell
    found := pow.found
    powWitness := pow.witness }

/-- The values read back are the same whatever the buffers hold in the beginning. -/
def ContentsIrrelevant : Prop :=
  ∃ values, ∀ mem, c.Allocated mem →
    ∃ fuel, c.proveFri permute response proofOfWorkBits schedule fpInputs alpha zeta transcript fuel
      mem = some values

end CommonCircuitData

/-! ### The final polynomial over its buffers -/

section FinalPoly

variable {c : FinalPolyConfig}

lemma fpShiftAdd_small {degreeBits numPolys : ℕ} (h : degreeBits < 7)
    {quotient : ℕ → QuadraticExtension} {alpha : QuadraticExtension}
    {b b' : DeviceBuffer QuadraticExtension}
    (hb : fpShiftAdd degreeBits numPolys quotient alpha b = some b') : b' = b := by
  obtain ⟨nrows, hnrows, hb⟩ := Option.bind_eq_some_iff.mp hb
  obtain rfl : 2 ^ degreeBits = nrows := by
    rw [shlUnsigned, if_pos (by omega)] at hnrows
    exact Option.some.inj hnrows
  obtain ⟨ids, hids, hb⟩ := Option.bind_eq_some_iff.mp hb
  rw [shiftAddIds_nil h hids] at hb
  exact Option.some.inj (hb.symm.trans b.storeAll_nil)

/-- Below 128 coefficients the kernels leave what is there. -/
lemma compute_small (h : c.degreeBits < 7) {fpInputs : ℕ → GoldilocksField}
    {alpha zeta g : QuadraticExtension} {s out : FinalPolyScratch GoldilocksField}
    (hout : c.compute fpInputs alpha zeta g s = some out) :
    out.coefficients = s.coefficients := by
  have hreduce : ∀ {numPolys offset s s'}, c.reduce fpInputs alpha numPolys offset s = some s' →
      s'.coefficients = s.coefficients := by
    intro numPolys offset s s' hs
    obtain ⟨b, -, hs⟩ := Option.bind_eq_some_iff.mp hs
    cases hs
    rfl
  have hdivide : ∀ {order numPolys s s'},
      c.divideShiftAdd alpha zeta g order numPolys s = some s' →
        s'.coefficients = s.coefficients := by
    intro order numPolys s s' hs
    obtain ⟨q, -, hs⟩ := Option.bind_eq_some_iff.mp hs
    obtain ⟨b, hb, hs⟩ := Option.bind_eq_some_iff.mp hs
    cases hs
    exact fpShiftAdd_small h hb
  obtain ⟨s₁, hs₁, hout⟩ := Option.bind_eq_some_iff.mp hout
  obtain ⟨s₂, hs₂, hout⟩ := Option.bind_eq_some_iff.mp hout
  obtain ⟨s₃, hs₃, hs₄⟩ := Option.bind_eq_some_iff.mp hout
  rw [hdivide hs₄, hreduce hs₃, hdivide hs₂, hreduce hs₁]

/-- Scratch with `q` in every element of the quotient and `x` in every coefficient. -/
def FinalPolyScratch.filled (c : FinalPolyConfig) (q x : QuadraticExtension) :
    FinalPolyScratch GoldilocksField :=
  ⟨⟨2 ^ c.degreeBits, 0⟩, ⟨2 ^ c.degreeBits + 1, fun _ => q⟩,
    ⟨(2 ^ c.degreeBits) <<< c.rateBits, fun _ => x⟩⟩

lemma FinalPolyScratch.allocated_filled (c : FinalPolyConfig) (q x : QuadraticExtension) :
    (FinalPolyScratch.filled c q x).Allocated c := ⟨rfl, rfl, rfl⟩

/-- A power that is zero and one that is minus one do not go together. -/
lemma not_pow_eq_neg_one {alpha : QuadraticExtension} {m n : ℕ} (hm : alpha ^ m = 0) :
    alpha ^ n ≠ -1 := by
  intro hn
  have hunit : IsUnit ((-1 : QuadraticExtension) ^ m) := isUnit_one.neg.pow m
  rw [← hn, ← pow_mul, mul_comm, pow_mul, hm] at hunit
  cases n with
  | zero =>
    rw [pow_zero] at hn
    exact QuadraticExtension.neg_one_ne_one hn.symm
  | succ n =>
    rw [zero_pow n.succ_ne_zero] at hunit
    exact not_isUnit_zero hunit

/-- The last coefficient is what was there, shifted, and the element after the quotient. -/
lemma compute_last (h : 7 ≤ c.degreeBits) (fpInputs : ℕ → GoldilocksField)
    (alpha zeta g : QuadraticExtension) {out : FinalPolyScratch GoldilocksField}
    (hout : c.compute fpInputs alpha zeta g (.filled c 0 0) = some out) :
    ∃ a b : QuadraticExtension, ∀ q x, ∃ out',
      c.compute fpInputs alpha zeta g (.filled c q x) = some out' ∧
        out'.coefficients.cell (2 ^ c.degreeBits - 1) =
          (x * alpha ^ u32 c.numPolys + (a + q)) * alpha ^ u32 c.numNext + (b + q) := by
  obtain ⟨h', hpolys, hnext⟩ := compute_bounds h hout
  have hpos : 0 < 2 ^ c.degreeBits := Nat.two_pow_pos _
  have hend : 2 ^ c.degreeBits - 1 + 1 = 2 ^ c.degreeBits := Nat.sub_add_cancel hpos
  refine ⟨quotientCoeff c.degreeBits (u32 c.numPolys)
      (fun i x => fpInputs (x + u32 (i * 2 ^ c.degreeBits))) alpha zeta (2 ^ c.degreeBits - 1),
    quotientCoeff c.degreeBits (u32 c.numNext) (fun i x => fpInputs
      (u32 (u32 c.nextStart * 2 ^ c.degreeBits) + x + u32 (i * 2 ^ c.degreeBits))) alpha (zeta * g)
        (2 ^ c.degreeBits - 1), fun q x => ?_⟩
  obtain ⟨out', hout', hcell⟩ := compute_spec h h' hpolys hnext fpInputs alpha zeta g
    (FinalPolyScratch.allocated_filled c q x)
  refine ⟨out', hout', ?_⟩
  rw [hcell _ (by omega), FinalPolyScratch.lastIf, if_pos hend]
  rfl

/-- No values are those of every content. -/
lemma FinalPolyConfig.contents_matter (c : FinalPolyConfig) (fpInputs : ℕ → GoldilocksField)
    (alpha zeta g : QuadraticExtension) (values : List QuadraticExtension) :
    ¬ ∀ s : FinalPolyScratch GoldilocksField, s.Allocated c →
      ∃ out, c.compute fpInputs alpha zeta g s = some out ∧
        (List.range (2 ^ c.degreeBits)).map out.coefficients.cell = values := by
  intro hall
  have hpos : 0 < 2 ^ c.degreeBits := Nat.two_pow_pos _
  have hsame : ∀ q x out, c.compute fpInputs alpha zeta g (.filled c q x) = some out →
      ∀ k < 2 ^ c.degreeBits, out.coefficients.cell k = values.getD k 0 := by
    intro q x out hout k hk
    obtain ⟨out', hout', hvalues⟩ := hall _ (FinalPolyScratch.allocated_filled c q x)
    obtain rfl : out = out' := Option.some.inj (hout.symm.trans hout')
    rw [← hvalues]
    simp [List.getD_eq_getElem?_getD, hk]
  obtain ⟨out, hout, -⟩ := hall _ (FinalPolyScratch.allocated_filled c 0 0)
  by_cases h : c.degreeBits < 7
  · obtain ⟨out', hout', -⟩ := hall _ (FinalPolyScratch.allocated_filled c 0 1)
    have hzero := hsame _ _ _ hout 0 hpos
    have hone := hsame _ _ _ hout' 0 hpos
    rw [compute_small h hout] at hzero
    rw [compute_small h hout'] at hone
    exact one_ne_zero (hone.trans hzero.symm)
  · obtain ⟨a, b, hlast⟩ := compute_last (not_lt.mp h) fpInputs alpha zeta g hout
    have heq : ∀ q x, (x * alpha ^ u32 c.numPolys + (a + q)) * alpha ^ u32 c.numNext + (b + q) =
        values.getD (2 ^ c.degreeBits - 1) 0 := by
      intro q x
      obtain ⟨out', hout', hcell⟩ := hlast q x
      rw [← hcell]
      exact hsame q x out' hout' _ (by omega)
    have hquotient : alpha ^ u32 c.numNext = -1 := by
      linear_combination heq 1 0 - heq 0 0
    have hcoeff : alpha ^ u32 c.numPolys * alpha ^ u32 c.numNext = 0 := by
      linear_combination heq 0 1 - heq 0 0
    rw [hquotient, mul_neg_one, neg_eq_zero] at hcoeff
    exact not_pow_eq_neg_one hcoeff hquotient

end FinalPoly

/-! ### Every circuit -/

namespace CommonCircuitData

variable (c : CommonCircuitData) (permute : (Fin 12 → GoldilocksField) → Fin 12 → GoldilocksField)
  (response : (Fin 12 → GoldilocksField) → ℕ) (proofOfWorkBits : ℕ)
  (schedule : ℕ → Fri.PowSchedule) (fpInputs : ℕ → GoldilocksField)
  (alpha zeta : QuadraticExtension)
  (transcript : ChallengerGpu GoldilocksField × List (Event GoldilocksField))

lemma exists_allocated (pow : Fri.PowBuffers) :
    ∃ rounds, ∀ s, s.Allocated c.finalPolyConfig → c.Allocated ⟨s, rounds, pow⟩ := by
  have hsum : c.reductionArityBits.sum ≤ c.ldeBits :=
    (Nat.le_add_right _ c.capHeight).trans c.arities_le
  obtain ⟨rounds, hsizes, -⟩ := exists_rounds c.reductionArityBits hsum
  rw [← friCommitPartLens_eq] at hsizes
  exact ⟨rounds, fun s hs => ⟨hs, hsizes⟩⟩

variable {c permute response proofOfWorkBits schedule fpInputs alpha zeta transcript}

/-- The coefficients that are read back are those of the final polynomial. -/
lemma proveFri_coefficients {fuel : ℕ} {mem : ProofMemory} {values : ReadBack}
    (hrun : c.proveFri permute response proofOfWorkBits schedule fpInputs alpha zeta transcript fuel
      mem = some values) :
    ∃ out, c.finalPolyConfig.compute fpInputs alpha zeta
        (QuadraticExtension.primitiveRootOfUnity c.degreeBits) mem.finalPoly = some out ∧
      (List.range (2 ^ c.degreeBits)).map out.coefficients.cell = values.coefficients := by
  obtain ⟨out, hout, hrun⟩ := Option.bind_eq_some_iff.mp hrun
  obtain ⟨first, -, hrun⟩ := Option.bind_eq_some_iff.mp hrun
  obtain ⟨leaves, -, hrun⟩ := Option.bind_eq_some_iff.mp hrun
  obtain ⟨leaves', -, hrun⟩ := Option.bind_eq_some_iff.mp hrun
  obtain ⟨stage, -, hrun⟩ := Option.bind_eq_some_iff.mp hrun
  obtain ⟨pow, -, hrun⟩ := Option.bind_eq_some_iff.mp hrun
  cases hrun
  exact ⟨out, hout, rfl⟩

/-- Values of every content would be coefficients of every content. -/
lemma ContentsIrrelevant.elim (h : c.ContentsIrrelevant permute response proofOfWorkBits schedule
    fpInputs alpha zeta transcript) : False := by
  obtain ⟨values, hall⟩ := h
  obtain ⟨rounds, hrounds⟩ := c.exists_allocated Fri.clearedBuffers
  refine c.finalPolyConfig.contents_matter fpInputs alpha zeta
    (QuadraticExtension.primitiveRootOfUnity c.degreeBits) values.coefficients fun s hs => ?_
  obtain ⟨fuel, hrun⟩ := hall _ (hrounds s hs)
  exact proveFri_coefficients hrun

/-- What the host reads back depends on what the buffers held, for every circuit and input: the
coefficients of the final polynomial are added to what is there. -/
theorem not_contentsIrrelevant (c : CommonCircuitData)
    (permute : (Fin 12 → GoldilocksField) → Fin 12 → GoldilocksField)
    (response : (Fin 12 → GoldilocksField) → ℕ) (proofOfWorkBits : ℕ)
    (schedule : ℕ → Fri.PowSchedule) (fpInputs : ℕ → GoldilocksField)
    (alpha zeta : QuadraticExtension)
    (transcript : ChallengerGpu GoldilocksField × List (Event GoldilocksField)) :
    ¬ c.ContentsIrrelevant permute response proofOfWorkBits schedule fpInputs alpha zeta
      transcript := by
  intro h
  exact h.elim

/-- Polynomials that are all zero, in the standard recursion configuration. -/
theorem not_contentsIrrelevant_zero :
    ¬ standardRecursion.ContentsIrrelevant (Poseidon.poseidon Poseidon.hostRoundConstants)
      Fri.hostResponse 16 (Fri.atOnce Fri.newInput) (fun _ => 0) 1 1 (.new, []) := by
  intro h
  exact h.elim

end CommonCircuitData

end MegaZK
