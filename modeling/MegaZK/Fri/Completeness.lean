import MegaZK.Fri.Combination
import MegaZK.Fri.QueryPhase

/-! # Completeness of FRI

Whatever polynomials are committed and whatever points they are opened at outside of the domain, a
proof of `prove_openings` is accepted by `verify_fri_proof`, with the challenges that the verifier
derives from the proof. -/

namespace MegaZK

open Horner LinearDivision PolynomialCoeffs Verification
open scoped QuadraticField

/-! ### The committed leaves -/

lemma transpose_map_columns {cols : List (ℕ → GoldilocksField)} (hne : cols ≠ []) (n : ℕ) :
    transpose (cols.map fun g => (List.range n).map g) =
      some ((List.range n).map fun j => cols.map fun g => g j) := by
  have hcols : ∀ {α : Type} (φ : (ℕ → GoldilocksField) → α),
      cols.map φ = (List.range cols.length).map fun i => φ (cols.getD i 0) := by
    intro α φ
    apply List.ext_getElem
    · simp
    · intro i hi _
      have hi : i < cols.length := by simpa using hi
      simp [hi]
  rw [hcols, transpose_map_range (fun j i => cols.getD i 0 j) (List.length_pos_of_ne_nil hne)]
  simp only [hcols fun g => g _]

section Commitment

variable {permute : (Fin 12 → GoldilocksField) → Fin 12 → GoldilocksField}

/-- The leaf at index `x`: the values of the polynomials, and the salt. -/
def committedLeaf (polynomials : List (List GoldilocksField)) (salted : Bool)
    (salt : ℕ → ℕ → GoldilocksField) (bits x : ℕ) : List GoldilocksField :=
  (polynomials.map fun p =>
    evalSum (p.getD · 0) p.length (7 * primitiveRootOfUnity bits ^ reverseBits x bits)) ++
    (List.range (saltSize salted)).map fun s => salt s (reverseBits x bits)

/-- What `from_coeffs` commits to. -/
lemma PolynomialBatch.fromCoeffs_eq {rateBits capHeight degreeBits : ℕ} {salted : Bool}
    {salt : ℕ → ℕ → GoldilocksField} {polynomials : List (List GoldilocksField)}
    (hne : polynomials ≠ []) (hlen : ∀ p ∈ polynomials, p.length = 2 ^ degreeBits) :
    fromCoeffs permute rateBits capHeight salted salt polynomials =
      (MerkleTree.new permute ((List.range (2 ^ (degreeBits + rateBits))).map
        (committedLeaf polynomials salted salt (degreeBits + rateBits))) capHeight).map
          fun merkleTree => { polynomials, merkleTree } := by
  obtain ⟨first, rest, rfl⟩ := List.exists_cons_of_ne_nil hne
  set polynomials := first :: rest with hpolynomials
  have hfirst : first.length = 2 ^ degreeBits := hlen first (List.mem_cons_self ..)
  have hsame : ∀ p ∈ polynomials, p.length = 2 ^ degreeBits := hlen
  have hshift : 2 ^ degreeBits <<< rateBits = 2 ^ (degreeBits + rateBits) := by
    rw [Nat.shiftLeft_eq, ← pow_add]
  set n := degreeBits + rateBits with hn
  -- the columns as functions of the index before the reversal
  set column : List GoldilocksField → ℕ → GoldilocksField := fun p i =>
    evalSum (p.getD · 0) p.length (primitiveRootOfUnity n ^ i * 7) with hcolumn
  have hldes : polynomials.mapM (ldeValues rateBits) =
      some (polynomials.map fun p => (List.range (2 ^ n)).map (column p)) := by
    apply Fold.mapM_eq_some_map
    intro p hp
    rw [ldeValues]
    simp only [hlen p hp, hshift, log2Strict_two_pow, Option.bind_eq_bind, Option.bind_some,
      Option.pure_def, hcolumn, hn]
  set cols := polynomials.map column ++ (List.range (saltSize salted)).map salt with hcols
  have hcols_ne : cols ≠ [] := List.append_ne_nil_of_left_ne_nil (List.cons_ne_nil _ _) _
  have htranspose := transpose_map_columns hcols_ne (2 ^ n)
  rw [hcols, List.map_append, List.map_map, List.map_map] at htranspose
  have hleaf : committedLeaf polynomials salted salt n =
      fun x => cols.map fun g => g (reverseBits x n) := by
    funext x
    simp only [committedLeaf, hcols, List.map_append, List.map_map, Function.comp_def, hcolumn,
      mul_comm]
  have hhead : polynomials.head? = some first := rfl
  have hvalues : (polynomials.map fun p => (List.range (2 ^ n)).map (column p)) ++
      ((List.range (saltSize salted)).map fun s => (List.range (2 ^ n)).map (salt s)) =
        polynomials.map ((fun g => (List.range (2 ^ n)).map g) ∘ column) ++
          (List.range (saltSize salted)).map ((fun g => (List.range (2 ^ n)).map g) ∘ salt) := rfl
  rw [fromCoeffs, hhead]
  simp only [Option.bind_eq_bind, Option.bind_some, hfirst, guard, if_pos hsame, Option.pure_def,
    hldes, hshift, hvalues, htranspose, reverseIndexBitsInPlace_map_range, hleaf]
  rw [Option.map_eq_bind]
  rfl

lemma PolynomialBatch.fromCoeffs_eq_some {rateBits capHeight degreeBits : ℕ} {salted : Bool}
    {salt : ℕ → ℕ → GoldilocksField} {polynomials : List (List GoldilocksField)}
    {b : PolynomialBatch} (hlen : ∀ p ∈ polynomials, p.length = 2 ^ degreeBits)
    (h : fromCoeffs permute rateBits capHeight salted salt polynomials = some b) :
    b.polynomials = polynomials ∧ MerkleTree.new permute
      ((List.range (2 ^ (degreeBits + rateBits))).map
        (committedLeaf polynomials salted salt (degreeBits + rateBits))) capHeight =
          some b.merkleTree := by
  have hne : polynomials ≠ [] := by
    rintro rfl
    cases h
  rw [fromCoeffs_eq hne hlen] at h
  obtain ⟨tree, htree, rfl⟩ := Option.map_eq_some_iff.mp h
  exact ⟨rfl, htree⟩

/-- Polynomials of one size can be committed to. -/
lemma PolynomialBatch.exists_fromCoeffs (permute : (Fin 12 → GoldilocksField) → Fin 12 →
    GoldilocksField) {rateBits capHeight degreeBits : ℕ} (hcap : capHeight ≤ degreeBits + rateBits)
    (salted : Bool) (salt : ℕ → ℕ → GoldilocksField) {polynomials : List (List GoldilocksField)}
    (hne : polynomials ≠ []) (hlen : ∀ p ∈ polynomials, p.length = 2 ^ degreeBits) :
    ∃ b, fromCoeffs permute rateBits capHeight salted salt polynomials = some b := by
  obtain ⟨tree, htree⟩ := MerkleTree.exists_new permute
    (committedLeaf polynomials salted salt (degreeBits + rateBits)) hcap
  rw [fromCoeffs_eq hne hlen, htree]
  exact ⟨_, rfl⟩

end Commitment

/-! ### The initial proofs -/

section Initial

variable (permute : (Fin 12 → GoldilocksField) → Fin 12 → GoldilocksField)
  (c : CommonCircuitData)

/-- A commitment to as many polynomials as the oracle has, of the degree of the circuit. -/
def CommonCircuitData.Commits (oracle : FriOracleInfo) (b : PolynomialBatch) : Prop :=
  ∃ salt polynomials, polynomials.length = oracle.numPolys ∧
    (∀ p ∈ polynomials, p.length = 2 ^ c.degreeBits) ∧
    PolynomialBatch.fromCoeffs permute c.rateBits c.capHeight (c.zeroKnowledge && oracle.blinding)
      salt polynomials = some b

/-- What the leaf of a query and its proof are to the verifier. -/
structure CommonCircuitData.OpensOracle (x : ℕ) (oracle : FriOracleInfo) (b : PolynomialBatch)
    (leaf : List GoldilocksField) (siblings : List (List GoldilocksField)) : Prop where
  leaf_length : leaf.length = oracle.numPolys + saltSize (oracle.blinding && c.zeroKnowledge)
  path_length : siblings.length + c.capHeight = c.ldeBits
  accepted : verifyMerkleProof permute leaf x (proofOf b.merkleTree.cap) siblings = pure ()
  values : ∀ (k : ℕ) (poly : List GoldilocksField), b.polynomials[k]? = some poly →
    k < oracle.numPolys ∧ leaf[k]? = some (evalSum (poly.getD · 0) poly.length
      (7 * primitiveRootOfUnity c.ldeBits ^ reverseBits x c.ldeBits))

variable {permute c}

/-- The leaf that the prover opens. -/
lemma CommonCircuitData.Commits.opens {oracle : FriOracleInfo} {b : PolynomialBatch}
    (h : c.Commits permute oracle b) {x : ℕ} (hx : x < 2 ^ c.ldeBits) :
    ∃ leaf siblings, b.merkleTree.get x = some leaf ∧ b.merkleTree.prove x = some siblings ∧
      c.OpensOracle permute x oracle b leaf (proofOf siblings) := by
  obtain ⟨salt, polynomials, hcount, hlen, hb⟩ := h
  obtain ⟨hpolys, htree⟩ := PolynomialBatch.fromCoeffs_eq_some hlen hb
  have hbits : c.degreeBits + c.rateBits = c.ldeBits := rfl
  rw [hbits] at htree
  set leafAt := committedLeaf polynomials (c.zeroKnowledge && oracle.blinding) salt c.ldeBits
    with hleafAt
  obtain ⟨siblings, hget, hprove, hlength, hverify⟩ :=
    MerkleTree.verifyMerkleProof_prove (by simp) hx htree
  have hleaf : ((List.range (2 ^ c.ldeBits)).map leafAt).getD x [] = leafAt x := by
    simp [List.getD_eq_getElem?_getD, hx]
  rw [hleaf] at hget hverify
  have hcap := c.arities_le
  refine ⟨_, siblings, hget, hprove, ⟨?_, ?_, hverify, ?_⟩⟩
  · simp only [hleafAt, committedLeaf, List.length_append, List.length_map, List.length_range,
      hcount, Bool.and_comm]
  · rw [length_proofOf, hlength]
    omega
  · intro k poly hk
    rw [hpolys] at hk
    obtain ⟨hlt, heq⟩ := List.getElem?_eq_some_iff.mp hk
    refine ⟨hcount ▸ hlt, ?_⟩
    rw [hleafAt, committedLeaf, List.getElem?_append_left (by simpa using hlt), List.getElem?_map,
      hk]
    rfl

/-- The proofs of one query are proofs of the leaves of all oracles. -/
lemma exists_initialTreesProof {oracles : List FriOracleInfo} {batches : List PolynomialBatch}
    (h : List.Forall₂ (c.Commits permute) oracles batches) {x : ℕ} (hx : x < 2 ^ c.ldeBits) :
    ∃ proof : List (List GoldilocksField × List (List GoldilocksField)),
      ((batches.map (·.merkleTree)).mapM fun tree => do
        let leaf ← tree.get x
        let siblings ← tree.prove x
        return (leaf, proofOf siblings)) = some proof ∧ proof.length = oracles.length ∧
      ∀ (j : ℕ) b, batches[j]? = some b → ∃ oracle e, oracles[j]? = some oracle ∧
        proof[j]? = some e ∧ c.OpensOracle permute x oracle b e.1 e.2 := by
  induction h with
  | nil => exact ⟨[], rfl, rfl, fun j b hb => by simp at hb⟩
  | @cons oracle b oracles batches hb _ ih =>
    obtain ⟨proof, hproof, hlength, hall⟩ := ih
    obtain ⟨leaf, siblings, hget, hprove, hopens⟩ := hb.opens hx
    refine ⟨(leaf, proofOf siblings) :: proof, ?_, by simp [hlength], ?_⟩
    · rw [List.map_cons, List.mapM_cons, hget, hprove, hproof]
      rfl
    · intro j b' hb'
      cases j with
      | zero =>
        obtain rfl : b = b' := by simpa using hb'
        exact ⟨oracle, _, rfl, rfl, hopens⟩
      | succ j => simpa using hall j b' (by simpa using hb')

/-- The leaf of every oracle of a query is opened. -/
def CommonCircuitData.OpensOracles (permute : (Fin 12 → GoldilocksField) → Fin 12 → GoldilocksField)
    (c : CommonCircuitData) (oracles : List PolynomialBatch) (x : ℕ)
    (proof : List (List GoldilocksField × List (List GoldilocksField))) : Prop :=
  ∀ (j : ℕ) b, oracles[j]? = some b → ∃ oracle e, c.friOracles[j]? = some oracle ∧
    proof[j]? = some e ∧ c.OpensOracle permute x oracle b e.1 e.2

namespace CommonCircuitData.OpensOracles

variable {oracles : List PolynomialBatch} {x : ℕ}
  {proof : List (List GoldilocksField × List (List GoldilocksField))}

lemma verifies (h : c.OpensOracles permute oracles x proof) :
    friVerifyInitialProof permute x proof
      (oracles.map fun oracle => proofOf oracle.merkleTree.cap) = pure () := by
  apply forM_eq_pure
  intro p hp
  obtain ⟨j, hj⟩ := List.mem_iff_getElem?.mp hp
  obtain ⟨he, hcap⟩ := List.getElem?_zip_eq_some.mp hj
  rw [List.getElem?_map] at hcap
  obtain ⟨b, hb, hcap⟩ := Option.map_eq_some_iff.mp hcap
  obtain ⟨_, e, -, he', hopens⟩ := h j b hb
  obtain rfl : p.1 = e := Option.some.inj (he.symm.trans he')
  rw [← hcap]
  exact hopens.accepted

lemma opensAt (h : c.OpensOracles permute oracles x proof) :
    c.OpensAt oracles proof (7 * primitiveRootOfUnity c.ldeBits ^ reverseBits x c.ldeBits) := by
  intro p poly hpoly
  obtain ⟨b, hb, hpoly⟩ := Option.bind_eq_some_iff.mp hpoly
  obtain ⟨oracle, e, horacle, he, hopens⟩ := h _ b hb
  obtain ⟨hlt, hvalue⟩ := hopens.values _ poly hpoly
  have hlength := hopens.leaf_length
  rw [unsaltedEval, horacle, Option.bind_eq_bind, Option.bind_some, he, Option.bind_eq_bind,
    Option.bind_some, Bool.and_comm, hlength, Nat.add_sub_cancel, sliceRange, if_pos (by omega)]
  simpa [hlt] using hvalue

lemma validates (h : c.OpensOracles permute oracles x proof)
    (hlen : proof.length = oracles.length) : ∀ po ∈ proof.zip c.friOracles,
      po.1.1.length = po.2.numPolys + saltSize (po.2.blinding && c.zeroKnowledge) ∧
        po.1.2.length + c.capHeight = c.ldeBits := by
  intro po hpo
  obtain ⟨j, hj⟩ := List.mem_iff_getElem?.mp hpo
  obtain ⟨he, horacle⟩ := List.getElem?_zip_eq_some.mp hj
  have hlt : j < oracles.length := by
    rw [← hlen]
    exact (List.getElem?_eq_some_iff.mp he).1
  obtain ⟨oracle, e, horacle', he', hopens⟩ := h j _ (List.getElem?_eq_getElem hlt)
  obtain rfl : po.1 = e := Option.some.inj (he.symm.trans he')
  obtain rfl : po.2 = oracle := Option.some.inj (horacle.symm.trans horacle')
  exact ⟨hopens.leaf_length, hopens.path_length⟩

end CommonCircuitData.OpensOracles

end Initial

/-! ### The rounds -/

section Rounds

variable {permute : (Fin 12 → GoldilocksField) → Fin 12 → GoldilocksField} {c : CommonCircuitData}

/-- The codeword of a final polynomial, before the first folding. -/
def CommonCircuitData.codeword (c : CommonCircuitData) (finalPoly : List QuadraticExtension) :
    Codeword where
  bits := c.ldeBits
  shift := 7
  coeffs k := finalPoly.getD k 0

lemma CommonCircuitData.codeword_value (c : CommonCircuitData)
    {finalPoly : List QuadraticExtension} (hlen : finalPoly.length ≤ 2 ^ c.ldeBits) (x : ℕ) :
    (c.codeword finalPoly).value x =
      value (.C (7 * primitiveRootOfUnity c.ldeBits ^ reverseBits x c.ldeBits)) finalPoly := by
  rw [value_eq_of_le _ hlen]
  rfl

/-- `lde`: the coefficients, padded. -/
lemma CommonCircuitData.padded_eq (c : CommonCircuitData) {finalPoly : List QuadraticExtension}
    (hlen : finalPoly.length = 2 ^ c.degreeBits) :
    finalPoly ++ List.replicate ((finalPoly.length <<< c.rateBits) - finalPoly.length) 0 =
      (List.range (2 ^ c.ldeBits)).map (finalPoly.getD · 0) := by
  have hsize : finalPoly.length <<< c.rateBits = 2 ^ c.ldeBits := by
    rw [hlen, Nat.shiftLeft_eq, ← pow_add, ldeBits]
  have hle : finalPoly.length ≤ 2 ^ c.ldeBits := by
    rw [hlen]
    exact Nat.pow_le_pow_right Nat.two_pos (Nat.le_add_right _ _)
  apply List.ext_getElem
  · rw [List.length_append, List.length_replicate, List.length_map, List.length_range, hsize]
    omega
  · intro k _ _
    rw [List.getElem_append]
    split_ifs with hk
    · simp [hk]
    · simp [not_lt.mp hk]

/-- What `prove_openings` hands to `fri_proof`. -/
lemma CommonCircuitData.codeword_heldBy (c : CommonCircuitData)
    {finalPoly : List QuadraticExtension} (hlen : finalPoly.length = 2 ^ c.degreeBits)
    (t : Challenger GoldilocksField × List (Event GoldilocksField)) :
    let ldeFinalPoly := finalPoly ++ List.replicate
      ((finalPoly.length <<< c.rateBits) - finalPoly.length) 0
    ∃ values, PolynomialCoeffs.cosetFft ldeFinalPoly (.C 7) = some values ∧
      ldeFinalPoly.length = 2 ^ c.ldeBits ∧ values.length = 2 ^ c.ldeBits ∧
      (c.codeword finalPoly).HeldBy
        { coeffs := ldeFinalPoly, values, shift := 7, transcript := t } := by
  intro ldeFinalPoly
  have hpadded : ldeFinalPoly = _ := c.padded_eq hlen
  rw [hpadded, cosetFft_map_range]
  exact ⟨_, rfl, by simp, by simp, ⟨rfl, rfl, rfl⟩⟩

/-- The coefficients that are kept have the values of the last codeword. -/
lemma Codeword.HeldBy.finalPoly {w : Codeword} {loop : CommittedLoop} (h : w.HeldBy loop)
    {m r : ℕ} (hbits : w.bits = m + r) (hzero : ∀ k, 2 ^ m ≤ k → w.coeffs k = 0)
    {finalPoly : List (GoldilocksField × GoldilocksField)}
    (hkept : finalPoly = (loop.coeffs.take (loop.coeffs.length >>> r)).map pairOf) :
    finalPoly.length = 2 ^ m ∧
      ∀ y, horner ((finalPoly.map extensionOf).getD · 0) (finalPoly.map extensionOf).length
        (.C (w.point y)) = w.value y := by
  have hle : 2 ^ m ≤ 2 ^ w.bits := Nat.pow_le_pow_right Nat.two_pos (by omega)
  have hcoeffs : finalPoly.map extensionOf = (List.range (2 ^ m)).map w.coeffs := by
    rw [hkept, h.coeffs, List.length_map, List.length_range, hbits, two_pow_shiftRight (by omega),
      Nat.add_sub_cancel, ← List.map_take, List.take_range, min_eq_left (hbits ▸ hle), List.map_map,
      List.map_map]
    rfl
  have hlen := congrArg List.length hcoeffs
  rw [List.length_map, List.length_map, List.length_range] at hlen
  refine ⟨hlen, fun y => ?_⟩
  rw [List.length_map, hlen, horner_eq, value, evalSum_of_le hle hzero, hcoeffs]
  apply evalSum_congr
  intro k hk
  simp [List.getD_eq_getElem?_getD, hk]

/-- A query of the prover passes the checks of the verifier. -/
lemma verifyQueryRound {i : FriInstance c} {oracles : List PolynomialBatch}
    (horacles : List.Forall₂ (c.Commits permute) c.friOracles oracles)
    (hpoints : ∀ b ∈ i.batches, ∀ k,
      (.C (7 * primitiveRootOfUnity c.ldeBits ^ k) : QuadraticExtension) ≠ b.point)
    {fbs : List (FriBatch GoldilocksField)} {openings : List (List QuadraticExtension)}
    (hfbs : i.batches.mapM (CommonCircuitData.batchOf oracles) = some fbs)
    (hopenings : i.batches.mapM (CommonCircuitData.openBatch oracles) = some openings)
    {challenges : FriChallenges}
    (hlen : (provedFinalPoly challenges.friAlpha fbs).length ≤ 2 ^ c.ldeBits)
    {w : Codeword} {trees : List (MerkleTree GoldilocksField)}
    (hfold : Foldings permute c.capHeight (c.codeword (provedFinalPoly challenges.friAlpha fbs))
      c.reductionArityBits trees challenges.friBetas w)
    {proof : FriProof GoldilocksField}
    (hcaps : proof.commitPhaseMerkleCaps = trees.map fun tree => proofOf tree.cap)
    (hfinal : ∀ y, horner ((proof.finalPoly.map extensionOf).getD · 0)
      (proof.finalPoly.map extensionOf).length (.C (w.point y)) = w.value y)
    {x : ℕ} (hx : x < 2 ^ c.ldeBits) {round : FriQueryRound GoldilocksField}
    (hround : friProverQueryRound c.reductionArityBits (oracles.map (·.merkleTree)) trees x =
      some round) :
    c.validateQueryRound round = .ok () ∧
      c.friVerifierQueryRound permute i challenges
        (reducedOpenings openings challenges.friAlpha)
        (oracles.map fun oracle => proofOf oracle.merkleTree.cap) proof x round = pure () := by
  obtain ⟨initial, hinitial, hcount, hopens⟩ := exists_initialTreesProof horacles hx
  have hopens : c.OpensOracles permute oracles x initial := hopens
  obtain ⟨steps, hsteps, hnum, hvalid, hrun⟩ := hfold.exists_steps c c.arities_le c.lde_le
    (by change (7 : GoldilocksField) ≠ 0; decide) hx
  rw [friProverQueryRound, hinitial, Option.bind_eq_bind, Option.bind_some, hsteps] at hround
  cases hround
  refine ⟨?_, ?_⟩
  · rw [CommonCircuitData.validateQueryRound]
    simp only [bind_unit_eq_ok, ensure_eq_ok, forM_eq_ok]
    exact ⟨hcount, hopens.validates (hcount.trans horacles.length_eq), hnum, hvalid⟩
  · have hvalue := combineBatches_eq hopens.opensAt hfbs hopenings
      (fun b hb => hpoints b hb _) ⟨challenges.friAlpha, 0⟩ []
    have hzero : value (.C (7 * primitiveRootOfUnity c.ldeBits ^ reverseBits x c.ldeBits))
      ([] : List QuadraticExtension) = 0 := rfl
    rw [hzero] at hvalue
    rw [CommonCircuitData.friVerifierQueryRound, hopens.verifies, pure_bind]
    dsimp only
    rw [CommonCircuitData.friCombineInitial, hvalue, unwrap_some, pure_bind]
    have hlast := hrun challenges proof
      { initialTreesProof := initial, steps } 0 rfl hcaps rfl
    rw [c.codeword_value hlen] at hlast
    refine hlast.trans ?_
    rw [verifyReductions]
    exact ensure_of (hfinal _) _

end Rounds

/-! ### The proof -/

section Proof

variable {permute : (Fin 12 → GoldilocksField) → Fin 12 → GoldilocksField}

lemma guard_stateT {σ : Type} {p : Prop} [Decidable p] {s : σ} {r : Unit × σ}
    (h : (guard p : StateT σ Option Unit) s = some r) : p ∧ r.2 = s := by
  rw [guard] at h
  split_ifs at h with hp
  · cases h
    exact ⟨hp, rfl⟩
  · cases h

lemma guard_stateT_of {σ : Type} {p : Prop} [Decidable p] (hp : p) (s : σ) :
    (guard p : StateT σ Option Unit) s = some ((), s) := by
  rw [guard, if_pos hp]
  rfl

/-- What `prove_openings` returns, with the challengers between its phases. -/
lemma CommonCircuitData.proveOpenings_eq_some {c : CommonCircuitData} {i : FriInstance c}
    {oracles : List PolynomialBatch} {powWitness : GoldilocksField}
    {t t' : Challenger GoldilocksField × List (Event GoldilocksField)}
    {proof : FriProof GoldilocksField}
    (h : c.proveOpenings permute i oracles powWitness t = some (proof, t')) :
    let alpha := Host.sample permute extensionDegree t
    ∃ fbs values committed rounds, i.batches.mapM (batchOf oracles) = some fbs ∧
      let finalPoly := provedFinalPoly ⟨alpha.1.getD 0 0, alpha.1.getD 1 0⟩ fbs
      let ldeFinalPoly := finalPoly ++ List.replicate
        ((finalPoly.length <<< c.rateBits) - finalPoly.length) 0
      PolynomialCoeffs.cosetFft ldeFinalPoly (.C 7) = some values ∧
      ldeFinalPoly.length = values.length ∧
      MegaZK.friCommittedTrees permute c.rateBits c.capHeight c.reductionArityBits ldeFinalPoly
        values alpha.2 = some committed ∧
      let response := Host.sample permute 1 (Host.observe permute [powWitness]
        committed.transcript).2
      Fri.minLeadingZeros i.proofOfWorkBits ≤ Fri.leadingZeros (response.1.getD 0 0).val ∧
      let rands := Host.sample permute c.numQueryRounds response.2
      rands.1.mapM (fun rand => friProverQueryRound c.reductionArityBits
        (oracles.map (·.merkleTree)) committed.trees (rand.val % values.length)) = some rounds ∧
      proof = { commitPhaseMerkleCaps := committed.trees.map fun tree => proofOf tree.cap
                queryRoundProofs := rounds
                finalPoly := committed.coeffs.map pairOf
                powWitness } ∧ t' = rands.2 := by
  simp only [proveOpenings, friProof, friProofOfWork, bind, StateT.bind, StateT.lift,
    pure, StateT.pure, Option.bind_eq_some_iff, Option.map_eq_some_iff, Option.some.injEq,
    Prod.mk.injEq] at h
  obtain ⟨_, rfl, _, ⟨fbs, hfbs, rfl⟩, _, ⟨values, hvalues, rfl⟩, _, hguard, _,
    ⟨committed, hcommitted, rfl⟩, _, ⟨_, rfl, hpow⟩, _, rfl, _, ⟨rounds, hrounds, rfl⟩, hproof,
    ht'⟩ := h
  obtain ⟨hsize, hsame⟩ := guard_stateT hguard
  obtain ⟨hpow, hsame'⟩ := guard_stateT hpow
  rw [hsame] at hcommitted
  rw [hsame'] at hrounds ht'
  exact ⟨fbs, values, committed, rounds, hfbs, hvalues, hsize, hcommitted, hpow, hrounds,
    hproof.symm, ht'.symm⟩

lemma length_getNChallenges {F : Type} [Zero F] (permute : (Fin 12 → F) → Fin 12 → F)
    (ch : Challenger F) (n : ℕ) : (ch.getNChallenges permute n).1.length = n := by
  induction n generalizing ch with
  | zero => rfl
  | succ n ih =>
    rw [Challenger.getNChallenges]
    exact congrArg Nat.succ (ih _)

/-- The challenges of the verifier are those that the prover was given. -/
lemma Host.friChallenges_eq (c : CommonCircuitData) {proof : FriProof GoldilocksField}
    {t t₁ : Challenger GoldilocksField × List (Event GoldilocksField)}
    {betas : List QuadraticExtension} {coeffs : List QuadraticExtension}
    (hbetas : Host.foldingBetas permute proof.commitPhaseMerkleCaps
      (Host.sample permute extensionDegree t).2 = (betas, t₁))
    (hcoeffs : proof.finalPoly = coeffs.map pairOf) :
    let alpha := (Host.sample permute extensionDegree t).1
    let t₂ := (Host.observeAll permute (coeffs.map fun e => [e.re, e.im]) t₁).2
    let response := Host.sample permute 1 (Host.observe permute [proof.powWitness] t₂).2
    let rands := Host.sample permute c.numQueryRounds response.2
    Host.friChallenges permute c proof t =
      ({ friAlpha := ⟨alpha.getD 0 0, alpha.getD 1 0⟩
         friBetas := betas
         friPowResponse := response.1.getD 0 0
         friQueryIndices := rands.1.map fun s => s.val % 2 ^ c.ldeBits }, rands.2) := by
  have hbasefield : basefield proof.finalPoly = coeffs.map fun e => [e.re, e.im] := by
    rw [hcoeffs, basefield, List.map_map]
    rfl
  simp only [Host.friChallenges, hbasefield, bind, StateT.bind]
  rcases hsample : Host.sample permute extensionDegree t with ⟨alpha, t₀⟩
  rw [hsample] at hbetas
  dsimp only at hbetas ⊢
  rw [hbetas]
  rfl

/-! ### The theorem -/

variable {c : CommonCircuitData} {i : FriInstance c} {oracles : List PolynomialBatch}

lemma CommonCircuitData.Commits.degree {oracle : FriOracleInfo} {b : PolynomialBatch}
    (h : c.Commits permute oracle b) : ∀ p ∈ b.polynomials, p.length = 2 ^ c.degreeBits := by
  obtain ⟨salt, polynomials, -, hlen, hb⟩ := h
  rw [(PolynomialBatch.fromCoeffs_eq_some hlen hb).1]
  exact hlen

/-- The polynomials that are opened have the degree of the circuit. -/
lemma batchOf_degree (horacles : List.Forall₂ (c.Commits permute) c.friOracles oracles)
    {batch : FriBatchInfo} {fb : FriBatch GoldilocksField}
    (hfb : CommonCircuitData.batchOf oracles batch = some fb) :
    ∀ p ∈ fb.polynomials, p.length = 2 ^ c.degreeBits := by
  obtain ⟨polys, hpolys, hfb⟩ := Option.bind_eq_some_iff.mp hfb
  cases hfb
  intro p hp
  obtain ⟨info, -, hinfo⟩ := Fold.exists_of_mapM_eq_some hpolys hp
  obtain ⟨b, hb, hp⟩ := Option.bind_eq_some_iff.mp hinfo
  obtain ⟨hj, rfl⟩ := List.getElem?_eq_some_iff.mp hb
  have hcommits := horacles.get (horacles.length_eq ▸ hj) hj
  exact hcommits.degree p (List.mem_of_getElem? hp)

/-- One opened polynomial gives the final polynomial its size. -/
lemma length_provedFinalPoly (horacles : List.Forall₂ (c.Commits permute) c.friOracles oracles)
    (hopened : ∃ b ∈ i.batches, b.polynomials ≠ []) {fbs : List (FriBatch GoldilocksField)}
    (hfbs : i.batches.mapM (CommonCircuitData.batchOf oracles) = some fbs)
    (alpha : QuadraticExtension) : (provedFinalPoly alpha fbs).length = 2 ^ c.degreeBits := by
  refine length_proveBatches (Nat.two_pow_pos _) ?_ _ (Nat.zero_le _) (.inr ?_)
  · intro fb hfb
    obtain ⟨batch, -, hbatch⟩ := Fold.exists_of_mapM_eq_some hfbs hfb
    exact batchOf_degree horacles hbatch
  · obtain ⟨batch, hbatch, hne⟩ := hopened
    obtain ⟨fb, hfb, hpolys⟩ := Fold.exists_result_of_mapM_eq_some hfbs hbatch
    refine ⟨fb, hfb, ?_⟩
    obtain ⟨polys, hmap, h⟩ := Option.bind_eq_some_iff.mp hpolys
    cases h
    have hlen := Fold.length_of_mapM_eq_some hmap
    intro hempty
    have hempty : polys = [] := hempty
    rw [hempty, List.length_nil, eq_comm, List.length_eq_zero_iff] at hlen
    exact hne hlen

/-- The last folding leaves as many coefficients as the verifier expects. -/
lemma CommonCircuitData.finalPolyLen_eq (hle : c.reductionArityBits.sum ≤ c.degreeBits) :
    c.finalPolyLen = 2 ^ (c.degreeBits - c.reductionArityBits.sum) := by
  have hlde := c.lde_le
  have hmod : (c.degreeBits + 2 ^ 64 - c.reductionArityBits.sum) % 2 ^ 64 % 64 =
      c.degreeBits - c.reductionArityBits.sum := by omega
  rw [finalPolyLen, hmod, Nat.one_shiftLeft]

variable (permute) in
/-- A proof and the challenges of the verifier, with the foldings that they come from. -/
structure ProvedWith (i : FriInstance c) (oracles : List PolynomialBatch)
    (proof : FriProof GoldilocksField) (challenges : FriChallenges)
    (fbs : List (FriBatch GoldilocksField)) (trees : List (MerkleTree GoldilocksField))
    (w : Codeword) : Prop where
  batches : i.batches.mapM (CommonCircuitData.batchOf oracles) = some fbs
  foldings : Foldings permute c.capHeight (c.codeword (provedFinalPoly challenges.friAlpha fbs))
    c.reductionArityBits trees challenges.friBetas w
  caps : proof.commitPhaseMerkleCaps = trees.map fun tree => proofOf tree.cap
  finalPoly_length : proof.finalPoly.length = 2 ^ (c.degreeBits - c.reductionArityBits.sum)
  finalPoly : ∀ y, horner ((proof.finalPoly.map extensionOf).getD · 0)
    (proof.finalPoly.map extensionOf).length (.C (w.point y)) = w.value y
  pow : Fri.minLeadingZeros i.proofOfWorkBits ≤ Fri.leadingZeros challenges.friPowResponse.val
  count : c.numQueryRounds = proof.queryRoundProofs.length
  indices : challenges.friQueryIndices.length = proof.queryRoundProofs.length
  rounds : ∀ q ∈ challenges.friQueryIndices.zip proof.queryRoundProofs, q.1 < 2 ^ c.ldeBits ∧
    friProverQueryRound c.reductionArityBits (oracles.map (·.merkleTree)) trees q.1 = some q.2

/-- The run of the prover, with the challenges that the verifier derives from its proof. -/
lemma exists_provedWith (horacles : List.Forall₂ (c.Commits permute) c.friOracles oracles)
    (harities : c.reductionArityBits.sum ≤ c.degreeBits)
    (hopened : ∃ b ∈ i.batches, b.polynomials ≠ []) {powWitness : GoldilocksField}
    {t t' : Challenger GoldilocksField × List (Event GoldilocksField)}
    {proof : FriProof GoldilocksField}
    (hproof : c.proveOpenings permute i oracles powWitness t = some (proof, t')) :
    (Host.friChallenges permute c proof t).2 = t' ∧
      ∃ fbs trees w, ProvedWith permute i oracles proof (Host.friChallenges permute c proof t).1
        fbs trees w := by
  obtain ⟨fbs, values, committed, rounds, hfbs, hvalues, -, hcommitted, hpow, hrounds, hproof_eq,
    rfl⟩ := CommonCircuitData.proveOpenings_eq_some hproof
  set alpha := Host.sample permute extensionDegree t with halpha
  set finalPoly := provedFinalPoly ⟨alpha.1.getD 0 0, alpha.1.getD 1 0⟩ fbs with hfinalPoly
  have hlength : finalPoly.length = 2 ^ c.degreeBits :=
    length_provedFinalPoly horacles hopened hfbs _
  obtain ⟨values', hvalues', -, hsize, hheld⟩ := c.codeword_heldBy hlength alpha.2
  obtain rfl : values = values' := Option.some.inj (hvalues.symm.trans hvalues')
  -- the foldings, with the challenges that the verifier derives from their caps
  obtain ⟨loop, trees, betas, w, hrun, hfold, hheld', hbetas⟩ :=
    hheld.rounds permute c.arities_le c.lde_le
  simp only [MegaZK.friCommittedTrees, hrun, Option.bind_eq_bind, Option.bind_some,
    Option.pure_def, Option.some.injEq] at hcommitted
  have hbits : w.bits = c.degreeBits - c.reductionArityBits.sum + c.rateBits := by
    have hbits : w.bits = c.degreeBits + c.rateBits - c.reductionArityBits.sum := hfold.bits
    omega
  have hkept : proof.finalPoly =
      (loop.coeffs.take (loop.coeffs.length >>> c.rateBits)).map pairOf := by
    rw [hproof_eq, ← hcommitted]
  obtain ⟨hfinal_len, hfinal⟩ := hheld'.finalPoly hbits (fun k hk =>
    hfold.coeffs_eq_zero harities (fun k hk => List.getD_eq_default _ _ (hlength ▸ hk)) hk) hkept
  have hcaps : proof.commitPhaseMerkleCaps = trees.map fun tree => proofOf tree.cap := by
    rw [hproof_eq, ← hcommitted]
  have hpowWitness : proof.powWitness = powWitness := by rw [hproof_eq]
  have hqueries : proof.queryRoundProofs = rounds := by rw [hproof_eq]
  have hchallenges := Host.friChallenges_eq c (by rw [hcaps]; exact hbetas) hkept
  rw [hpowWitness] at hchallenges
  rw [← hcommitted] at hpow hrounds
  rw [hchallenges, ← hcommitted]
  have hnum : rounds.length = c.numQueryRounds :=
    (Fold.length_of_mapM_eq_some hrounds).trans (length_getNChallenges permute _ _)
  refine ⟨rfl, fbs, trees, w, hfbs, hfold, hcaps, hfinal_len, hfinal, hpow, ?_, ?_, ?_⟩
  · rw [hqueries, hnum]
  · rw [hqueries, hnum, List.length_map]
    exact length_getNChallenges permute _ _
  · rintro ⟨x, round⟩ hq
    rw [hqueries, List.zip_map_left] at hq
    obtain ⟨⟨rand, round'⟩, hmem, hq⟩ := List.mem_map.mp hq
    cases hq
    have hround := Fold.eq_some_of_mem_zip hrounds hmem
    rw [hsize] at hround
    exact ⟨Nat.mod_lt _ (Nat.two_pow_pos _), hround⟩

/-! ### Proofs without proof of work -/

/-- Without proof of work the prover does not fail. -/
lemma CommonCircuitData.exists_proveOpenings
    (horacles : List.Forall₂ (c.Commits permute) c.friOracles oracles)
    (hopened : ∃ b ∈ i.batches, b.polynomials ≠ [])
    {openings : List (List QuadraticExtension)}
    (hopenings : i.batches.mapM (openBatch oracles) = some openings)
    (hpow : i.proofOfWorkBits = 0) (powWitness : GoldilocksField)
    (t : Challenger GoldilocksField × List (Event GoldilocksField)) :
    ∃ proof t', c.proveOpenings permute i oracles powWitness t = some (proof, t') := by
  obtain ⟨fbs, hfbs⟩ : ∃ fbs, i.batches.mapM (batchOf oracles) = some fbs := by
    apply Fold.exists_mapM_eq_some
    intro batch hbatch
    obtain ⟨values, -, hvalues⟩ := Fold.exists_result_of_mapM_eq_some hopenings hbatch
    obtain ⟨polys, hpolys, -⟩ := Option.bind_eq_some_iff.mp hvalues
    exact ⟨⟨batch.point, polys⟩, by rw [batchOf, hpolys]; rfl⟩
  set alpha := Host.sample permute extensionDegree t with halpha
  have hlength := length_provedFinalPoly horacles hopened hfbs
    ⟨alpha.1.getD 0 0, alpha.1.getD 1 0⟩
  set finalPoly := provedFinalPoly ⟨alpha.1.getD 0 0, alpha.1.getD 1 0⟩ fbs with hfinalPoly
  obtain ⟨values, hvalues, hcoeffs, hsize, hheld⟩ := c.codeword_heldBy hlength alpha.2
  obtain ⟨loop, trees, betas, w, hrun, hfold, -, -⟩ := hheld.rounds permute c.arities_le c.lde_le
  have hrounds : ∀ rands : List GoldilocksField, ∃ rounds, (rands.mapM fun rand =>
      friProverQueryRound c.reductionArityBits (oracles.map (·.merkleTree)) trees
        (rand.val % values.length)) = some rounds := by
    intro rands
    apply Fold.exists_mapM_eq_some
    intro rand _
    rw [hsize]
    have hx : rand.val % 2 ^ c.ldeBits < 2 ^ c.ldeBits := Nat.mod_lt _ (Nat.two_pow_pos _)
    obtain ⟨initial, hinitial, -, -⟩ := exists_initialTreesProof horacles hx
    obtain ⟨steps, hsteps, -, -, -⟩ := hfold.exists_steps c c.arities_le c.lde_le
      (by change (7 : GoldilocksField) ≠ 0; decide) hx
    refine ⟨{ initialTreesProof := initial, steps }, ?_⟩
    rw [friProverQueryRound, hinitial, Option.bind_eq_bind, Option.bind_some, hsteps]
    rfl
  have hbits : ∀ x, Fri.minLeadingZeros i.proofOfWorkBits ≤ Fri.leadingZeros x := by
    intro x
    rw [hpow]
    exact Nat.zero_le _
  obtain ⟨committed, hcommitted, htrees⟩ : ∃ committed, MegaZK.friCommittedTrees permute c.rateBits
      c.capHeight c.reductionArityBits (finalPoly ++ List.replicate
        ((finalPoly.length <<< c.rateBits) - finalPoly.length) 0) values alpha.2 = some committed ∧
      committed.trees = trees := by
    rw [MegaZK.friCommittedTrees, hrun]
    exact ⟨_, rfl, rfl⟩
  rw [← htrees] at hrounds
  set rands := Host.sample permute c.numQueryRounds (Host.sample permute 1
    (Host.observe permute [powWitness] committed.transcript).2).2
  obtain ⟨rounds, hrounds⟩ := hrounds rands.1
  refine ⟨{ commitPhaseMerkleCaps := committed.trees.map fun tree => proofOf tree.cap
            queryRoundProofs := rounds
            finalPoly := committed.coeffs.map pairOf
            powWitness }, rands.2, ?_⟩
  simp only [proveOpenings, friProof, friProofOfWork, bind, StateT.bind, StateT.lift, pure,
    StateT.pure, Option.bind_eq_some_iff, Option.map_eq_some_iff, Option.some.injEq,
    Prod.mk.injEq]
  exact ⟨_, rfl, _, ⟨fbs, hfbs, rfl⟩, _, ⟨values, hvalues, rfl⟩, _,
    guard_stateT_of (hcoeffs.trans hsize.symm) _, _, ⟨committed, hcommitted, rfl⟩, _,
    ⟨_, rfl, guard_stateT_of (hbits _) _⟩, _, rfl, _, ⟨rounds, hrounds, rfl⟩, rfl, rfl⟩

lemma CommonCircuitData.exists_commits (c : CommonCircuitData) {oracle : FriOracleInfo}
    (hpos : 0 < oracle.numPolys) :
    ∃ b, c.Commits permute oracle b ∧ b.polynomials.length = oracle.numPolys := by
  set polynomials : List (List GoldilocksField) := List.replicate oracle.numPolys
    ((List.range (2 ^ c.degreeBits)).map fun k => (k : GoldilocksField)) with hpolynomials
  have hne : polynomials ≠ [] := by simp [hpolynomials, hpos.ne']
  have hlen : ∀ p ∈ polynomials, p.length = 2 ^ c.degreeBits := by
    intro p hp
    obtain ⟨-, rfl⟩ := List.mem_replicate.mp hp
    simp
  have hcap := c.arities_le
  obtain ⟨b, hb⟩ := PolynomialBatch.exists_fromCoeffs permute
    (by omega : c.capHeight ≤ c.degreeBits + c.rateBits) (c.zeroKnowledge && oracle.blinding)
    (fun _ _ => 0) hne hlen
  refine ⟨b, ⟨_, polynomials, by simp [hpolynomials], hlen, hb⟩, ?_⟩
  rw [(PolynomialBatch.fromCoeffs_eq_some hlen hb).1]
  simp [hpolynomials]

lemma CommonCircuitData.exists_oracles (c : CommonCircuitData)
    (permute : (Fin 12 → GoldilocksField) → Fin 12 → GoldilocksField) {infos : List FriOracleInfo}
    (hpos : ∀ oracle ∈ infos, 0 < oracle.numPolys) :
    ∃ oracles, List.Forall₂ (fun oracle b => c.Commits permute oracle b ∧
      b.polynomials.length = oracle.numPolys) infos oracles := by
  induction infos with
  | nil => exact ⟨[], .nil⟩
  | cons oracle infos ih =>
    obtain ⟨hfirst, hpos⟩ := List.forall_mem_cons.mp hpos
    obtain ⟨b, hb⟩ := c.exists_commits hfirst
    obtain ⟨oracles, horacles⟩ := ih hpos
    exact ⟨b :: oracles, .cons hb horacles⟩

/-- What the prover leaves behind passes every check of the verifier. -/
lemma CommonCircuitData.verifyFriProof_of_provedWith
    (horacles : List.Forall₂ (c.Commits permute) c.friOracles oracles)
    (harities : c.reductionArityBits.sum ≤ c.degreeBits)
    (hopened : ∃ b ∈ i.batches, b.polynomials ≠ [])
    (hpoints : ∀ b ∈ i.batches, ∀ k,
      (.C (7 * primitiveRootOfUnity c.ldeBits ^ k) : QuadraticExtension) ≠ b.point)
    {openings : List (List QuadraticExtension)}
    (hopenings : i.batches.mapM (openBatch oracles) = some openings)
    {proof : FriProof GoldilocksField} {challenges : FriChallenges}
    {fbs : List (FriBatch GoldilocksField)} {trees : List (MerkleTree GoldilocksField)}
    {w : Codeword} (hrun : ProvedWith permute i oracles proof challenges fbs trees w) :
    c.verifyFriProof permute i openings challenges
      (oracles.map fun oracle => proofOf oracle.merkleTree.cap) proof = some (.ok ()) := by
  have hle : (provedFinalPoly challenges.friAlpha fbs).length ≤ 2 ^ c.ldeBits := by
    rw [length_provedFinalPoly horacles hopened hrun.batches]
    exact Nat.pow_le_pow_right Nat.two_pos (Nat.le_add_right _ _)
  have hround : ∀ q ∈ challenges.friQueryIndices.zip proof.queryRoundProofs,
      c.validateQueryRound q.2 = .ok () ∧ _ := fun q hq =>
    verifyQueryRound horacles hpoints hrun.batches hopenings hle hrun.foldings hrun.caps
      hrun.finalPoly (hrun.rounds q hq).1 (hrun.rounds q hq).2
  have hshape : c.validateFriProofShape proof = .ok () := by
    rw [validateFriProofShape]
    simp only [bind_unit_eq_ok, forM_eq_ok, ensure_eq_ok]
    refine ⟨?_, ?_, hrun.finalPoly_length.trans (finalPolyLen_eq harities).symm⟩
    · intro cap hcap
      rw [hrun.caps] at hcap
      obtain ⟨tree, htree, rfl⟩ := List.mem_map.mp hcap
      exact ensureCapHeight_of_length
        ((length_proofOf _).trans (hrun.foldings.cap_length tree htree)) _
    · intro round hmem
      obtain ⟨j, hj, rfl⟩ := List.mem_iff_getElem.mp hmem
      have hj' : j < challenges.friQueryIndices.length := hrun.indices ▸ hj
      have hq : (challenges.friQueryIndices[j], proof.queryRoundProofs[j]) ∈
          challenges.friQueryIndices.zip proof.queryRoundProofs :=
        List.mem_iff_getElem?.mpr ⟨j, by simp [hj, hj']⟩
      exact (hround _ hq).1
  rw [CommonCircuitData.verifyFriProof, hshape, liftM_ok, pure_bind, friVerifyProofOfWork,
    ensure_of hrun.pow, pure_bind, ensure_of hrun.count, pure_bind]
  exact forM_eq_pure fun q hq => (hround q hq).2

/-- A wire of the standard configuration, opened outside of the base field. -/
def standardInstance : FriInstance standardRecursion where
  proofOfWorkBits := 0
  batches := [⟨⟨0, 1⟩, [⟨1, 0⟩]⟩]

lemma standardInstance_opened : ∃ b ∈ standardInstance.batches, b.polynomials ≠ [] :=
  ⟨_, List.mem_singleton_self _, List.cons_ne_nil _ _⟩

lemma standardInstance_points : ∀ b ∈ standardInstance.batches, ∀ k,
    (.C (7 * primitiveRootOfUnity standardRecursion.ldeBits ^ k) : QuadraticExtension) ≠
      b.point := by
  intro b hb k heq
  obtain rfl := List.mem_singleton.mp hb
  have him : (0 : GoldilocksField) = 1 := congrArg QuadraticAlgebra.im heq
  exact absurd him (by decide)

/-- The prover opens the instance. -/
lemma CommonCircuitData.exists_standardProof : ∃ oracles openings proof t',
    List.Forall₂ (standardRecursion.Commits hostPermute) standardRecursion.friOracles oracles ∧
      standardInstance.batches.mapM (openBatch oracles) = some openings ∧
      standardRecursion.proveOpenings hostPermute standardInstance oracles 0 (Challenger.new, []) =
        some (proof, t') := by
  have hpos : ∀ oracle ∈ standardRecursion.friOracles, 0 < oracle.numPolys := by decide
  obtain ⟨oracles, hall⟩ := standardRecursion.exists_oracles hostPermute hpos
  have horacles := hall.imp fun _ _ h => h.1
  have hlen : oracles.length = 4 := hall.length_eq.symm
  have hwires := (hall.get (i := 1) (by decide) (by omega)).2
  obtain ⟨poly, hpoly⟩ : ∃ poly, (oracles.get ⟨1, by omega⟩).polynomials[0]? = some poly := by
    have hpos : 0 < (oracles.get ⟨1, by omega⟩).polynomials.length := hwires.trans_gt (by decide)
    exact ⟨_, List.getElem?_eq_getElem hpos⟩
  have hwire : oracles[1]? = some (oracles.get ⟨1, by omega⟩) := List.getElem?_eq_getElem _
  have hopen : standardInstance.batches.mapM (openBatch oracles) =
      some [[evalExtension ⟨0, 1⟩ poly]] := by
    have hone : polynomialOf oracles ⟨1, 0⟩ = some poly := by
      rw [polynomialOf, hwire]
      exact hpoly
    rw [standardInstance, List.mapM_cons, openBatch, List.mapM_cons, hone]
    rfl
  obtain ⟨proof, t', hproof⟩ := CommonCircuitData.exists_proveOpenings horacles
    standardInstance_opened hopen rfl 0 (Challenger.new, [])
  exact ⟨oracles, _, proof, t', horacles, hopen, hproof⟩

end Proof

end MegaZK
