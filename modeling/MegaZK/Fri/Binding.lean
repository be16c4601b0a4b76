import MegaZK.Fri.Completeness

/-! # Binding of FRI proofs

Two proofs that are accepted against the same caps at the same indices open the same leaves, or two
of the hashes that the verifier computes collide. -/

namespace MegaZK

open Verification

/-! ### What a check that passed has seen -/

namespace Verification

lemma bind_eq_pure {α β : Type} {x : Verification α} {f : α → Verification β} {b : β}
    (h : (x >>= f : Verification β) = pure b) : ∃ a, x = pure a ∧ f a = pure b := by
  rcases x with _ | msg | a
  · cases h
  · cases h
  · exact ⟨a, rfl, h⟩

lemma unwrap_eq_pure {α : Type} {x : Option α} {a : α} (h : unwrap x = pure a) : x = some a := by
  cases x with
  | none => cases h
  | some b =>
    cases h
    rfl

lemma of_ensure_eq_pure {p : Prop} [Decidable p] {msg : String}
    (h : (ensure p msg : Verification Unit) = pure ()) : p := by
  by_contra hp
  rw [ensure, if_neg hp] at h
  cases h

lemma eq_ok_of_liftM_eq_pure {α : Type} {x : Except String α} {a : α}
    (h : (liftM x : Verification α) = pure a) : x = .ok a := by
  cases x with
  | error msg => cases h
  | ok b =>
    cases h
    rfl

lemma of_forM_eq_pure {α : Type} {l : List α} {f : α → Verification Unit}
    (h : l.forM f = pure ()) : ∀ a ∈ l, f a = pure () := by
  induction l with
  | nil => simp
  | cons b l ih =>
    obtain ⟨⟨⟩, hb, hl⟩ := bind_eq_pure (f := fun _ => l.forM f) h
    exact List.forall_mem_cons.mpr ⟨hb, ih hl⟩

end Verification

/-! ### What was opened -/

section Source

variable (permute : (Fin 12 → GoldilocksField) → Fin 12 → GoldilocksField)

/-- Two openings of a leaf with their siblings: the same, or with two hashes that collide. -/
def OpenedOnce (x : ℕ) (leaf leaf' : List GoldilocksField)
    (siblings siblings' : List (List GoldilocksField)) : Prop :=
  (leaf = leaf' ∧ siblings.map hashOf = siblings'.map hashOf) ∨
    (leaf ≠ leaf' ∧ 4 < leaf.length ∧ hashOrNoop permute leaf = hashOrNoop permute leaf') ∨
    PathsCollide permute x leaf leaf' (siblings.map hashOf) (siblings'.map hashOf)

/-- Two answers to the query of one index, opening by opening. -/
structure FriQueryRound.AnsweredOnce (arities : List ℕ) (x : ℕ)
    (round round' : FriQueryRound GoldilocksField) : Prop where
  initial_length : round.initialTreesProof.length = round'.initialTreesProof.length
  initial : ∀ (k : ℕ) p p', round.initialTreesProof[k]? = some p →
    round'.initialTreesProof[k]? = some p' → OpenedOnce permute x p.1 p'.1 p.2 p'.2
  steps_length : round.steps.length = round'.steps.length
  steps : ∀ (j : ℕ) step step', round.steps[j]? = some step → round'.steps[j]? = some step' →
    OpenedOnce permute (x >>> (arities.take (j + 1)).sum) (flatten (step.evals.map extensionOf))
      (flatten (step'.evals.map extensionOf)) step.merkleProof step'.merkleProof

variable {permute}

lemma openedOnce_of_verify {x : ℕ} {leaf leaf' : List GoldilocksField}
    {cap siblings siblings' : List (List GoldilocksField)} (hlen : leaf.length = leaf'.length)
    (hpath : siblings.length = siblings'.length)
    (h : verifyMerkleProof permute leaf x cap siblings = pure ())
    (h' : verifyMerkleProof permute leaf' x cap siblings' = pure ()) :
    OpenedOnce permute x leaf leaf' siblings siblings' :=
  eq_or_collision_of_verify hlen (by simpa using hpath) h h'

/-- The caps that the openings of a query were checked against. -/
lemma verified_of_verifyReductions {challenges : FriChallenges} {proof : FriProof GoldilocksField}
    {round : FriQueryRound GoldilocksField} {arities : List ℕ} {n x : ℕ} {subgroupX : GoldilocksField}
    {oldEval : QuadraticExtension}
    (h : verifyReductions permute challenges proof round (arities.zipIdx n) x subgroupX oldEval =
      pure ()) :
    ∀ j < arities.length, ∃ step cap, round.steps[n + j]? = some step ∧
      proof.commitPhaseMerkleCaps[n + j]? = some cap ∧
      verifyMerkleProof permute (flatten (step.evals.map extensionOf))
        (x >>> (arities.take (j + 1)).sum) cap step.merkleProof = pure () := by
  induction arities generalizing n x subgroupX oldEval with
  | nil => simp
  | cons a arities ih =>
    rw [List.zipIdx_cons, verifyReductions] at h
    obtain ⟨step, hstep, h⟩ := bind_eq_pure h
    obtain ⟨eval, -, h⟩ := bind_eq_pure h
    obtain ⟨-, -, h⟩ := bind_eq_pure h
    obtain ⟨beta, -, h⟩ := bind_eq_pure h
    obtain ⟨value, -, h⟩ := bind_eq_pure h
    obtain ⟨cap, hcap, h⟩ := bind_eq_pure h
    obtain ⟨⟨⟩, hverify, h⟩ := bind_eq_pure h
    intro j hj
    cases j with
    | zero => exact ⟨step, cap, unwrap_eq_pure hstep, unwrap_eq_pure hcap, by simpa using hverify⟩
    | succ j =>
      have hnext := ih h j (Nat.lt_of_succ_lt_succ hj)
      rwa [Nat.add_right_comm, ← Nat.shiftRight_add] at hnext

/-! ### The theorem -/

variable {c : CommonCircuitData}

lemma CommonCircuitData.length_of_validateSteps {n : ℕ} {arities : List ℕ}
    {steps : List (FriQueryStep GoldilocksField)}
    (h : c.validateSteps n (steps.zip arities) = .ok ()) {j : ℕ} {step : FriQueryStep GoldilocksField}
    {a : ℕ} (hstep : steps[j]? = some step) (ha : arities[j]? = some a) :
    step.evals.length = 1 <<< a ∧
      step.merkleProof.length + c.capHeight = n - (arities.take (j + 1)).sum := by
  induction arities generalizing steps n j with
  | nil => cases ha
  | cons b arities ih =>
    cases steps with
    | nil => cases hstep
    | cons first steps =>
      rw [List.zip_cons_cons, validateSteps] at h
      simp only [bind_unit_eq_ok, ensure_eq_ok] at h
      obtain ⟨hevals, hproof, hrest⟩ := h
      cases j with
      | zero =>
        cases hstep
        cases ha
        exact ⟨hevals, by simpa using hproof⟩
      | succ j =>
        have hnext := ih hrest hstep ha
        rwa [Nat.sub_sub] at hnext

lemma length_flatten_extensionOf (evals : List (GoldilocksField × GoldilocksField)) :
    (flatten (evals.map extensionOf)).length = 2 * evals.length := by
  simp [flatten, List.length_flatMap, Function.comp_def, mul_comm]

variable (permute c) in
/-- What the verifier has checked of a query round that it accepts. -/
structure FriQueryRound.Accepted (caps : List (List (List GoldilocksField)))
    (proof : FriProof GoldilocksField) (x : ℕ) (round : FriQueryRound GoldilocksField) : Prop where
  shape : c.validateQueryRound round = .ok ()
  initial : ∀ (k : ℕ) p cap, round.initialTreesProof[k]? = some p → caps[k]? = some cap →
    verifyMerkleProof permute p.1 x cap p.2 = pure ()
  steps : ∀ j < c.reductionArityBits.length, ∃ step cap, round.steps[j]? = some step ∧
    proof.commitPhaseMerkleCaps[j]? = some cap ∧
    verifyMerkleProof permute (flatten (step.evals.map extensionOf))
      (x >>> (c.reductionArityBits.take (j + 1)).sum) cap step.merkleProof = pure ()

lemma CommonCircuitData.accepted_of_verifyFriProof {i : FriInstance c}
    {openings : List (List QuadraticExtension)} {challenges : FriChallenges}
    {caps : List (List (List GoldilocksField))} {proof : FriProof GoldilocksField}
    (h : c.verifyFriProof permute i openings challenges caps proof = pure ()) {r x : ℕ}
    {round : FriQueryRound GoldilocksField} (hx : challenges.friQueryIndices[r]? = some x)
    (hround : proof.queryRoundProofs[r]? = some round) :
    round.Accepted permute c caps proof x := by
  rw [verifyFriProof] at h
  obtain ⟨⟨⟩, hshape, h⟩ := bind_eq_pure h
  obtain ⟨-, -, h⟩ := bind_eq_pure h
  obtain ⟨-, -, h⟩ := bind_eq_pure h
  replace hshape := eq_ok_of_liftM_eq_pure hshape
  rw [validateFriProofShape] at hshape
  simp only [bind_unit_eq_ok, forM_eq_ok, ensure_eq_ok] at hshape
  have hmem : (x, round) ∈ challenges.friQueryIndices.zip proof.queryRoundProofs :=
    List.mem_iff_getElem?.mpr ⟨r, by rw [List.getElem?_zip_eq_some]; exact ⟨hx, hround⟩⟩
  have hquery := of_forM_eq_pure h _ hmem
  rw [friVerifierQueryRound] at hquery
  obtain ⟨⟨⟩, hinitial, hquery⟩ := bind_eq_pure hquery
  obtain ⟨value, -, hsteps⟩ := bind_eq_pure hquery
  refine ⟨hshape.2.1 round (List.mem_of_getElem? hround), ?_, ?_⟩
  · intro k p cap hp hcap
    have hopened := of_forM_eq_pure hinitial
    exact hopened (p, cap) (List.mem_iff_getElem?.mpr ⟨k, by
      rw [List.getElem?_zip_eq_some]
      exact ⟨hp, hcap⟩⟩)
  · intro j hj
    have hverified := verified_of_verifyReductions hsteps j hj
    rwa [Nat.zero_add] at hverified

/-- The answers to a query are determined by the caps, unless hashes collide. -/
theorem CommonCircuitData.answeredOnce_of_verifyFriProof {i i' : FriInstance c}
    {openings openings' : List (List QuadraticExtension)} {challenges challenges' : FriChallenges}
    {caps : List (List (List GoldilocksField))} {proof proof' : FriProof GoldilocksField}
    (hcaps : caps.length = c.friOracles.length)
    (hphase : proof.commitPhaseMerkleCaps = proof'.commitPhaseMerkleCaps)
    (h : c.verifyFriProof permute i openings challenges caps proof = some (.ok ()))
    (h' : c.verifyFriProof permute i' openings' challenges' caps proof' = some (.ok ()))
    {r r' x : ℕ} {round round' : FriQueryRound GoldilocksField}
    (hx : challenges.friQueryIndices[r]? = some x)
    (hx' : challenges'.friQueryIndices[r']? = some x)
    (hround : proof.queryRoundProofs[r]? = some round)
    (hround' : proof'.queryRoundProofs[r']? = some round') :
    round.AnsweredOnce permute c.reductionArityBits x round' := by
  obtain ⟨hshape, hinitial, hsteps⟩ := accepted_of_verifyFriProof h hx hround
  obtain ⟨hshape', hinitial', hsteps'⟩ := accepted_of_verifyFriProof h' hx' hround'
  simp only [validateQueryRound, bind_unit_eq_ok, forM_eq_ok, ensure_eq_ok] at hshape hshape'
  obtain ⟨hlen, hleaves, hcount, hshape⟩ := hshape
  obtain ⟨hlen', hleaves', hcount', hshape'⟩ := hshape'
  refine ⟨hlen.trans hlen'.symm, ?_, hcount.trans hcount'.symm, ?_⟩
  · intro k p p' hp hp'
    have hk : k < c.friOracles.length := hlen ▸ (List.getElem?_eq_some_iff.mp hp).1
    have horacle : c.friOracles[k]? = some c.friOracles[k] := List.getElem?_eq_getElem hk
    have hcapLt : k < caps.length := hcaps ▸ hk
    have hcap : caps[k]? = some caps[k] := List.getElem?_eq_getElem hcapLt
    have hmem : ∀ {l : List (List GoldilocksField × List (List GoldilocksField))} {q},
        l[k]? = some q → (q, c.friOracles[k]) ∈ l.zip c.friOracles := fun hq =>
      List.mem_iff_getElem?.mpr ⟨k, by rw [List.getElem?_zip_eq_some]; exact ⟨hq, horacle⟩⟩
    obtain ⟨hleaf, hpath⟩ := hleaves _ (hmem hp)
    obtain ⟨hleaf', hpath'⟩ := hleaves' _ (hmem hp')
    exact openedOnce_of_verify (hleaf.trans hleaf'.symm)
      (Nat.add_right_cancel (hpath.trans hpath'.symm)) (hinitial k p _ hp hcap)
      (hinitial' k p' _ hp' hcap)
  · intro j step step' hstep hstep'
    have hj : j < c.reductionArityBits.length := hcount ▸ (List.getElem?_eq_some_iff.mp hstep).1
    have harity : c.reductionArityBits[j]? = some c.reductionArityBits[j] :=
      List.getElem?_eq_getElem hj
    obtain ⟨hevals, hpath⟩ := length_of_validateSteps hshape hstep harity
    obtain ⟨hevals', hpath'⟩ := length_of_validateSteps hshape' hstep' harity
    obtain ⟨_, cap, hsame, hcap, hverify⟩ := hsteps j hj
    obtain ⟨_, cap', hsame', hcap', hverify'⟩ := hsteps' j hj
    obtain rfl := Option.some.inj (hstep.symm.trans hsame)
    obtain rfl := Option.some.inj (hstep'.symm.trans hsame')
    rw [← hphase] at hcap'
    obtain rfl := Option.some.inj (hcap.symm.trans hcap')
    refine openedOnce_of_verify ?_ (Nat.add_right_cancel (hpath.trans hpath'.symm)) hverify
      hverify'
    rw [length_flatten_extensionOf, length_flatten_extensionOf, hevals, hevals']

theorem CommonCircuitData.answeredOnce_of_verifyFriProof_standardRecursion :
    ∃ openings challenges caps proof x, ∃ round : FriQueryRound GoldilocksField,
      standardRecursion.verifyFriProof hostPermute standardInstance openings challenges caps
        proof = some (.ok ()) ∧
      challenges.friQueryIndices[0]? = some x ∧ proof.queryRoundProofs[0]? = some round ∧
      round.AnsweredOnce hostPermute standardRecursion.reductionArityBits x round := by
  obtain ⟨oracles, openings, proof, t', horacles, hopen, hproof⟩ := exists_standardProof
  obtain ⟨-, fbs, trees, w, hrun⟩ :=
    exists_provedWith horacles (by decide) standardInstance_opened hproof
  have haccepts := verifyFriProof_of_provedWith horacles (by decide) standardInstance_opened
    standardInstance_points hopen hrun
  have hcount : 0 < proof.queryRoundProofs.length := hrun.count ▸ (by decide : 0 < 28)
  have hround := List.getElem?_eq_getElem hcount
  have hindex := List.getElem?_eq_getElem (hrun.indices.symm ▸ hcount)
  exact ⟨openings, _, _, proof, _, _, haccepts, hindex, hround,
    answeredOnce_of_verifyFriProof (by rw [List.length_map]; exact horacles.length_eq.symm) rfl
      haccepts haccepts hindex hindex hround hround⟩

end Source

end MegaZK
