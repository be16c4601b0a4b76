import MegaZK.Assembly.Passes
import MegaZK.Fri.CommitPhase

/-! # The query phase

The steps that the prover opens for an index pass the checks of the verifier, and lead to the value
of the last folding. -/

namespace MegaZK

open Horner Verification
open scoped QuadraticField

/-! ### What a proof holds -/

@[simp] lemma extensionOf_pairOf (e : QuadraticExtension) : extensionOf (pairOf e) = e := rfl

@[simp] lemma hashOf_ofFn (h : HashOut GoldilocksField) : hashOf (List.ofFn h) = h := by
  funext j
  have hj : (j : ℕ) < (List.ofFn h).length := by
    rw [List.length_ofFn]
    exact j.isLt
  rw [hashOf, List.getD_eq_getElem _ _ hj, List.getElem_ofFn]

@[simp] lemma map_hashOf_proofOf (siblings : List (HashOut GoldilocksField)) :
    (proofOf siblings).map hashOf = siblings := by
  rw [proofOf, List.map_map]
  exact (List.map_congr_left fun h _ => hashOf_ofFn h).trans (List.map_id _)

@[simp] lemma length_proofOf (siblings : List (HashOut GoldilocksField)) :
    (proofOf siblings).length = siblings.length := List.length_map _

lemma unflatten_flatten_map_range (f : ℕ → QuadraticExtension) (n : ℕ) :
    unflatten (flatten ((List.range n).map f)) = (List.range n).map fun i => pairOf (f i) := by
  rw [unflatten, flatten_map_range, mul_comm, chunksExact_map_range _ two_pos, List.map_map]
  apply List.map_congr_left
  intro i _
  have heven : words f (i * 2) = (f i).re := by
    rw [words, if_pos (by omega), Nat.mul_div_cancel _ two_pos]
  have hodd : words f (i * 2 + 1) = (f i).im := by
    have hhalf : (i * 2 + 1) / 2 = i := by omega
    rw [words, if_neg (by omega), hhalf]
  simp [heven, hodd, pairOf]

/-! ### Checks that go through -/

namespace Verification

@[simp] lemma unwrap_some {α : Type} (x : α) : unwrap (some x) = pure x := rfl

lemma liftM_ok {α : Type} (x : α) :
    (liftM (.ok x : Except String α) : Verification α) = pure x := rfl

lemma ensure_of {p : Prop} [Decidable p] (hp : p) (msg : String) :
    (liftM (ensure p msg) : Verification Unit) = pure () := by
  rw [ensure_eq_ok.mpr hp]
  rfl

lemma forM_eq_pure {α : Type} {l : List α} {f : α → Verification Unit}
    (h : ∀ x ∈ l, f x = pure ()) : l.forM f = pure () := by
  induction l with
  | nil => rfl
  | cons x l ih =>
    change (f x >>= fun _ => l.forM f) = pure ()
    rw [h x (List.mem_cons_self ..), pure_bind]
    exact ih fun y hy => h y (List.mem_cons_of_mem _ hy)

end Verification

section Source

variable {permute : (Fin 12 → GoldilocksField) → Fin 12 → GoldilocksField} {capHeight : ℕ}

/-- A leaf and its proof, as they are part of a FRI proof, against the cap. -/
lemma MerkleTree.verifyMerkleProof_prove {leaves : List (List GoldilocksField)}
    {tree : MerkleTree GoldilocksField} {logN x : ℕ} (hlen : leaves.length = 2 ^ logN)
    (hx : x < 2 ^ logN) (hnew : MerkleTree.new permute leaves capHeight = some tree) :
    ∃ siblings, tree.get x = some (leaves.getD x []) ∧ tree.prove x = some siblings ∧
      siblings.length = logN - capHeight ∧
      verifyMerkleProof permute (leaves.getD x []) x (proofOf tree.cap) (proofOf siblings) =
        pure () := by
  have hget : tree.get x = some (leaves.getD x []) := by
    obtain ⟨_, _, _, rfl⟩ := MerkleTree.new_eq_some hnew
    simp [MerkleTree.get, List.getD_eq_getElem?_getD, hlen, hx]
  refine ⟨_, hget, MerkleTree.prove_eq hlen hx hnew, by simp, ?_⟩
  rw [verifyMerkleProof, map_hashOf_proofOf, map_hashOf_proofOf,
    MerkleTree.verify_siblings hlen hx hnew]
  rfl

/-! ### The foldings -/

lemma Codeword.length_leaves (w : Codeword) (a : ℕ) : (w.leaves a).length = 2 ^ (w.bits - a) := by
  simp [leaves]

lemma Codeword.leaves_getD (w : Codeword) (a : ℕ) {c : ℕ} (hc : c < 2 ^ (w.bits - a)) :
    (w.leaves a).getD c [] = flatten (w.leafValues a c) := by
  simp [leaves, List.getD_eq_getElem?_getD, hc]

lemma getElem?_of_drop {α : Type} {l rest : List α} {i : ℕ} {x : α} (h : l.drop i = x :: rest) :
    l[i]? = some x ∧ l.drop (i + 1) = rest := by
  refine ⟨?_, ?_⟩
  · rw [← List.head?_drop, h, List.head?_cons]
  · rw [← List.tail_drop, h, List.tail_cons]

lemma and_one_shiftLeft_sub_one_lt (x a : ℕ) : x &&& (1 <<< a - 1) < 2 ^ a := by
  rw [Nat.one_shiftLeft, Nat.and_two_pow_sub_one_eq_mod]
  exact Nat.mod_lt _ (Nat.two_pow_pos a)

/-- An index is the number of its leaf, and its position there. -/
lemma shiftRight_mul_add_and (x a : ℕ) : x >>> a * 2 ^ a + (x &&& (1 <<< a - 1)) = x := by
  rw [Nat.one_shiftLeft, Nat.and_two_pow_sub_one_eq_mod, Nat.shiftRight_eq_div_pow, mul_comm]
  exact Nat.div_add_mod x (2 ^ a)

namespace Codeword

variable {w : Codeword} {a : ℕ} (ha : a ≤ w.bits) (hbits : w.bits ≤ 32) (x : ℕ)
  (beta : QuadraticExtension)

omit ha hbits in
/-- The value of an index, in its leaf. -/
lemma getElem?_leafValues :
    (w.leafValues a (x >>> a))[x &&& (1 <<< a - 1)]? = some (w.value x) := by
  conv_rhs => rw [← shiftRight_mul_add_and x a]
  simp [leafValues, and_one_shiftLeft_sub_one_lt]

include ha hbits

/-- The leaf of an index is evaluated to the value of the folded codeword. -/
lemma computeEvaluation_point (hshift : w.shift ≠ 0) :
    computeEvaluation (w.point x) (x &&& (1 <<< a - 1)) a (w.leafValues a (x >>> a)) beta =
      some ((w.fold a beta).value (x >>> a)) := by
  have hcompute := computeEvaluation_leafValues ha hbits hshift (x >>> a)
    (and_one_shiftLeft_sub_one_lt x a) beta
  rwa [shiftRight_mul_add_and] at hcompute

lemma squareTimes_point : squareTimes a (w.point x) = (w.fold a beta).point (x >>> a) := by
  have hpow := point_pow ha hbits (x >>> a) (and_one_shiftLeft_sub_one_lt x a) beta
  rwa [shiftRight_mul_add_and, ← squareTimes_eq] at hpow

end Codeword

/-- The steps for an index follow the foldings. -/
lemma Foldings.exists_steps (c : CommonCircuitData) {w w' : Codeword} {arities : List ℕ}
    {trees : List (MerkleTree GoldilocksField)} {betas : List QuadraticExtension}
    (h : Foldings permute c.capHeight w arities trees betas w')
    (hcap : arities.sum + c.capHeight ≤ w.bits) (hbits : w.bits ≤ 32) (hshift : w.shift ≠ 0) {x : ℕ}
    (hx : x < 2 ^ w.bits) :
    ∃ steps, querySteps arities trees x = some steps ∧ steps.length = arities.length ∧
      c.validateSteps w.bits (steps.zip arities) = .ok () ∧
      ∀ (challenges : FriChallenges) (proof : FriProof GoldilocksField)
        (round : FriQueryRound GoldilocksField) (i : ℕ),
        challenges.friBetas.drop i = betas →
        proof.commitPhaseMerkleCaps.drop i = trees.map (fun tree => proofOf tree.cap) →
        round.steps.drop i = steps →
        verifyReductions permute challenges proof round (arities.zipIdx i) x (w.point x)
            (w.value x) =
          verifyReductions permute challenges proof round [] (x >>> arities.sum)
            (w'.point (x >>> arities.sum)) (w'.value (x >>> arities.sum)) := by
  induction h generalizing x with
  | done w => exact ⟨[], rfl, rfl, rfl, fun _ _ _ _ _ _ _ => rfl⟩
  | @fold w w' a arities tree trees beta betas htree rest ih =>
    rw [List.sum_cons] at hcap
    have ha : a ≤ w.bits := by omega
    set q := x >>> a with hq
    have hq_lt : q < 2 ^ (w.bits - a) := MerklePath.shiftRight_lt hx
    obtain ⟨siblings, hget, hprove, hlength, hverify⟩ :=
      MerkleTree.verifyMerkleProof_prove (w.length_leaves a) hq_lt htree
    rw [w.leaves_getD a hq_lt] at hget hverify
    have hfold : (w.fold a beta).bits = w.bits - a := rfl
    obtain ⟨steps, hsteps, hcount, hvalid, hrun⟩ := ih (by omega) (by omega)
      (pow_ne_zero _ hshift) (by rwa [hfold])
    set step : FriQueryStep GoldilocksField :=
      { evals := unflatten (flatten (w.leafValues a q)), merkleProof := proofOf siblings }
      with hstep
    have hevals : step.evals.map extensionOf = w.leafValues a q := by
      rw [hstep, Codeword.leafValues, unflatten_flatten_map_range, List.map_map]
      rfl
    have hlen : step.evals.length = 2 ^ a := by
      have hlen := congrArg List.length hevals
      simpa [Codeword.leafValues] using hlen
    refine ⟨step :: steps, ?_, by simp [hcount], ?_, ?_⟩
    · rw [querySteps, hget, hprove, hsteps]
      rfl
    · rw [List.zip_cons_cons, CommonCircuitData.validateSteps]
      simp only [bind_unit_eq_ok, ensure_eq_ok, hlen, Nat.one_shiftLeft, true_and]
      refine ⟨?_, hvalid⟩
      rw [hstep, length_proofOf, hlength]
      omega
    · intro challenges proof round i hbetas hcaps hsteps'
      obtain ⟨hbeta, hbetas⟩ := getElem?_of_drop hbetas
      obtain ⟨hcap_i, hcaps⟩ := getElem?_of_drop hcaps
      obtain ⟨hstep_i, hsteps'⟩ := getElem?_of_drop hsteps'
      have heval := w.getElem?_leafValues (a := a) x
      have hcompute := w.computeEvaluation_point ha hbits x beta hshift
      have hpoint := w.squareTimes_point ha hbits x beta
      rw [← hq] at heval hcompute hpoint
      have hsum : x >>> (a :: arities).sum = q >>> arities.sum := by
        rw [List.sum_cons, Nat.shiftRight_add]
      conv_lhs => rw [List.zipIdx_cons, verifyReductions]
      simp only [hstep_i, unwrap_some, pure_bind, ← hq, hevals, heval, hbeta, hcompute,
        hcap_i, ensure_of, hpoint, hsum]
      rw [hverify, pure_bind]
      exact hrun challenges proof round (i + 1) hbetas hcaps hsteps'

end Source

end MegaZK
