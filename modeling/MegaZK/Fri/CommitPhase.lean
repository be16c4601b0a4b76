import MegaZK.Fri.Folding
import MegaZK.Fri.Prover

/-! # The commit phase as a sequence of foldings

The trees of `fri_committed_trees` hold the values of one folding after the other, with the
challenges that the verifier derives from their caps. -/

namespace MegaZK

open Horner
open scoped QuadraticField

/-! ### What the loop keeps -/

/-- The leaves that are hashed for a folding. -/
def Codeword.leaves (w : Codeword) (arityBits : ℕ) : List (List GoldilocksField) :=
  (List.range (2 ^ (w.bits - arityBits))).map fun c => flatten (w.leafValues arityBits c)

/-- The loop holds the coefficients of a codeword and its values in order. -/
structure Codeword.HeldBy (w : Codeword) (loop : CommittedLoop) : Prop where
  coeffs : loop.coeffs = (List.range (2 ^ w.bits)).map w.coeffs
  values : loop.values = (List.range (2 ^ w.bits)).map fun i =>
    evalSum w.coeffs (2 ^ w.bits)
      (.C w.shift * QuadraticExtension.primitiveRootOfUnity w.bits ^ i)
  shift : loop.shift = w.shift

section Source

variable (permute : (Fin 12 → GoldilocksField) → Fin 12 → GoldilocksField) (capHeight : ℕ)

/-- Foldings from one codeword to another, each with its tree and its challenge. -/
inductive Foldings : Codeword → List ℕ → List (MerkleTree GoldilocksField) →
    List QuadraticExtension → Codeword → Prop
  | done (w : Codeword) : Foldings w [] [] [] w
  | fold {w w' : Codeword} {arityBits : ℕ} {arities : List ℕ} {tree : MerkleTree GoldilocksField}
      {trees : List (MerkleTree GoldilocksField)} {beta : QuadraticExtension}
      {betas : List QuadraticExtension}
      (htree : MerkleTree.new permute (w.leaves arityBits) capHeight = some tree)
      (rest : Foldings (w.fold arityBits beta) arities trees betas w') :
      Foldings w (arityBits :: arities) (tree :: trees) (beta :: betas) w'

variable {permute capHeight}

lemma Foldings.lengths {w w' : Codeword} {arities : List ℕ}
    {trees : List (MerkleTree GoldilocksField)} {betas : List QuadraticExtension}
    (h : Foldings permute capHeight w arities trees betas w') :
    trees.length = arities.length ∧ betas.length = arities.length := by
  induction h with
  | done w => exact ⟨rfl, rfl⟩
  | fold _ _ ih => simp only [List.length_cons, ih, and_self]

/-- Every tree has a cap of the height that it was built with. -/
lemma Foldings.cap_length {w w' : Codeword} {arities : List ℕ}
    {trees : List (MerkleTree GoldilocksField)} {betas : List QuadraticExtension}
    (h : Foldings permute capHeight w arities trees betas w') :
    ∀ tree ∈ trees, tree.cap.length = 2 ^ capHeight := by
  induction h with
  | done w =>
    intro tree htree
    cases htree
  | fold htree _ ih =>
    obtain ⟨_, _, _, rfl⟩ := MerkleTree.new_eq_some htree
    exact List.forall_mem_cons.mpr ⟨by simp, ih⟩

/-- The folded codeword has the sizes that the arities leave. -/
lemma Foldings.bits {w w' : Codeword} {arities : List ℕ} {trees : List (MerkleTree GoldilocksField)}
    {betas : List QuadraticExtension} (h : Foldings permute capHeight w arities trees betas w') :
    w'.bits = w.bits - arities.sum := by
  induction h with
  | done w => rfl
  | fold _ _ ih => rw [ih, Codeword.fold, List.sum_cons, Nat.sub_sub]

/-- Folding a polynomial of degree below `2 ^ d`. -/
lemma Foldings.coeffs_eq_zero {w w' : Codeword} {arities : List ℕ}
    {trees : List (MerkleTree GoldilocksField)} {betas : List QuadraticExtension}
    (h : Foldings permute capHeight w arities trees betas w') {d : ℕ} (hd : arities.sum ≤ d)
    (hw : ∀ k, 2 ^ d ≤ k → w.coeffs k = 0) {k : ℕ} (hk : 2 ^ (d - arities.sum) ≤ k) :
    w'.coeffs k = 0 := by
  induction h generalizing d with
  | done w => exact hw k hk
  | @fold w w' arityBits arities _ _ _ _ _ _ ih =>
    rw [List.sum_cons] at hd hk
    have hlen : 2 ^ d = 2 ^ (d - arityBits) * 2 ^ arityBits := by
      rw [← pow_add]
      congr 1
      omega
    refine ih (d := d - arityBits) (by omega) ?_ (by rwa [Nat.sub_sub])
    intro j hj
    rw [hlen] at hw
    exact foldCoeffs_eq_zero hw _ hj

/-! ### The prover -/

/-- The reversed values, cut into leaves. -/
lemma Codeword.HeldBy.leaves {w : Codeword} {loop : CommittedLoop} (h : w.HeldBy loop) {a : ℕ}
    (ha : a ≤ w.bits) (hbits : w.bits ≤ 32) : ∃ values, reverseIndexBitsInPlace loop.values =
      some values ∧ (chunks (2 ^ a) values).map flatten = w.leaves a := by
  have hlen : 2 ^ w.bits = 2 ^ (w.bits - a) * 2 ^ a := by rw [← pow_add, Nat.sub_add_cancel ha]
  have hvalue : ∀ x, evalSum w.coeffs (2 ^ w.bits)
      (.C w.shift * QuadraticExtension.primitiveRootOfUnity w.bits ^ reverseBits x w.bits) =
        w.value x := by
    intro x
    rw [value, point, QuadraticAlgebra.C_mul, QuadraticAlgebra.C_pow, primitiveRootOfUnity_C hbits]
  refine ⟨(List.range (2 ^ w.bits)).map w.value, ?_, ?_⟩
  · rw [h.values, reverseIndexBitsInPlace_map_range]
    simp only [hvalue]
  · rw [hlen, chunks_map_range _ (Nat.two_pow_pos a), List.map_map]
    rfl

variable (permute)

/-- One round of the prover folds the codeword. -/
lemma Codeword.HeldBy.round {w : Codeword} {loop : CommittedLoop} (h : w.HeldBy loop) {a : ℕ}
    (hcap : a + capHeight ≤ w.bits) (hbits : w.bits ≤ 32) :
    ∃ tree loop', MerkleTree.new permute (w.leaves a) capHeight = some tree ∧
      committedRound permute capHeight a loop = some (loop', tree) ∧
      (w.fold a (Host.observeRound permute tree.cap loop.transcript).1).HeldBy loop' ∧
      loop'.transcript = (Host.observeRound permute tree.cap loop.transcript).2 := by
  have hlen : 2 ^ w.bits = 2 ^ (w.bits - a) * 2 ^ a := by
    rw [← pow_add, Nat.sub_add_cancel (by omega)]
  obtain ⟨values, hvalues, hleaves⟩ := h.leaves (by omega : a ≤ w.bits) hbits
  obtain ⟨tree, htree⟩ : ∃ tree, MerkleTree.new permute (w.leaves a) capHeight = some tree :=
    MerkleTree.exists_new permute _ (by omega)
  set beta := (Host.observeRound permute tree.cap loop.transcript).1 with hbeta
  have hfolded : (chunksExact (2 ^ a) loop.coeffs).map (reduceWithPowersExt · beta) =
      (List.range (2 ^ (w.bits - a))).map (w.fold a beta).coeffs := by
    rw [h.coeffs, hlen, chunksExact_map_range _ (Nat.two_pow_pos a), List.map_map]
    apply List.map_congr_left
    intro c _
    rw [Function.comp_apply, reduceWithPowersExt_map_range]
    rfl
  refine ⟨tree, { coeffs := (List.range (2 ^ (w.bits - a))).map (w.fold a beta).coeffs
                  values := _
                  shift := w.shift ^ 2 ^ a
                  transcript := (Host.observeRound permute tree.cap loop.transcript).2 },
    htree, ?_, ⟨rfl, rfl, rfl⟩, rfl⟩
  simp only [committedRound, hvalues, Nat.one_shiftLeft, hleaves, htree, Option.bind_eq_bind,
    Option.bind_some, ← hbeta, hfolded, h.shift, cosetFft_map_range]
  rfl

/-- The rounds fold the codeword with the challenges that the verifier derives from the caps. -/
lemma Codeword.HeldBy.rounds {w : Codeword} {loop : CommittedLoop} (h : w.HeldBy loop)
    {arities : List ℕ} (hcap : arities.sum + capHeight ≤ w.bits) (hbits : w.bits ≤ 32) :
    ∃ loop' trees betas w', committedRounds permute capHeight arities loop = some (loop', trees) ∧
      Foldings permute capHeight w arities trees betas w' ∧ w'.HeldBy loop' ∧
      Host.foldingBetas permute (trees.map fun tree => proofOf tree.cap) loop.transcript =
        (betas, loop'.transcript) := by
  induction arities generalizing w loop with
  | nil => exact ⟨loop, [], [], w, rfl, .done w, h, rfl⟩
  | cons a arities ih =>
    rw [List.sum_cons] at hcap
    obtain ⟨tree, loop₁, htree, hround, hheld, htranscript⟩ :=
      h.round permute (by omega : a + capHeight ≤ w.bits) hbits
    have hbits₁ : (w.fold a (Host.observeRound permute tree.cap loop.transcript).1).bits =
      w.bits - a := rfl
    obtain ⟨loop', trees, betas, w', hrounds, hfoldings, hheld', hbetas⟩ :=
      ih hheld (by omega) (by omega)
    refine ⟨loop', tree :: trees, _ :: betas, w', ?_, .fold htree hfoldings, hheld', ?_⟩
    · rw [committedRounds, hround]
      simp only [Option.bind_eq_bind, Option.bind_some, hrounds]
      rfl
    · rw [htranscript] at hbetas
      have hobserve := congrArg (Prod.map (List.cons
        (Host.observeRound permute tree.cap loop.transcript).1) id) hbetas
      exact hobserve

end Source

end MegaZK
