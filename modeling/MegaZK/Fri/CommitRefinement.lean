import MegaZK.Fri.CommittedTrees

/-! # The FRI commit stage against the host

Both loops keep the same polynomial, its values and challengers that are in step, as long as every
fold that is evaluated for another round has at least 32 coefficients: a shorter one is not written
to the leaves of the next round. -/

namespace MegaZK

open Horner MerklePath Relational

/-! ### What the stage is for -/

namespace FriCommitRound

/-- The number of leaves of the tree of a round. -/
def leavesCount (r : FriCommitRound) : ℕ := r.digests.len / 8

/-- A round holds a tree of the host: its leaves, its digests in the order of the host, its cap. -/
structure HoldsTree (capHeight : ℕ) (r : FriCommitRound) (tree : MerkleTree GoldilocksField) :
    Prop where
  leaves : tree.leaves = (List.range r.leavesCount).map
    (leafOf r.transposedLeaves.cell r.leavesCount (r.transposedLeaves.len / r.leavesCount))
  digests : tree.digests = (List.range (2 ^ capHeight)).flatMap
    (digestsUnder (nodeAt r.digests.cell (Nat.log2 r.leavesCount))
      (Nat.log2 r.leavesCount - capHeight))
  cap : tree.cap = (List.range (2 ^ capHeight)).map
    (nodeAt r.digests.cell (Nat.log2 r.leavesCount) (Nat.log2 r.leavesCount - capHeight))

/-- Everything that a round writes before it reads it is zero. -/
structure Zeroed (r : FriCommitRound) : Prop where
  digests : ∀ i, r.digests.cell i = 0
  transposedLeaves : ∀ i, r.transposedLeaves.cell i = 0
  coefficients : ∀ i, r.coefficients.cell i = 0

end FriCommitRound

/-- The stage leaves what the host returns, and everything went through the transcripts in the same
order. -/
structure CommitStage.Matches (rateBits capHeight : ℕ) (stage : CommitStage)
    (host : CommittedTrees) : Prop where
  trees : List.Forall₂ (FriCommitRound.HoldsTree capHeight) stage.rounds host.trees
  caps : stage.caps = host.trees.map fun tree => tree.cap.map List.ofFn
  finalCoefficients : stage.finalCoefficients.take (stage.finalCoefficients.length >>> rateBits) =
    flatten host.coeffs
  transcript : stage.transcript.2 = host.transcript.2

namespace CommonCircuitData

variable (c : CommonCircuitData) (permute : (Fin 12 → GoldilocksField) → Fin 12 → GoldilocksField)

/-- `lde`: the coefficients of a polynomial, padded for the extended domain. -/
def ldeCoeffs (coefficients : ℕ → QuadraticExtension) : List QuadraticExtension :=
  (List.range (2 ^ c.ldeBits)).map fun i => if i < 2 ^ c.degreeBits then coefficients i else 0

/-- The buffers before the stage: the leaves of the first round are the values, reversed, and the
rest is zero. -/
structure CommitStageStart (values : List QuadraticExtension) (rounds : List FriCommitRound) :
    Prop where
  sizes : List.Forall₂ FriCommitRound.HasSize c.friCommitPartLens rounds
  leaves : ∀ r ∈ rounds.head?, ∀ i < 2 ^ c.ldeBits,
    r.leaves.cell i = values.getD (reverseBits i c.ldeBits) 0
  zeroed : ∀ r ∈ rounds, r.Zeroed
  tail : ∀ r ∈ rounds.tail, ∀ i, r.leaves.cell i = 0

/-- For every polynomial, with its values on the coset in zeroed buffers, and challengers that are
in step after a challenge, the stage ends and leaves what `fri_committed_trees` returns. -/
def CommitsLikeHost : Prop :=
  ∀ coefficients values rounds o s t,
    PolynomialCoeffs.cosetFft (c.ldeCoeffs coefficients) (.C 7) = some values →
    c.CommitStageStart values rounds → o ≤ 8 → InStep 0 o s t →
    ∃ stage host, c.friCommitStage permute coefficients rounds t = some stage ∧
      MegaZK.friCommittedTrees permute c.rateBits c.capHeight c.reductionArityBits
        (c.ldeCoeffs coefficients) values s = some host ∧
      stage.Matches c.rateBits c.capHeight host

/-- The stage runs, every fold that is evaluated fills a warp of the kernel that pads it, and the
cap is absorbed in whole blocks. -/
structure CommitFollowsHost : Prop where
  fits : c.CommitStageFits
  folds : c.reductionArityBits.dropLast ≠ [] →
    c.reductionArityBits.dropLast.sum + 5 ≤ c.degreeBits
  cap : 1 ≤ c.capHeight

end CommonCircuitData

/-! ### One round -/

/-- The coefficients below `2 ^ m`, padded. -/
def paddedCoeffs (m : ℕ) (f : ℕ → QuadraticExtension) (i : ℕ) : QuadraticExtension :=
  if i < 2 ^ m then f i else 0

/-- Before a round both loops keep the same polynomial of degree below `2 ^ m`, its reversed values
are the leaves, and the challengers are in step. -/
structure LoopsAgree (rateBits m o : ℕ) (loop : CommitLoop) (leaves : ℕ → QuadraticExtension)
    (host : CommittedLoop) : Prop where
  coeffs : host.coeffs =
    (List.range (2 ^ (m + rateBits))).map (paddedCoeffs m loop.coefficients)
  values : reverseIndexBitsInPlace host.values =
    some ((List.range (2 ^ (m + rateBits))).map leaves)
  shift : host.shift = loop.shift
  transcript : InStep 0 o host.transcript loop.transcript

/-- The values on the coset of `shift`, in order. -/
def cosetValues (n : ℕ) (f : ℕ → QuadraticExtension) (shift : GoldilocksField) :
    List QuadraticExtension :=
  (List.range (2 ^ n)).map fun i =>
    evalSum f (2 ^ n) (.C shift * QuadraticExtension.primitiveRootOfUnity n ^ i)

/-- After the folding of a round the host has evaluated the polynomial, and the device not yet. -/
structure LoopsFolded (rateBits m a : ℕ) (loop : CommitLoop) (host : CommittedLoop) : Prop where
  coeffs : host.coeffs =
    (List.range (2 ^ (m + rateBits))).map (paddedCoeffs m loop.coefficients)
  values : host.values =
    cosetValues (m + rateBits) (paddedCoeffs m loop.coefficients) (loop.shift ^ 2 ^ a)
  shift : host.shift = loop.shift ^ 2 ^ a
  transcript : InStep 0 6 host.transcript loop.transcript

section Round

variable {permute : (Fin 12 → GoldilocksField) → Fin 12 → GoldilocksField} {capHeight : ℕ}

/-- The cap that the device absorbs is the layer of the tree that the host absorbs. -/
lemma assembleCap_nodeAt {tree : DeviceBuffer GoldilocksField} {n : ℕ} (hcap : capHeight ≤ n)
    (hn : n ≤ 28) (hlen : tree.len = 8 * 2 ^ n) :
    assembleCap tree capHeight =
      ((List.range (2 ^ capHeight)).map (nodeAt tree.cell n (n - capHeight))).map List.ofFn := by
  have hpow : 2 ^ n ≤ 2 ^ 28 := Nat.pow_le_pow_right (by decide) hn
  have hpow' : 2 ^ capHeight ≤ 2 ^ n := Nat.pow_le_pow_right (by decide) hcap
  rw [assembleCap_eq, capHashes_eq hcap hlen (by omega)]

lemma triple_observeRound {o n : ℕ} (ho : o ≤ 8) (hpos : 1 ≤ capHeight) (hcap : capHeight ≤ n)
    (hn : n ≤ 28) {tree : DeviceBuffer GoldilocksField} (hlen : tree.len = 8 * 2 ^ n) :
    Triple (InStep 0 o)
      (Host.observeRound permute
        ((List.range (2 ^ capHeight)).map (nodeAt tree.cell n (n - capHeight))))
      (observeRound permute capHeight tree) (InStep 0 6) := by
  have hpow : tree.len = 2 ^ (n + 3) := by
    rw [hlen, pow_add, mul_comm]
    rfl
  rw [Host.observeRound, ← assembleCap_nodeAt hcap hn hlen]
  refine Triple.bind (triple_cap ho hpos hpow (by omega) (by omega)) fun _ => ?_
  refine Triple.bind (triple_sample 0 8 (by decide) (by decide)) fun beta => ?_
  exact Triple.pure _

variable {rateBits m a o : ℕ} {loop loop' : CommitLoop} {r r' : FriCommitRound}
  {cap : List (List GoldilocksField)} {host : CommittedLoop}

/-- The tree that the host builds over the leaves of a round is the one that the round holds. -/
lemma CommitRoundResult.holdsTree (hcap : capHeight ≤ m + rateBits)
    (h : CommitRoundResult permute capHeight (m + rateBits) m a loop r loop' r' cap) :
    ∃ tree, MerkleTree.new permute
        ((List.range (2 ^ (m + rateBits))).map (friLeaf r.leaves.cell (2 ^ a))) capHeight =
          some tree ∧ r'.HoldsTree capHeight tree ∧
      tree.cap = (List.range (2 ^ capHeight)).map
        (nodeAt r'.digests.cell (m + rateBits) (m + rateBits - capHeight)) := by
  have hpos : 0 < 2 ^ (m + rateBits) := Nat.two_pow_pos _
  have hcount : r'.leavesCount = 2 ^ (m + rateBits) := by
    rw [FriCommitRound.leavesCount, h.sized.digests, Nat.mul_div_cancel_left _ (by decide)]
  have hwidth : r'.transposedLeaves.len / r'.leavesCount = 2 * 2 ^ a := by
    rw [hcount, h.sized.transposedLeaves, ← mul_assoc, mul_comm 2, mul_assoc,
      Nat.mul_div_cancel_left _ hpos]
  have hlog : Nat.log2 r'.leavesCount = m + rateBits := by rw [hcount, Nat.log2_two_pow]
  have hleaves : r'.leaves.len / 2 ^ a = 2 ^ (m + rateBits) := by
    rw [h.sized.leaves, Nat.mul_div_cancel _ (Nat.two_pow_pos a)]
  have hhashed : ∀ x < 2 ^ (m + rateBits),
      leafOf r'.transposedLeaves.cell (2 ^ (m + rateBits)) (2 * 2 ^ a) x =
          friLeaf r.leaves.cell (2 ^ a) x ∧
        nodeAt r'.digests.cell (m + rateBits) 0 x =
          hashOrNoop permute (friLeaf r.leaves.cell (2 ^ a) x) := by
    intro x hx
    have hx' := h.hashed x (by rwa [hleaves])
    rw [hleaves, h.leaves] at hx'
    rw [nodeAt, layerOffset_zero, Nat.zero_add]
    exact hx'
  refine ⟨_, MerkleTree.new_map_range (fun x hx => (hhashed x hx).2) h.tree hcap, ?_, rfl⟩
  constructor
  · rw [hwidth, hcount]
    apply List.map_congr_left
    intro x hx
    exact (hhashed x (List.mem_range.mp hx)).1.symm
  · rw [hlog]
  · rw [hlog]

/-- The chunks of the padded coefficients, at the challenge. -/
lemma evalSum_paddedCoeffs (f : ℕ → QuadraticExtension) (beta : QuadraticExtension) (c : ℕ) :
    evalSum (fun j => paddedCoeffs (m + a) f (c * 2 ^ a + j)) (2 ^ a) beta =
      paddedCoeffs m (fun g => evalSum (fun j => f (g * 2 ^ a + j)) (2 ^ a) beta) c := by
  have hpow : 2 ^ (m + a) = 2 ^ m * 2 ^ a := pow_add 2 m a
  by_cases hc : c < 2 ^ m
  · rw [paddedCoeffs, if_pos hc]
    apply evalSum_congr
    intro j hj
    have hlt : c * 2 ^ a + j < 2 ^ (m + a) := by
      calc c * 2 ^ a + j < (c + 1) * 2 ^ a := by rw [Nat.succ_mul]; omega
        _ ≤ 2 ^ (m + a) := by rw [hpow]; exact Nat.mul_le_mul_right _ hc
    rw [paddedCoeffs, if_pos hlt]
  · rw [paddedCoeffs, if_neg hc, evalSum]
    apply Finset.sum_eq_zero
    intro j _
    have hle : 2 ^ (m + a) ≤ c * 2 ^ a + j := by
      rw [hpow]
      exact (Nat.mul_le_mul_right _ (not_lt.mp hc)).trans (Nat.le_add_right _ _)
    rw [paddedCoeffs, if_neg (not_lt.mpr hle), zero_mul]

/-- A round of the host after the same round of the device. -/
lemma LoopsAgree.round (ho : o ≤ 8) (hpos : 1 ≤ capHeight) (hcap : capHeight ≤ m + rateBits)
    (hn : m + rateBits ≤ 28) (hagree : LoopsAgree rateBits (m + a) o loop r.leaves.cell host)
    (h : CommitRoundResult permute capHeight (m + rateBits) m a loop r loop' r' cap) :
    ∃ host' tree, committedRound permute capHeight a host = some (host', tree) ∧
      r'.HoldsTree capHeight tree ∧ cap = tree.cap.map List.ofFn ∧
      LoopsFolded rateBits m a loop' host' := by
  obtain ⟨tree, htree, hholds, hnodes⟩ := h.holdsTree hcap
  have htriple : Triple (InStep 0 o) (Host.observeRound permute _)
      (observeRound permute capHeight r'.digests) (InStep 0 6) :=
    triple_observeRound ho hpos hcap hn h.sized.digests
  obtain ⟨hbeta, hstep⟩ := htriple host.transcript loop.transcript hagree.transcript
  rw [← hnodes] at hbeta hstep
  have hlen : 2 ^ (m + a + rateBits) = 2 ^ (m + rateBits) * 2 ^ a := by
    rw [← pow_add]
    congr 1
    omega
  have hvalues := hagree.values
  have hcoeffs := hagree.coeffs
  rw [hlen] at hvalues hcoeffs
  have hleaves : (chunks (2 ^ a) ((List.range (2 ^ (m + rateBits) * 2 ^ a)).map
        r.leaves.cell)).map flatten =
      (List.range (2 ^ (m + rateBits))).map (friLeaf r.leaves.cell (2 ^ a)) := by
    rw [chunks_map_range _ (Nat.two_pow_pos a), List.map_map]
    rfl
  set beta := (Host.observeRound permute tree.cap host.transcript).1 with hbeta_def
  have hfolded : (chunksExact (2 ^ a) host.coeffs).map (reduceWithPowersExt · beta) =
      (List.range (2 ^ (m + rateBits))).map (paddedCoeffs m loop'.coefficients) := by
    rw [hcoeffs, chunksExact_map_range _ (Nat.two_pow_pos a), List.map_map]
    apply List.map_congr_left
    intro c _
    rw [Function.comp_apply, reduceWithPowersExt_map_range, evalSum_paddedCoeffs, h.coefficients]
    by_cases hc : c < 2 ^ m
    · rw [paddedCoeffs, paddedCoeffs, if_pos hc, if_pos hc, h.folded c hc]
      exact congrArg _ hbeta
    · rw [paddedCoeffs, paddedCoeffs, if_neg hc, if_neg hc]
  refine ⟨{ coeffs := (List.range (2 ^ (m + rateBits))).map (paddedCoeffs m loop'.coefficients)
            values := cosetValues (m + rateBits) (paddedCoeffs m loop'.coefficients)
              (host.shift ^ 2 ^ a)
            shift := host.shift ^ 2 ^ a
            transcript := (Host.observeRound permute tree.cap host.transcript).2 },
    tree, ?_, hholds, ?_, ⟨rfl, ?_, ?_, ?_⟩⟩
  · simp only [committedRound, hvalues, Nat.one_shiftLeft, hleaves, htree, Option.bind_eq_bind,
      Option.bind_some, ← hbeta_def, hfolded, cosetFft_map_range]
    rfl
  · rw [hnodes, h.cap, assembleCap_nodeAt hcap hn h.sized.digests]
  · rw [h.shift, hagree.shift]
  · rw [h.shift, hagree.shift]
  · rw [← h.transcript]
    exact hstep

/-- What the device evaluates for the next round is what the host has evaluated. -/
lemma LoopsFolded.evaluate (hm : 5 ≤ m) (hlde : m + rateBits ≤ 31) (hdegree : loop.degree = 2 ^ m)
    (hbits : loop.degreeBits = m) (h : LoopsFolded rateBits m a loop host) {next : FriCommitRound}
    (hlen : next.leaves.len = 2 ^ (m + rateBits)) (hzero : ∀ i, next.leaves.cell i = 0)
    (rest : List FriCommitRound) :
    ∃ leaves, evaluateNext rateBits a loop (next :: rest) =
        some ({ loop with shift := loop.shift ^ 2 ^ a }, { next with leaves } :: rest) ∧
      leaves.len = next.leaves.len ∧
      LoopsAgree rateBits m 6 { loop with shift := loop.shift ^ 2 ^ a } leaves.cell host := by
  obtain ⟨padded, leaves, hpadded, hevaluate, hleaves, hcells⟩ := evaluateNext_padded (a := a)
    (by omega : 1 ≤ m + rateBits) hlde hdegree hbits hlen rest
  obtain ⟨padded', hpadded', hscaled⟩ := (padsCosetExt_of_le hm (by omega)).result
    (loop.shift ^ 2 ^ a) loop.coefficients next.leaves
    (by rw [hlen]; exact Nat.pow_le_pow_right (by decide) (by omega))
  obtain rfl : padded' = padded := Option.some.inj (hpadded'.symm.trans hpadded)
  have hcell : ∀ k, padded'.cell k =
      .C (loop.shift ^ 2 ^ a) ^ k * paddedCoeffs m loop.coefficients k := by
    intro k
    by_cases hk : k < 2 ^ m
    · rw [hscaled k hk, paddedCoeffs, if_pos hk, ← QuadraticAlgebra.C_pow,
        QuadraticAlgebra.C_mul_eq_smul]
    · rw [batchPadCosetExt_kept hm (by omega) hpadded (not_lt.mp hk), hzero, paddedCoeffs,
        if_neg hk, mul_zero]
  refine ⟨leaves, hevaluate, hleaves, ⟨h.coeffs, ?_, h.shift, h.transcript⟩⟩
  rw [h.values, cosetValues, reverseIndexBitsInPlace_map_range]
  congr 1
  apply List.map_congr_left
  intro i hi
  rw [hcells i (List.mem_range.mp hi)]
  apply Finset.sum_congr rfl
  intro k _
  rw [hcell, mul_pow]
  ring

end Round

section Rounds

variable {permute : (Fin 12 → GoldilocksField) → Fin 12 → GoldilocksField}
  {rateBits capHeight : ℕ} (hpos : 1 ≤ capHeight) (hcap : capHeight ≤ 8)

include hpos hcap

/-- A round of both loops. -/
lemma commitRound_agree {a m o : ℕ} (ha : 4 ≤ a ∧ a ≤ 30) (htree : capHeight ≤ m + rateBits)
    (hlde : m + rateBits + a ≤ 31) (ho : o ≤ 8) {loop : CommitLoop}
    (hlayers : loop.layersCount = m + a + rateBits + 1) (hdegree : loop.degree = 2 ^ (m + a))
    (hbits : loop.degreeBits = m + a) {r : FriCommitRound} (hr : r.Sized (m + rateBits) a)
    {host : CommittedLoop}
    (hagree : LoopsAgree rateBits (m + a) o loop r.leaves.cell host) :
    ∃ loop' r' host' tree,
      commitRound permute capHeight a loop r = some (loop', r', tree.cap.map List.ofFn) ∧
        committedRound permute capHeight a host = some (host', tree) ∧
        CommitRoundResult permute capHeight (m + rateBits) m a loop r loop' r'
          (tree.cap.map List.ofFn) ∧
        r'.HoldsTree capHeight tree ∧ LoopsFolded rateBits m a loop' host' := by
  obtain ⟨loop', r', cap, hround, hresult⟩ := commitRound_spec permute ha.1 ha.2 hlde hcap
    (Nat.le_add_right m rateBits) (by rw [hlayers]; omega) hdegree hbits hr
  obtain ⟨host', tree, hhost, hholds, rfl, hfolded⟩ :=
    hagree.round ho hpos htree (by omega) hresult
  exact ⟨loop', r', host', tree, hround, hhost, hresult, hholds, hfolded⟩

end Rounds

/-! ### All rounds -/

/-- The last round holds the coefficients of the host. -/
def LastHolds (rateBits : ℕ) (last : FriCommitRound) (host : CommittedLoop) : Prop :=
  ∃ m, last.coefficients.len = 2 ^ (m + rateBits) ∧ m + rateBits ≤ 28 ∧
    host.coeffs = (List.range (2 ^ (m + rateBits))).map last.coefficients.cell

section Rounds

variable {permute : (Fin 12 → GoldilocksField) → Fin 12 → GoldilocksField}
  {rateBits capHeight : ℕ} (hpos : 1 ≤ capHeight) (hcap : capHeight ≤ 8)

include hpos hcap

/-- Both loops end with the same trees and coefficients. -/
lemma commitRounds_agree {a : ℕ} {arities : List ℕ}
    (harities : ∀ a' ∈ a :: arities, 4 ≤ a' ∧ a' ≤ 30) {m o : ℕ}
    (hsum : (a :: arities).sum ≤ m) (htree : (a :: arities).sum + capHeight ≤ m + rateBits)
    (hfolds : (a :: arities).dropLast ≠ [] → (a :: arities).dropLast.sum + 5 ≤ m)
    (hlde : m + rateBits ≤ 31) (ho : o ≤ 8) {loop : CommitLoop}
    (hlayers : loop.layersCount = m + rateBits + 1) (hdegree : loop.degree = 2 ^ m)
    (hbits : loop.degreeBits = m) {r : FriCommitRound} {rest : List FriCommitRound}
    (hrounds : List.Forall₂ FriCommitRound.HasSize
      (friCommitPartLensFrom (8 * 2 ^ (m + rateBits)) (2 * 2 ^ (m + rateBits)) (a :: arities))
      (r :: rest))
    (hzeroed : ∀ r' ∈ r :: rest, r'.Zeroed) (hzero : ∀ r' ∈ rest, ∀ i, r'.leaves.cell i = 0)
    {host : CommittedLoop} (hagree : LoopsAgree rateBits m o loop r.leaves.cell host) :
    ∃ loop' dones host' trees,
      commitRounds permute rateBits capHeight (a :: arities) loop (r :: rest) =
          some (loop', dones) ∧
        committedRounds permute capHeight (a :: arities) host = some (host', trees) ∧
        List.Forall₂ (FriCommitRound.HoldsTree capHeight) (dones.map fun d => d.1) trees ∧
        dones.map (fun d => d.2) = trees.map (fun tree => tree.cap.map List.ofFn) ∧
        (∀ last ∈ dones.getLast?, LastHolds rateBits last.1 host') ∧
        dones.length = (a :: arities).length ∧ InStep 0 6 host'.transcript loop'.transcript := by
  induction arities generalizing a m o loop r rest host with
  | nil =>
    rw [List.sum_singleton] at hsum htree
    obtain ⟨m, rfl⟩ : ∃ m', m = m' + a := ⟨m - a, by omega⟩
    have hbits' : m + a + rateBits = m + rateBits + a := by omega
    rw [hbits'] at hrounds
    obtain ⟨r, rest, hcons, hr, -⟩ := hasSize_cons hrounds
    cases hcons
    have ha := harities a (List.mem_cons_self ..)
    obtain ⟨loop₁, r', host₁, tree, hround, hhost, hresult, hholds, hfolded⟩ :=
      commitRound_agree hpos hcap ha (by omega) (by omega) ho hlayers hdegree hbits hr hagree
    refine ⟨loop₁, [(r', tree.cap.map List.ofFn)], host₁, [tree], ?_, ?_, .cons hholds .nil, rfl,
      ?_, rfl, hfolded.transcript⟩
    · rw [commitRounds, hround]
      rfl
    · rw [committedRounds, hhost]
      rfl
    · intro last hlast
      obtain rfl : (r', tree.cap.map List.ofFn) = last := Option.some.inj hlast
      refine ⟨m, hresult.sized.coefficients, by omega, ?_⟩
      rw [hfolded.coeffs, hresult.coefficients]
      apply List.map_congr_left
      intro g _
      by_cases hg : g < 2 ^ m
      · rw [paddedCoeffs, if_pos hg]
      · rw [paddedCoeffs, if_neg hg, hresult.kept g (not_lt.mp hg),
          (hzeroed r (List.mem_cons_self ..)).coefficients]
  | cons a' arities ih =>
    rw [List.sum_cons] at hsum htree
    obtain ⟨m, rfl⟩ : ∃ m', m = m' + a := ⟨m - a, by omega⟩
    have hbits' : m + a + rateBits = m + rateBits + a := by omega
    rw [hbits'] at hrounds
    obtain ⟨r, rest, hcons, hr, hrest⟩ := hasSize_cons hrounds
    cases hcons
    obtain ⟨loop₁, r', host₁, tree, hround, hhost, hresult, hholds, hfolded⟩ :=
      commitRound_agree hpos hcap (harities a (List.mem_cons_self ..)) (by omega) (by omega) ho
        hlayers hdegree hbits hr hagree
    -- the fold of this round is evaluated, so that it is long enough for the kernel
    have hfold : (a' :: arities).dropLast.sum + 5 ≤ m := by
      have := hfolds (by simp)
      rw [List.dropLast_cons_of_ne_nil (by simp), List.sum_cons] at this
      omega
    have hsizes := hrest
    simp only [friCommitPartLensFrom] at hrest
    cases hrest with
    | cons hnext hrest =>
      rename_i next rest
      have hlen : 2 * next.leaves.len = 2 * 2 ^ (m + rateBits) := hnext.leaves
      obtain ⟨leaves, hevaluate, hlength, hagree₂⟩ := hfolded.evaluate (by omega) (by omega)
        hresult.degree hresult.degreeBits (by omega) (hzero next (List.mem_cons_self ..)) rest
      have hnextZeroed := hzeroed next (by simp)
      have hlayers₂ : ({ loop₁ with shift := loop₁.shift ^ 2 ^ a } : CommitLoop).layersCount =
        m + rateBits + 1 := hresult.layersCount
      obtain ⟨loop', dones, host', trees, hdones, htrees, hall, hcaps, hlast, hcount, hstep⟩ :=
        ih (fun b hb => harities b (List.mem_cons_of_mem _ hb))
          (by omega) (by omega) (fun _ => hfold) (by omega) (by decide : 6 ≤ 8) hlayers₂
          hresult.degree hresult.degreeBits (.cons (hnext.withLeaves hlength) hrest)
          (List.forall_mem_cons.mpr ⟨⟨hnextZeroed.digests, hnextZeroed.transposedLeaves,
            hnextZeroed.coefficients⟩, fun b hb => hzeroed b (by simp [hb])⟩)
          (fun b hb => hzero b (List.mem_cons_of_mem _ hb)) hagree₂
      refine ⟨loop', (r', tree.cap.map List.ofFn) :: dones, host', tree :: trees, ?_, ?_,
        .cons hholds hall, ?_, ?_, by simp [hcount], hstep⟩
      · rw [commitRounds, hround]
        simp only [Option.bind_eq_bind, Option.bind_some, List.isEmpty_cons, nextRounds,
          Bool.false_eq_true, if_false, hevaluate, hdones]
        rfl
      · rw [committedRounds, hhost]
        simp only [Option.bind_eq_bind, Option.bind_some, htrees]
        rfl
      · rw [List.map_cons, hcaps, List.map_cons]
      · have hne : dones ≠ [] := by
          rintro rfl
          simp at hcount
        rw [List.getLast?_cons_of_ne_nil hne]
        exact hlast

end Rounds

/-! ### The whole stage -/

section Stage

variable {permute : (Fin 12 → GoldilocksField) → Fin 12 → GoldilocksField}

/-- What the host keeps are the words of the last round that the device absorbs. -/
lemma LastHolds.flatten {rateBits : ℕ} {last : FriCommitRound} {host : CommittedLoop}
    (h : LastHolds rateBits last host) :
    ∃ m, (2 * last.coefficients.len) >>> rateBits = 2 * 2 ^ m ∧ m ≤ 28 ∧
      flatten (host.coeffs.take (host.coeffs.length >>> rateBits)) =
        (List.range (2 * 2 ^ m)).map (words last.coefficients.cell) := by
  obtain ⟨m, hlen, hm, hcoeffs⟩ := h
  have hshift : ∀ k, (k * 2 ^ (m + rateBits)) >>> rateBits = k * 2 ^ m := by
    intro k
    rw [Nat.shiftRight_eq_div_pow, pow_add, ← mul_assoc, Nat.mul_div_cancel _ (Nat.two_pow_pos _)]
  have hhost := hshift 1
  rw [one_mul, one_mul] at hhost
  have hle : 2 ^ m ≤ 2 ^ (m + rateBits) := Nat.pow_le_pow_right (by decide) (by omega)
  refine ⟨m, by rw [hlen, hshift], by omega, ?_⟩
  rw [hcoeffs, List.length_map, List.length_range, hhost, ← List.map_take, List.take_range,
    min_eq_left hle, flatten_map_range]

lemma take_map_range (f : ℕ → GoldilocksField) {k n : ℕ} (h : k ≤ n) :
    ((List.range n).map f).take k = (List.range k).map f := by
  rw [← List.map_take, List.take_range, min_eq_left h]

/-- Both sides absorb the same coefficients. -/
lemma observe_coefficients (coeffs : List QuadraticExtension) {f : ℕ → GoldilocksField} {k n : ℕ}
    (hk : k < 2 ^ 32) (hcoeffs : flatten coeffs = (List.range k).map f)
    {s : Challenger GoldilocksField × List (Event GoldilocksField)}
    {t : ChallengerGpu GoldilocksField × List (Event GoldilocksField)} (hlog : s.2 = t.2) :
    (Device.observe permute ⟨n, f⟩ k 0 t).2.2 =
      (Host.observeAll permute (coeffs.map fun c => [c.re, c.im]) s).2.2 := by
  have hflatten : (coeffs.map fun c => [c.re, c.im]).flatten = flatten coeffs := by
    rw [← List.flatMap_def]
    rfl
  rw [Host.observeAll_eq, hflatten, hcoeffs]
  change t.2 ++ _ = s.2 ++ _
  rw [hlog, u32_of_lt hk]
  congr 2
  apply List.map_congr_left
  intro i hi
  have hi := List.mem_range.mp hi
  rw [u32_of_lt (x := 0) (by decide), u32_of_lt (by omega), Nat.add_zero]

/-- What the host returns after its rounds. -/
lemma friCommittedTrees_of_rounds {rateBits capHeight : ℕ} {arities : List ℕ}
    {coeffs values : List QuadraticExtension}
    {s : Challenger GoldilocksField × List (Event GoldilocksField)} {host : CommittedLoop}
    {trees : List (MerkleTree GoldilocksField)}
    (h : committedRounds permute capHeight arities ⟨coeffs, values, 7, s⟩ = some (host, trees)) :
    friCommittedTrees permute rateBits capHeight arities coeffs values s = some
      { trees
        coeffs := host.coeffs.take (host.coeffs.length >>> rateBits)
        transcript := (Host.observeAll permute ((host.coeffs.take
          (host.coeffs.length >>> rateBits)).map fun c => [c.re, c.im]) host.transcript).2 } := by
  rw [friCommittedTrees, h]
  rfl

end Stage

namespace CommonCircuitData

variable {c : CommonCircuitData}
  {permute : (Fin 12 → GoldilocksField) → Fin 12 → GoldilocksField}

/-- The state of both sides before the first round. -/
lemma CommitStageStart.agree {coefficients : ℕ → QuadraticExtension}
    {values : List QuadraticExtension} {r : FriCommitRound} {rest : List FriCommitRound}
    (hvalues : PolynomialCoeffs.cosetFft (c.ldeCoeffs coefficients) (.C 7) = some values)
    (hstart : c.CommitStageStart values (r :: rest)) {o : ℕ}
    {s : Challenger GoldilocksField × List (Event GoldilocksField)}
    {t : ChallengerGpu GoldilocksField × List (Event GoldilocksField)} (hstep : InStep 0 o s t) :
    LoopsAgree c.rateBits c.degreeBits o (c.commitLoop coefficients t) r.leaves.cell
      { coeffs := c.ldeCoeffs coefficients, values, shift := 7, transcript := s } := by
  refine ⟨rfl, ?_, rfl, hstep⟩
  have hleaves := hstart.leaves r rfl
  rw [ldeCoeffs, cosetFft_map_range] at hvalues
  cases hvalues
  rw [reverseIndexBitsInPlace_map_range]
  congr 1
  apply List.map_congr_left
  intro i hi
  rw [hleaves i (List.mem_range.mp hi)]
  simp [List.getD_eq_getElem?_getD, reverseBits_lt i c.ldeBits]

lemma CommitFollowsHost.commits (h : c.CommitFollowsHost) : c.CommitsLikeHost permute := by
  intro coefficients values rounds o s t hvalues hstart ho hstep
  have hfits := h.fits
  have hsizes := hstart.sizes
  rw [friCommitPartLens_eq] at hsizes
  cases harities : c.reductionArityBits with
  | nil => exact absurd harities hfits.nonempty
  | cons a arities =>
    have htree := c.arities_le
    have hlist := hfits.arities
    have hsum := hfits.degree
    have hfolds := h.folds
    rw [harities] at hsizes htree hlist hsum hfolds
    cases rounds with
    | nil => cases hsizes
    | cons r rest =>
      obtain ⟨loop, dones, host, trees, hdones, htrees, hall, hcaps, hlast, hcount, hend⟩ :=
        commitRounds_agree h.cap hfits.cap hlist hsum htree hfolds hfits.lde ho rfl rfl rfl hsizes
          hstart.zeroed hstart.tail (hstart.agree hvalues hstep)
      have hne : dones ≠ [] := by
        rintro rfl
        simp at hcount
      obtain ⟨m, hshift, hm, hflatten⟩ :=
        (hlast (dones.getLast hne) (List.getLast?_eq_some_getLast hne)).flatten
      have hpow : 2 ^ m ≤ 2 ^ 28 := Nat.pow_le_pow_right (by decide) hm
      rw [← harities] at hdones hcount
      refine ⟨_, _, friCommitStage_of_rounds permute (List.cons_ne_nil _ _) hdones hcount hne,
        friCommittedTrees_of_rounds htrees, hall, hcaps, ?_, ?_⟩
      · have hle : 2 * 2 ^ m ≤ 2 * (dones.getLast hne).1.coefficients.len := by
          rw [← hshift]
          exact Nat.shiftRight_le _ _
        have hlength : (c.commitStageOf permute loop dones
            (dones.getLast hne).1).finalCoefficients.length =
              2 * (dones.getLast hne).1.coefficients.len := by
          simp [commitStageOf, extensionDegree]
        rw [hflatten, hlength, hshift]
        exact take_map_range _ hle
      · change (Device.observe permute ⟨2 * _, words _⟩ ((2 * _) >>> c.rateBits) 0 _).2.2 = _
        rw [hshift]
        exact observe_coefficients _ (by omega) hflatten hend.log

end CommonCircuitData

end MegaZK
