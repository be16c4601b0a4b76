import MegaZK.Fri.CommitStage
import MegaZK.Lib.Fold
import MegaZK.PartialProducts.Host

/-! # The committed trees of the host

`fri_committed_trees` of the prover: in every round the values are reversed, cut into leaves and
hashed, the cap enters the transcript, the coefficients are folded with the challenge that leaves
it, and evaluated on the next coset. A panic is `none`. -/

namespace MegaZK

open Horner MerklePath

/-! ### Source -/

/-- `log2_strict`. -/
def log2Strict (n : ℕ) : Option ℕ := if 2 ^ Nat.log2 n = n then some (Nat.log2 n) else none

/-- `slice::chunks_exact`. -/
def chunksExact {α : Type} (chunkSize : ℕ) (l : List α) : List (List α) :=
  (List.range (l.length / chunkSize)).map fun c => (l.drop (c * chunkSize)).take chunkSize

/-- `reverse_index_bits_in_place`. -/
def reverseIndexBitsInPlace {α : Type} (l : List α) : Option (List α) := do
  let nLog ← log2Strict l.length
  (List.range l.length).mapM fun i => l[reverseBits i nLog]?

/-- `fft`. -/
def fft (coeffs : List QuadraticExtension) : Option (List QuadraticExtension) := do
  let nLog ← log2Strict coeffs.length
  return (List.range coeffs.length).map fun i =>
    evalSum (coeffs.getD · 0) coeffs.length (QuadraticExtension.primitiveRootOfUnity nLog ^ i)

/-- `coset_fft`. -/
def PolynomialCoeffs.cosetFft (coeffs : List QuadraticExtension) (shift : QuadraticExtension) :
    Option (List QuadraticExtension) :=
  fft (coeffs.zipIdx.map fun c => shift ^ c.2 * c.1)

/-- `reduce_with_powers` on extension elements. -/
def reduceWithPowersExt (terms : List QuadraticExtension) (alpha : QuadraticExtension) :
    QuadraticExtension :=
  terms.foldr (fun term sum => sum * alpha + term) 0

structure MerkleTree (F : Type) where
  leaves : List (List F)
  digests : List (HashOut F)
  cap : List (HashOut F)

section Source

variable (permute : (Fin 12 → GoldilocksField) → Fin 12 → GoldilocksField)

/-- `fill_subtree` on `2 ^ k` leaves: the digest that it returns and the buffer that it fills. -/
def fillSubtree : ℕ → List (List GoldilocksField) →
    HashOut GoldilocksField × List (HashOut GoldilocksField)
  | 0, leaves => (hashOrNoop permute (leaves.headD []), [])
  | k + 1, leaves =>
    let (leftDigest, leftDigests) := fillSubtree k (leaves.take (2 ^ k))
    let (rightDigest, rightDigests) := fillSubtree k (leaves.drop (2 ^ k))
    (compress permute leftDigest rightDigest,
      leftDigests ++ leftDigest :: rightDigest :: rightDigests)

/-- `MerkleTree::new`. In a tree that is all cap the subtrees have one leaf each. -/
def MerkleTree.new (leaves : List (List GoldilocksField)) (capHeight : ℕ) :
    Option (MerkleTree GoldilocksField) := do
  let log2LeavesLen ← log2Strict leaves.length
  guard (capHeight ≤ log2LeavesLen)
  let subtrees := (chunksExact (leaves.length >>> capHeight) leaves).map
    (fillSubtree permute (log2LeavesLen - capHeight))
  return { leaves
           digests := subtrees.flatMap fun s => s.2
           cap := subtrees.map fun s => s.1 }

/-- `observe_cap` and `get_extension_challenge`. -/
def Host.observeRound (cap : List (HashOut GoldilocksField)) :
    Transcript (Challenger GoldilocksField) GoldilocksField QuadraticExtension := do
  Host.observeAll permute (cap.map List.ofFn)
  let beta ← Host.sample permute extensionDegree
  return ⟨beta.getD 0 0, beta.getD 1 0⟩

/-- What the loop of the host keeps between rounds. -/
structure CommittedLoop where
  coeffs : List QuadraticExtension
  values : List QuadraticExtension
  shift : GoldilocksField
  transcript : Challenger GoldilocksField × List (Event GoldilocksField)

/-- One round of the loop. -/
def committedRound (capHeight arityBits : ℕ) (loop : CommittedLoop) :
    Option (CommittedLoop × MerkleTree GoldilocksField) := do
  let arity := 1 <<< arityBits
  let values ← reverseIndexBitsInPlace loop.values
  let tree ← MerkleTree.new permute ((chunks arity values).map flatten) capHeight
  let observed := Host.observeRound permute tree.cap loop.transcript
  let coeffs := (chunksExact arity loop.coeffs).map (reduceWithPowersExt · observed.1)
  let shift := loop.shift ^ arity
  let values ← PolynomialCoeffs.cosetFft coeffs (.C shift)
  return ({ coeffs, values, shift, transcript := observed.2 }, tree)

/-- The loop over the arities. -/
def committedRounds (capHeight : ℕ) :
    List ℕ → CommittedLoop → Option (CommittedLoop × List (MerkleTree GoldilocksField))
  | [], loop => some (loop, [])
  | arityBits :: arities, loop => do
    let (loop, tree) ← committedRound permute capHeight arityBits loop
    let (loop, trees) ← committedRounds capHeight arities loop
    return (loop, tree :: trees)

/-- What `fri_committed_trees` returns, and the challenger that it leaves. -/
structure CommittedTrees where
  trees : List (MerkleTree GoldilocksField)
  coeffs : List QuadraticExtension
  transcript : Challenger GoldilocksField × List (Event GoldilocksField)

/-- `fri_committed_trees`. -/
def friCommittedTrees (rateBits capHeight : ℕ) (reductionArityBits : List ℕ)
    (coeffs values : List QuadraticExtension)
    (transcript : Challenger GoldilocksField × List (Event GoldilocksField)) :
    Option CommittedTrees := do
  let (loop, trees) ← committedRounds permute capHeight reductionArityBits
    { coeffs, values, shift := 7, transcript }
  let coeffs := loop.coeffs.take (loop.coeffs.length >>> rateBits)
  let observed := Host.observeAll permute (coeffs.map fun c => [c.re, c.im]) loop.transcript
  return { trees, coeffs, transcript := observed.2 }

end Source

/-! ### Lists of known length -/

@[simp] lemma log2Strict_two_pow (n : ℕ) : log2Strict (2 ^ n) = some n := by
  simp [log2Strict, Nat.log2_two_pow]

lemma chunksExact_map_range {α : Type} (f : ℕ → α) {n q : ℕ} (hq : 0 < q) :
    chunksExact q ((List.range (n * q)).map f) =
      (List.range n).map fun c => (List.range q).map fun t => f (c * q + t) := by
  have hcount : ((List.range (n * q)).map f).length / q = n := by
    rw [List.length_map, List.length_range, Nat.mul_div_cancel n hq]
  rw [chunksExact, hcount]
  apply List.map_congr_left
  intro c hc
  have hle : c * q + q ≤ n * q := by
    rw [← Nat.succ_mul]
    exact Nat.mul_le_mul_right q (List.mem_range.mp hc)
  apply List.ext_getElem
  · simp only [List.length_take, List.length_drop, List.length_map, List.length_range]
    omega
  · intro i _ _
    simp

lemma reverseIndexBitsInPlace_map_range {α : Type} (f : ℕ → α) (n : ℕ) :
    reverseIndexBitsInPlace ((List.range (2 ^ n)).map f) =
      some ((List.range (2 ^ n)).map fun i => f (reverseBits i n)) := by
  simp only [reverseIndexBitsInPlace, List.length_map, List.length_range, log2Strict_two_pow,
    Option.bind_eq_bind, Option.bind_some]
  apply Fold.mapM_eq_some_map
  intro i _
  simp [reverseBits_lt i n]

lemma reduceWithPowersExt_map_range (f : ℕ → QuadraticExtension) (n : ℕ)
    (alpha : QuadraticExtension) :
    reduceWithPowersExt ((List.range n).map f) alpha = evalSum f n alpha := by
  have hfold : ∀ acc, ((List.range n).map f).foldr (fun term sum => sum * alpha + term) acc =
      hornerFrom f alpha n acc := by
    induction n with
    | zero => exact fun _ => rfl
    | succ n ih =>
      intro acc
      rw [List.range_succ, List.map_append, List.foldr_append, ih]
      rfl
  rw [reduceWithPowersExt, hfold, hornerFrom_eq, zero_mul, zero_add]

lemma fft_map_range (f : ℕ → QuadraticExtension) (n : ℕ) :
    fft ((List.range (2 ^ n)).map f) = some ((List.range (2 ^ n)).map fun i =>
      evalSum f (2 ^ n) (QuadraticExtension.primitiveRootOfUnity n ^ i)) := by
  simp only [fft, List.length_map, List.length_range, log2Strict_two_pow, Option.bind_eq_bind,
    Option.bind_some, Option.pure_def, Option.some.injEq]
  apply List.map_congr_left
  intro i _
  apply evalSum_congr
  intro k hk
  simp [List.getD_eq_getElem?_getD, hk]

/-- The values on a coset are those of the polynomial at the points of the coset. -/
lemma cosetFft_map_range (f : ℕ → QuadraticExtension) (n : ℕ) (shift : QuadraticExtension) :
    PolynomialCoeffs.cosetFft ((List.range (2 ^ n)).map f) shift =
      some ((List.range (2 ^ n)).map fun i =>
        evalSum f (2 ^ n) (shift * QuadraticExtension.primitiveRootOfUnity n ^ i)) := by
  have hscaled : (((List.range (2 ^ n)).map f).zipIdx.map fun c => shift ^ c.2 * c.1) =
      (List.range (2 ^ n)).map fun k => shift ^ k * f k := by
    apply List.ext_getElem
    · simp
    · intro k _ _
      simp
  rw [PolynomialCoeffs.cosetFft, hscaled, fft_map_range]
  congr 1
  apply List.map_congr_left
  intro i _
  apply Finset.sum_congr rfl
  intro k _
  rw [mul_pow]
  ring

section Trees

variable {permute : (Fin 12 → GoldilocksField) → Fin 12 → GoldilocksField}
  {leaf : ℕ → List GoldilocksField} {node : ℕ → ℕ → HashOut GoldilocksField} {logN : ℕ}
  (hleaf : ∀ x < 2 ^ logN, node 0 x = hashOrNoop permute (leaf x))
  (htree : IsTree (compress permute) node logN logN)

include hleaf htree

/-- A subtree of the host has the nodes of any tree over the same leaves. -/
lemma fillSubtree_map_range {k : ℕ} (hk : k ≤ logN) {i : ℕ} (hi : i < 2 ^ (logN - k)) :
    fillSubtree permute k ((List.range (2 ^ k)).map fun j => leaf (i * 2 ^ k + j)) =
      (node k i, digestsUnder node k i) := by
  induction k generalizing i with
  | zero =>
    rw [Nat.sub_zero] at hi
    simp [fillSubtree, digestsUnder, hleaf i hi]
  | succ k ih =>
    have hhalf : 2 ^ (logN - k) = 2 * 2 ^ (logN - (k + 1)) := by
      rw [← pow_succ']
      congr 1
      omega
    have hsplit : (List.range (2 ^ (k + 1))).map (fun j => leaf (i * 2 ^ (k + 1) + j)) =
        ((List.range (2 ^ k)).map fun j => leaf (2 * i * 2 ^ k + j)) ++
          (List.range (2 ^ k)).map fun j => leaf ((2 * i + 1) * 2 ^ k + j) := by
      rw [pow_succ, mul_two, List.range_add, List.map_append, List.map_map]
      congr 1
      · apply List.map_congr_left
        intro j _
        congr 1
        ring
      · apply List.map_congr_left
        intro j _
        simp only [Function.comp_apply]
        congr 1
        ring
    have hleft := ih (by omega) (by omega : 2 * i < 2 ^ (logN - k))
    have hright := ih (by omega) (by omega : 2 * i + 1 < 2 ^ (logN - k))
    rw [hsplit, fillSubtree, List.take_left' (by simp), List.drop_left' (by simp), hleft, hright,
      digestsUnder, htree k (by omega) i hi]

/-- The tree of the host has the nodes of any tree over the same leaves. -/
lemma MerkleTree.new_map_range {capHeight : ℕ} (hcap : capHeight ≤ logN) :
    MerkleTree.new permute ((List.range (2 ^ logN)).map leaf) capHeight = some
      { leaves := (List.range (2 ^ logN)).map leaf
        digests := (List.range (2 ^ capHeight)).flatMap (digestsUnder node (logN - capHeight))
        cap := (List.range (2 ^ capHeight)).map (node (logN - capHeight)) } := by
  have hsize : 2 ^ logN >>> capHeight = 2 ^ (logN - capHeight) := two_pow_shiftRight hcap
  have hlen : 2 ^ logN = 2 ^ capHeight * 2 ^ (logN - capHeight) := by
    rw [← pow_add]
    congr 1
    omega
  have hrest : logN - (logN - capHeight) = capHeight := by omega
  have hsubtrees : (chunksExact (2 ^ (logN - capHeight)) ((List.range (2 ^ logN)).map leaf)).map
        (fillSubtree permute (logN - capHeight)) =
      (List.range (2 ^ capHeight)).map fun i =>
        (node (logN - capHeight) i, digestsUnder node (logN - capHeight) i) := by
    rw [hlen, chunksExact_map_range leaf (Nat.two_pow_pos _), List.map_map]
    apply List.map_congr_left
    intro i hi
    have hi := List.mem_range.mp hi
    exact fillSubtree_map_range hleaf htree (Nat.sub_le logN capHeight) (by rwa [hrest])
  simp only [MerkleTree.new, List.length_map, List.length_range, log2Strict_two_pow, hsize,
    hsubtrees, guard, if_pos hcap, Option.bind_eq_bind, Option.bind_some, Option.pure_def]
  rw [List.flatMap_map, List.map_map]
  rfl

end Trees

end MegaZK
