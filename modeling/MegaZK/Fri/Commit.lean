import MegaZK.Assembly.Passes
import MegaZK.Fri.ExtensionNtt
import MegaZK.Fri.MerkleTree
import MegaZK.Fri.Transpose

/-! # The FRI commit stage

`fri_committed_trees` of the orchestrator: in every round the evaluations are transposed and
hashed, the cap enters the transcript, and the coefficients are folded with the next challenge. All
rounds but the last one evaluate the folded polynomial for the next one. -/

namespace MegaZK

open Grid Cover Horner MerklePath

/-! ### Source -/

/-- The words of extension elements. -/
def words {F : Type} [CommRing F] (cell : ℕ → ExtensionField F) (w : ℕ) : F :=
  if w % 2 = 0 then (cell (w / 2)).re else (cell (w / 2)).im

/-- The buffers of a round in `FriCommitBuffers`. -/
structure FriCommitRound where
  digests : DeviceBuffer GoldilocksField
  leaves : DeviceBuffer QuadraticExtension
  transposedLeaves : DeviceBuffer GoldilocksField
  coefficients : DeviceBuffer QuadraticExtension

/-- A subtraction of unsigned numbers, if it does not underflow. -/
def subUnsigned (a b : ℕ) : Option ℕ := if b ≤ a then some (a - b) else none

/-- The loop of `reduce_e` over a chunk, from its last element down. -/
def reduceLoop (input : ℕ → QuadraticExtension) (beta : QuadraticExtension) :
    ℕ → QuadraticExtension → QuadraticExtension
  | 0, acc => acc
  | i + 1, acc => reduceLoop input beta i (input i + mulExt acc beta)

/-- `batch_reduce_ext`. -/
def batchReduceExt (input : ℕ → QuadraticExtension) (beta : QuadraticExtension)
    (numChunks chunkSize : ℕ) (b : DeviceBuffer QuadraticExtension) :
    Option (DeviceBuffer QuadraticExtension) := do
  let threads := 128
  let blocks := u32 (numChunks + threads - 1) / threads
  let ids ← gridIds blocks threads numChunks
  b.storeAll (ids.map fun gId =>
    (gId, reduceLoop (fun i => input (u32 (gId * chunkSize) + i)) beta chunkSize 0))

/-- What the loop keeps between rounds. -/
structure CommitLoop where
  layersCount : ℕ
  degree : ℕ
  degreeBits : ℕ
  shift : GoldilocksField
  coefficients : ℕ → QuadraticExtension
  transcript : ChallengerGpu GoldilocksField × List (Event GoldilocksField)

section Rounds

variable (permute : (Fin 12 → GoldilocksField) → Fin 12 → GoldilocksField)

/-- `commit_tree`. -/
def commitTree (arityBits layersCount : ℕ) (r : FriCommitRound) : Option FriCommitRound := do
  let rowBits ← subUnsigned layersCount 1
  let transposedLeaves ← batchTranspose (u32 (arityBits + 1)) (hostDegree rowBits)
    (words r.leaves.cell) r.transposedLeaves
  let digests ← buildMerkleTree permute transposedLeaves r.digests (u32 layersCount)
  return { r with digests, transposedLeaves }

/-- The cap enters the transcript and the challenge of the round leaves it. -/
def observeRound (capHeight : ℕ) (tree : DeviceBuffer GoldilocksField) :
    Transcript (ChallengerGpu GoldilocksField) GoldilocksField QuadraticExtension := do
  Device.observeCap permute tree capHeight
  let beta ← Device.sampleInto permute extensionDegree
  return ⟨beta.getD 0 0, beta.getD 1 0⟩

/-- One round of the loop, without the evaluations for the next one. -/
def commitRound (capHeight arityBits : ℕ) (loop : CommitLoop) (r : FriCommitRound) :
    Option (CommitLoop × FriCommitRound × List (List GoldilocksField)) := do
  let arity := 1 <<< arityBits
  let degree := loop.degree / arity
  let degreeBits ← subUnsigned loop.degreeBits arityBits
  let layersCount ← subUnsigned loop.layersCount arityBits
  let r ← commitTree permute arityBits layersCount r
  let observed := observeRound permute capHeight r.digests loop.transcript
  let cap ← copyCap r.digests capHeight
  let coefficients ← batchReduceExt loop.coefficients observed.1 (u32 degree) (u32 arity)
    r.coefficients
  return ({ loop with layersCount, degree, degreeBits, coefficients := coefficients.cell,
                      transcript := observed.2 },
    { r with coefficients }, cap)

/-- The end of `fold_round` in every round but the last one. -/
def evaluateNext (rateBits arityBits : ℕ) (loop : CommitLoop) :
    List FriCommitRound → Option (CommitLoop × List FriCommitRound)
  | [] => none
  | next :: rest => do
    let shift := loop.shift ^ (1 <<< arityBits)
    let leaves ← batchPadCosetExt loop.degreeBits (u32 loop.degree) shift loop.coefficients
      next.leaves
    let leaves ← nttExtensionInplace (loop.degreeBits + rateBits) 1 leaves
    return ({ loop with shift }, { next with leaves } :: rest)

/-- The rounds after this one. The last round evaluates nothing. -/
def nextRounds (rateBits arityBits : ℕ) (isLastRound : Bool) (loop : CommitLoop)
    (rest : List FriCommitRound) : Option (CommitLoop × List FriCommitRound) :=
  if isLastRound then some (loop, rest) else evaluateNext rateBits arityBits loop rest

/-- The loop over the arities and the buffers of their rounds. -/
def commitRounds (rateBits capHeight : ℕ) : List ℕ → CommitLoop → List FriCommitRound →
    Option (CommitLoop × List (FriCommitRound × List (List GoldilocksField)))
  | [], loop, _ => some (loop, [])
  | _ :: _, _, [] => none
  | arityBits :: arities, loop, r :: rest => do
    let (loop, done) ← commitRound permute capHeight arityBits loop r
    let (loop, rest) ← nextRounds rateBits arityBits arities.isEmpty loop rest
    let (loop, dones) ← commitRounds rateBits capHeight arities loop rest
    return (loop, done :: dones)

end Rounds

/-- What the stage leaves for the later ones. -/
structure CommitStage where
  rounds : List FriCommitRound
  caps : List (List (List GoldilocksField))
  finalCoefficients : List GoldilocksField
  transcript : ChallengerGpu GoldilocksField × List (Event GoldilocksField)

namespace CommonCircuitData

variable (c : CommonCircuitData) (permute : (Fin 12 → GoldilocksField) → Fin 12 → GoldilocksField)

/-- The state before the first round. -/
def commitLoop (coefficients : ℕ → QuadraticExtension)
    (transcript : ChallengerGpu GoldilocksField × List (Event GoldilocksField)) : CommitLoop where
  layersCount := c.degreeBits + c.rateBits + 1
  degree := 2 ^ c.degreeBits
  degreeBits := c.degreeBits
  shift := 7
  coefficients
  transcript

/-- What the host reads after the rounds, and what enters the transcript. -/
def commitStageOf (loop : CommitLoop) (dones : List (FriCommitRound × List (List GoldilocksField)))
    (last : FriCommitRound) : CommitStage :=
  let elts : DeviceBuffer GoldilocksField :=
    ⟨extensionDegree * last.coefficients.len, words last.coefficients.cell⟩
  { rounds := dones.map fun done => done.1
    caps := dones.map fun done => done.2
    finalCoefficients := (List.range elts.len).map elts.cell
    transcript := (Device.observe permute elts (elts.len >>> c.rateBits) 0 loop.transcript).2 }

/-- `fri_committed_trees`, with the check of the buffers that comes before it. -/
def friCommitStage (coefficients : ℕ → QuadraticExtension) (rounds : List FriCommitRound)
    (transcript : ChallengerGpu GoldilocksField × List (Event GoldilocksField)) :
    Option CommitStage := do
  guard (rounds.isEmpty = false)
  let (loop, dones) ← commitRounds permute c.rateBits c.capHeight c.reductionArityBits
    (c.commitLoop coefficients transcript) rounds
  let finalRound ← subUnsigned c.reductionArityBits.length 1
  let last ← dones[finalRound]?
  return c.commitStageOf permute loop dones last.1

/-- `fri_commit_part_lens` of the setup. -/
def friCommitPartLens : List FriCommitPartLens :=
  friCommitPartLensFrom ((8 * 2 ^ c.degreeBits) <<< c.rateBits)
    ((2 ^ c.degreeBits * extensionDegree) <<< c.rateBits) c.reductionArityBits

end CommonCircuitData

/-- The buffers of a round have the sizes of their parts, in words. -/
structure FriCommitRound.HasSize (part : FriCommitPartLens) (r : FriCommitRound) : Prop where
  digests : r.digests.len = part.digestsLen
  leaves : extensionDegree * r.leaves.len = part.leavesLen
  transposedLeaves : r.transposedLeaves.len = part.leavesLen
  coefficients : extensionDegree * r.coefficients.len = part.foldedLen

/-! ### The host -/

/-- `flatten`. -/
def flatten {F : Type} [CommRing F] (chunk : List (ExtensionField F)) : List F :=
  chunk.flatMap fun x => [x.re, x.im]

/-- The leaf with number `i` of the host: a chunk of values. -/
def friLeaf (values : ℕ → QuadraticExtension) (arity i : ℕ) : List GoldilocksField :=
  flatten ((List.range arity).map fun j => values (i * arity + j))

lemma flatten_map_range (f : ℕ → QuadraticExtension) (n : ℕ) :
    flatten ((List.range n).map f) = (List.range (2 * n)).map (words f) := by
  induction n with
  | zero => rfl
  | succ n ih =>
    have heven : words f (2 * n) = (f n).re := by
      rw [words, if_pos (by omega), Nat.mul_div_cancel_left n two_pos]
    have hodd : words f (2 * n + 1) = (f n).im := by
      rw [words, if_neg (by omega)]
      congr 2
      omega
    rw [Nat.mul_succ, List.range_succ, List.map_append, flatten, List.flatMap_append, ← flatten,
      ih, List.range_succ, List.range_succ]
    simp [heven, hodd]

/-- A leaf is made of the words of its elements. -/
lemma friLeaf_eq (values : ℕ → QuadraticExtension) (arity i : ℕ) :
    friLeaf values arity i =
      (List.range (2 * arity)).map fun w => words values (i * (2 * arity) + w) := by
  rw [friLeaf, flatten_map_range]
  refine List.map_congr_left ?_
  intro w _
  have hdouble : i * (2 * arity) = 2 * (i * arity) := by ring
  have hmod : (i * (2 * arity) + w) % 2 = w % 2 := by omega
  have hdiv : (i * (2 * arity) + w) / 2 = i * arity + w / 2 := by omega
  rw [words, words, hmod, hdiv]

/-! ### Folding -/

lemma reduceLoop_eq (input : ℕ → QuadraticExtension) (beta : QuadraticExtension) (n : ℕ)
    (acc : QuadraticExtension) : reduceLoop input beta n acc = hornerFrom input beta n acc := by
  induction n generalizing acc with
  | zero => rfl
  | succ n ih => rw [reduceLoop, hornerFrom, ih, mulExt_eq, add_comm]

/-- Every chunk is evaluated at the challenge. -/
lemma batchReduceExt_spec {numChunks chunkSize : ℕ} (hpos : 0 < numChunks)
    (hchunks : numChunks ≤ 2 ^ 31) (hsize : numChunks * chunkSize ≤ 2 ^ 32)
    (input : ℕ → QuadraticExtension) (beta : QuadraticExtension)
    (b : DeviceBuffer QuadraticExtension) (hlen : numChunks ≤ b.len) :
    ∃ b', batchReduceExt input beta numChunks chunkSize b = some b' ∧ b'.len = b.len ∧
      (∀ g < numChunks, b'.cell g = evalSum (fun j => input (g * chunkSize + j)) chunkSize beta) ∧
      ∀ g, numChunks ≤ g → b'.cell g = b.cell g := by
  have hvalid : ValidLaunch 1 ((numChunks + 128 - 1) / 128) 128 := by
    refine ⟨⟨by decide, by decide⟩, ⟨by omega, by omega⟩, by decide, by decide⟩
  obtain ⟨ids, hids, hmem⟩ := gridIds_spec numChunks hvalid (by omega) (by omega)
  have hcovers : Covers ids id 0 numChunks := by
    refine ⟨?_, fun x _ x' _ h => h, ?_⟩
    · intro g hg
      exact ⟨Nat.zero_le g, (hmem g).mp hg⟩
    · rintro g ⟨-, hg⟩
      exact ⟨g, (hmem g).mpr hg, rfl⟩
  obtain ⟨b', hb', hlen', hcells⟩ := b.storeAll_of_covers hcovers hlen
    (fun gId => reduceLoop (fun i => input (u32 (gId * chunkSize) + i)) beta chunkSize 0)
    (fun _ => List.mem_map)
  refine ⟨b', ?_, hlen', ?_, ?_⟩
  · rw [batchReduceExt, u32_of_lt (by omega), hids]
    exact hb'
  · intro g hg
    have hcell := hcells g ((hmem g).mpr hg)
    have hword : g * chunkSize < 2 ^ 32 ∨ chunkSize = 0 := by
      rcases Nat.eq_zero_or_pos chunkSize with hzero | hchunk
      · exact Or.inr hzero
      · exact Or.inl ((Nat.mul_lt_mul_of_pos_right hg hchunk).trans_le hsize)
    rw [id] at hcell
    rw [hcell, reduceLoop_eq, hornerFrom_eq, zero_mul, zero_add]
    rcases hword with hword | rfl
    · rw [u32_of_lt hword]
    · rfl
  · intro g hg
    refine DeviceBuffer.storeAll_of_forall_ne hb' ?_
    intro w hw
    obtain ⟨gId, hgId, rfl⟩ := List.mem_map.mp hw
    have hlt := (hmem gId).mp hgId
    exact (hlt.trans_le hg).ne

/-! ### Rounds -/

/-- The sizes of a round whose tree has `2 ^ n` leaves. -/
structure FriCommitRound.Sized (n arityBits : ℕ) (r : FriCommitRound) : Prop where
  digests : r.digests.len = 8 * 2 ^ n
  leaves : r.leaves.len = 2 ^ n * 2 ^ arityBits
  transposedLeaves : r.transposedLeaves.len = 2 * (2 ^ n * 2 ^ arityBits)
  coefficients : r.coefficients.len = 2 ^ n

section Rounds

variable (permute : (Fin 12 → GoldilocksField) → Fin 12 → GoldilocksField)

/-- Every leaf is transposed, and its digest is the one of the host. -/
def FriCommitRound.LeavesHashed (arityBits : ℕ) (r : FriCommitRound) : Prop :=
  let arity := 2 ^ arityBits
  let count := r.leaves.len / arity
  ∀ i < count,
    leafOf r.transposedLeaves.cell count (2 * arity) i = friLeaf r.leaves.cell arity i ∧
      digestAt r.digests.cell i = hashOrNoop permute (friLeaf r.leaves.cell arity i)

variable {n a : ℕ} (hlow : 4 ≤ a) (ha : a ≤ 30) (hlde : n + a ≤ 31)

include hlow ha hlde

lemma commitTree_spec {r : FriCommitRound} (hr : r.Sized n a) :
    ∃ r', commitTree permute a (n + 1) r = some r' ∧ r'.Sized n a ∧ r'.leaves = r.leaves ∧
      r'.coefficients = r.coefficients ∧ r'.LeavesHashed permute a ∧
      IsTree (compress permute) (nodeAt r'.digests.cell n) n n := by
  have hpos : 0 < 2 ^ n := Nat.two_pow_pos n
  have harity : 0 < 2 ^ a := Nat.two_pow_pos a
  have hwidth : 2 ^ (a + 1) = 2 * 2 ^ a := pow_succ' 2 a
  have htotal : 2 ^ n * 2 ^ a ≤ 2 ^ 31 := by
    rw [← pow_add]
    exact Nat.pow_le_pow_right (by decide) hlde
  have hwords : 2 ^ n * 2 ^ (a + 1) = 2 * (2 ^ n * 2 ^ a) := by rw [hwidth]; ring
  have hcols : 2 * 2 ^ a * 2 ^ n = 2 * (2 ^ n * 2 ^ a) := by ring
  obtain ⟨t, ht, htlen, htcell⟩ := batchTranspose_spec (by omega : 5 ≤ a + 1) (by omega) hpos
    (by omega) (words r.leaves.cell) r.transposedLeaves (by rw [hwords, hr.transposedLeaves])
  have hcols_lt : 2 * 2 ^ a < 2 ^ 32 := by
    rw [← hwidth]
    exact Nat.pow_lt_pow_right (by decide) (by omega)
  obtain ⟨d, hd, hdlen, hdcell, htree⟩ := buildMerkleTree_spec permute
    (by omega : 0 < 2 * 2 ^ a) hcols_lt (by omega : n ≤ 30) (by omega) t r.digests
    (by rw [htlen, hr.transposedLeaves, hcols]) hr.digests
  have hleaf : ∀ i < 2 ^ n,
      leafOf t.cell (2 ^ n) (2 * 2 ^ a) i = friLeaf r.leaves.cell (2 ^ a) i := by
    intro i hi
    rw [friLeaf_eq, leafOf]
    refine List.map_congr_left ?_
    intro col hcol
    rw [htcell i hi col (by rw [hwidth]; exact List.mem_range.mp hcol), hwidth]
  have hcount : r.leaves.len / 2 ^ a = 2 ^ n := by
    rw [hr.leaves, Nat.mul_div_cancel _ harity]
  refine ⟨{ r with digests := d, transposedLeaves := t }, ?_, ?_, rfl, rfl, ?_, htree⟩
  · have hrow : subUnsigned (n + 1) 1 = some n := by simp [subUnsigned]
    have hbits : u32 (a + 1) = a + 1 := u32_of_lt (by omega)
    have hlayers : u32 (n + 1) = n + 1 := u32_of_lt (by omega)
    simp only [commitTree, hrow, hbits, hlayers, hostDegree_eq (show n < 32 by omega),
      Option.bind_eq_bind, Option.bind_some, ht, hd]
    rfl
  · exact ⟨hdlen.trans hr.digests, hr.leaves, htlen.trans hr.transposedLeaves, hr.coefficients⟩
  · intro i hi
    simp only [hcount] at hi ⊢
    refine ⟨hleaf i hi, ?_⟩
    have hdigest := hdcell i hi
    rwa [nodeAt, layerOffset_zero, Nat.zero_add, hleaf i hi] at hdigest

/-- What a round does, for a polynomial of degree `2 ^ (m + a)`. -/
structure CommitRoundResult (capHeight n m a : ℕ) (loop : CommitLoop) (r : FriCommitRound)
    (loop' : CommitLoop) (r' : FriCommitRound) (cap : List (List GoldilocksField)) : Prop where
  layersCount : loop'.layersCount = n + 1
  degree : loop'.degree = 2 ^ m
  degreeBits : loop'.degreeBits = m
  shift : loop'.shift = loop.shift
  coefficients : loop'.coefficients = r'.coefficients.cell
  transcript : (observeRound permute capHeight r'.digests loop.transcript).2 = loop'.transcript
  sized : r'.Sized n a
  leaves : r'.leaves = r.leaves
  hashed : r'.LeavesHashed permute a
  tree : IsTree (compress permute) (nodeAt r'.digests.cell n) n n
  cap : cap = assembleCap r'.digests capHeight
  folded : ∀ g < 2 ^ m, r'.coefficients.cell g =
    evalSum (fun j => loop.coefficients (g * 2 ^ a + j)) (2 ^ a)
      (observeRound permute capHeight r'.digests loop.transcript).1
  kept : ∀ g, 2 ^ m ≤ g → r'.coefficients.cell g = r.coefficients.cell g

lemma commitRound_spec {capHeight m : ℕ} (hcap : capHeight ≤ 8) (hm : m ≤ n) {loop : CommitLoop}
    (hlayers : loop.layersCount = n + a + 1) (hdegree : loop.degree = 2 ^ (m + a))
    (hbits : loop.degreeBits = m + a) {r : FriCommitRound} (hr : r.Sized n a) :
    ∃ loop' r' cap, commitRound permute capHeight a loop r = some (loop', r', cap) ∧
      CommitRoundResult permute capHeight n m a loop r loop' r' cap := by
  obtain ⟨r₁, hr₁, hsized, hleaves, hcoeffs, hhashed, htree⟩ :=
    commitTree_spec permute hlow ha hlde hr
  have hdiv : 2 ^ (m + a) / 2 ^ a = 2 ^ m := by
    rw [pow_add, Nat.mul_div_cancel _ (Nat.two_pow_pos a)]
  have hm_lt : 2 ^ m < 2 ^ 32 := Nat.pow_lt_pow_right (by decide) (by omega)
  have ha_lt : 2 ^ a < 2 ^ 32 := Nat.pow_lt_pow_right (by decide) (by omega)
  have hsize : 2 ^ m * 2 ^ a ≤ 2 ^ 32 := by
    rw [← pow_add]
    exact Nat.pow_le_pow_right (by decide) (by omega)
  obtain ⟨b, hb, hblen, hbcell, hbkept⟩ := batchReduceExt_spec (Nat.two_pow_pos m)
    (Nat.pow_le_pow_right (by decide) (by omega)) hsize loop.coefficients
    (observeRound permute capHeight r₁.digests loop.transcript).1 r₁.coefficients
    (by rw [hsized.coefficients]; exact Nat.pow_le_pow_right (by decide) hm)
  have hsub : subUnsigned loop.degreeBits a = some m := by
    rw [subUnsigned, if_pos (by omega), hbits, Nat.add_sub_cancel]
  have hsub' : subUnsigned loop.layersCount a = some (n + 1) := by
    rw [subUnsigned, if_pos (by omega), hlayers]
    congr 1
    omega
  have hcopy : copyCap r₁.digests capHeight = some (assembleCap r₁.digests capHeight) :=
    if_pos ((CommonCircuitData.capLen_le_iff capHeight).mpr hcap)
  refine ⟨{ loop with
      layersCount := n + 1
      degree := 2 ^ m
      degreeBits := m
      coefficients := b.cell
      transcript := (observeRound permute capHeight r₁.digests loop.transcript).2 },
    { r₁ with coefficients := b }, assembleCap r₁.digests capHeight, ?_, ?_⟩
  · simp only [commitRound, hdegree, hdiv, hsub, hsub', hr₁, hcopy, Nat.one_shiftLeft,
      u32_of_lt hm_lt, u32_of_lt ha_lt, Option.bind_eq_bind, Option.bind_some, hb]
    rfl
  · exact
      { layersCount := rfl
        degree := rfl
        degreeBits := rfl
        shift := rfl
        coefficients := rfl
        transcript := rfl
        sized := ⟨hsized.digests, hsized.leaves, hsized.transposedLeaves,
          hblen.trans hsized.coefficients⟩
        leaves := hleaves
        hashed := hhashed
        tree := htree
        cap := rfl
        folded := hbcell
        kept := fun g hg => by rw [hbkept g hg, hcoeffs] }

end Rounds

/-! ### Evaluation for the next round -/

section Evaluate

variable {rateBits m a : ℕ} (hpos : 1 ≤ m + rateBits) (hlde : m + rateBits ≤ 31)
  {loop : CommitLoop} (hdegree : loop.degree = 2 ^ m) (hbits : loop.degreeBits = m)
  {next : FriCommitRound} (hlen : next.leaves.len = 2 ^ (m + rateBits))

include hpos hlde hdegree hbits hlen

/-- What is stored before the transform, and what the transform makes of it. -/
lemma evaluateNext_padded (rest : List FriCommitRound) :
    ∃ padded leaves, batchPadCosetExt m (u32 (2 ^ m)) (loop.shift ^ 2 ^ a) loop.coefficients
        next.leaves = some padded ∧
      evaluateNext rateBits a loop (next :: rest) =
        some ({ loop with shift := loop.shift ^ 2 ^ a }, { next with leaves } :: rest) ∧
      leaves.len = next.leaves.len ∧
      ∀ i < 2 ^ (m + rateBits), leaves.cell i =
        evalSum padded.cell (2 ^ (m + rateBits))
          (QuadraticExtension.primitiveRootOfUnity (m + rateBits) ^ reverseBits i (m + rateBits)) := by
  have hle : 2 ^ m ≤ next.leaves.len := by
    rw [hlen]
    exact Nat.pow_le_pow_right (by decide) (by omega)
  obtain ⟨padded, hpadded⟩ : ∃ padded, batchPadCosetExt m (u32 (2 ^ m)) (loop.shift ^ 2 ^ a)
      loop.coefficients next.leaves = some padded := by
    by_cases hsmall : m < 5
    · exact ⟨_, batchPadCosetExt_of_lt hsmall _ _ _⟩
    · obtain ⟨padded, hpadded, -⟩ := (padsCosetExt_of_le (by omega : 5 ≤ m) (by omega)).result
        (loop.shift ^ 2 ^ a) loop.coefficients next.leaves hle
      exact ⟨padded, hpadded⟩
  have hpadded_len := batchPadCosetExt_len hpadded
  obtain ⟨leaves, hleaves, hvalues⟩ := transforms_of_le hpos hlde padded
    (by rw [hpadded_len, hlen])
  refine ⟨padded, leaves, hpadded, ?_, (nttExtensionInplace_len hleaves).trans hpadded_len,
    hvalues⟩
  simp only [evaluateNext, hdegree, hbits, Nat.one_shiftLeft, hpadded, Option.bind_eq_bind,
    Option.bind_some, hleaves]
  rfl

end Evaluate

/-! ### All rounds -/

lemma FriCommitRound.HasSize.withLeaves {part : FriCommitPartLens} {r : FriCommitRound}
    (h : r.HasSize part) {leaves : DeviceBuffer QuadraticExtension}
    (hlen : leaves.len = r.leaves.len) : { r with leaves }.HasSize part :=
  ⟨h.digests, by rw [← h.leaves, ← hlen], h.transposedLeaves, h.coefficients⟩

lemma friCommitPartLensFrom_cons (n a : ℕ) (arities : List ℕ) :
    friCommitPartLensFrom (8 * 2 ^ (n + a)) (2 * 2 ^ (n + a)) (a :: arities) =
      ⟨8 * 2 ^ n, 2 * 2 ^ (n + a), 2 * 2 ^ n⟩ ::
        friCommitPartLensFrom (8 * 2 ^ n) (2 * 2 ^ n) arities := by
  have hshift : ∀ k, (k * 2 ^ (n + a)) >>> a = k * 2 ^ n := by
    intro k
    rw [Nat.shiftRight_eq_div_pow, pow_add, ← mul_assoc, Nat.mul_div_cancel _ (Nat.two_pow_pos a)]
  simp only [friCommitPartLensFrom, hshift]

/-- The first part belongs to the first round, and the others to the rest. -/
lemma hasSize_cons {n a : ℕ} {arities : List ℕ} {rounds : List FriCommitRound}
    (h : List.Forall₂ FriCommitRound.HasSize
      (friCommitPartLensFrom (8 * 2 ^ (n + a)) (2 * 2 ^ (n + a)) (a :: arities)) rounds) :
    ∃ r rest, rounds = r :: rest ∧ r.Sized n a ∧ List.Forall₂ FriCommitRound.HasSize
      (friCommitPartLensFrom (8 * 2 ^ n) (2 * 2 ^ n) arities) rest := by
  rw [friCommitPartLensFrom_cons] at h
  cases h with
  | cons hr hrest =>
    rename_i r rest
    have htotal : 2 * r.leaves.len = 2 * 2 ^ (n + a) := hr.leaves
    have hfolded : 2 * r.coefficients.len = 2 * 2 ^ n := hr.coefficients
    have htransposed : r.transposedLeaves.len = 2 * 2 ^ (n + a) := hr.transposedLeaves
    refine ⟨r, rest, rfl, ⟨hr.digests, ?_, ?_, by omega⟩, hrest⟩
    · rw [← pow_add]
      omega
    · rw [htransposed, pow_add]

section Rounds

variable (permute : (Fin 12 → GoldilocksField) → Fin 12 → GoldilocksField)
  {rateBits capHeight : ℕ}

/-- The stage ends if no arity is too small or too large. -/
lemma commitRounds_spec (hcap : capHeight ≤ 8) {arities : List ℕ}
    (harities : ∀ a ∈ arities, 4 ≤ a ∧ a ≤ 30) {m : ℕ} (hsum : arities.sum ≤ m)
    (hlde : m + rateBits ≤ 31) {loop : CommitLoop} (hlayers : loop.layersCount = m + rateBits + 1)
    (hdegree : loop.degree = 2 ^ m) (hbits : loop.degreeBits = m) {rounds : List FriCommitRound}
    (hrounds : List.Forall₂ FriCommitRound.HasSize
      (friCommitPartLensFrom (8 * 2 ^ (m + rateBits)) (2 * 2 ^ (m + rateBits)) arities) rounds) :
    ∃ loop' dones, commitRounds permute rateBits capHeight arities loop rounds =
        some (loop', dones) ∧
      List.Forall₂ (fun a done => done.1.LeavesHashed permute a) arities dones := by
  induction arities generalizing m loop rounds with
  | nil => exact ⟨loop, [], rfl, .nil⟩
  | cons a arities ih =>
    obtain ⟨hlow, ha⟩ := harities a (List.mem_cons_self ..)
    rw [List.sum_cons] at hsum
    obtain ⟨m, rfl⟩ : ∃ m', m = m' + a := ⟨m - a, by omega⟩
    have hbits' : m + a + rateBits = m + rateBits + a := by omega
    rw [hbits'] at hrounds
    obtain ⟨r, rest, rfl, hr, hrest⟩ := hasSize_cons hrounds
    obtain ⟨loop₁, r', cap, hround, hresult⟩ := commitRound_spec permute hlow ha
      (by omega : m + rateBits + a ≤ 31) hcap (by omega : m ≤ m + rateBits)
      (by rw [hlayers, hbits']) hdegree hbits hr
    have hnext : ∃ loop₂ rest',
        nextRounds rateBits a arities.isEmpty loop₁ rest = some (loop₂, rest') ∧
        loop₂.layersCount = m + rateBits + 1 ∧ loop₂.degree = 2 ^ m ∧ loop₂.degreeBits = m ∧
        List.Forall₂ FriCommitRound.HasSize
          (friCommitPartLensFrom (8 * 2 ^ (m + rateBits)) (2 * 2 ^ (m + rateBits)) arities)
          rest' := by
      cases arities with
      | nil => exact ⟨loop₁, rest, rfl, hresult.layersCount, hresult.degree, hresult.degreeBits,
          hrest⟩
      | cons a' arities =>
        have hlow' := (harities a' (by simp)).1
        rw [List.sum_cons] at hsum
        simp only [friCommitPartLensFrom] at hrest
        cases hrest with
        | cons hnext hrest =>
          rename_i next rest
          have hleaves : 2 * next.leaves.len = 2 * 2 ^ (m + rateBits) := hnext.leaves
          obtain ⟨-, leaves, -, hevaluate, hlen, -⟩ := evaluateNext_padded (a := a)
            (by omega : 1 ≤ m + rateBits) (by omega) hresult.degree hresult.degreeBits
            (by omega : next.leaves.len = _) rest
          exact ⟨_, _, hevaluate, hresult.layersCount, hresult.degree, hresult.degreeBits,
            .cons (hnext.withLeaves hlen) hrest⟩
    obtain ⟨loop₂, rest', hrest', hlayers₂, hdegree₂, hbits₂, hsized⟩ := hnext
    obtain ⟨loop', dones, hdones, hhashed⟩ := ih (fun a' ha' => harities a' (by simp [ha']))
      (by omega : arities.sum ≤ m) (by omega) hlayers₂ hdegree₂ hbits₂ hsized
    refine ⟨loop', (r', cap) :: dones, ?_, .cons hresult.hashed hhashed⟩
    rw [commitRounds, hround]
    simp only [Option.bind_eq_bind, Option.bind_some, hrest', hdones]
    rfl

/-- A round that ends has an arity whose leaves are as long as a tile, coefficients to fold and a
cap that one block copies. -/
lemma commitRound_some {a : ℕ} (ha : a ≤ 32) {loop loop' : CommitLoop} {r r' : FriCommitRound}
    {cap : List (List GoldilocksField)}
    (h : commitRound permute capHeight a loop r = some (loop', r', cap)) :
    (4 ≤ a ∧ a ≤ 30) ∧ loop.degreeBits = loop'.degreeBits + a ∧ capHeight ≤ 8 := by
  obtain ⟨degreeBits, hdegree, h⟩ := Option.bind_eq_some_iff.mp h
  obtain ⟨layersCount, -, h⟩ := Option.bind_eq_some_iff.mp h
  obtain ⟨r₁, htree, h⟩ := Option.bind_eq_some_iff.mp h
  obtain ⟨cap', hcap, h⟩ := Option.bind_eq_some_iff.mp h
  obtain ⟨coefficients, -, h⟩ := Option.bind_eq_some_iff.mp h
  cases h
  obtain ⟨rowBits, -, htree⟩ := Option.bind_eq_some_iff.mp htree
  obtain ⟨t, ht, -⟩ := Option.bind_eq_some_iff.mp htree
  obtain ⟨ths, hths, -⟩ := Option.bind_eq_some_iff.mp ht
  refine ⟨?_, ?_, ?_⟩
  · rw [u32_of_lt (by omega)] at hths
    by_contra harity
    rw [transposeThreads_of_lt (by omega)] at hths
    cases hths
  · rw [subUnsigned] at hdegree
    split_ifs at hdegree with hle
    have hsub : loop.degreeBits - a = degreeBits := Option.some.inj hdegree
    change loop.degreeBits = degreeBits + a
    omega
  · rw [copyCap] at hcap
    split_ifs at hcap with hle
    exact (CommonCircuitData.capLen_le_iff capHeight).mp hle

/-- What a round that ends transposes. -/
lemma commitRound_transposed {a : ℕ} {loop loop' : CommitLoop} {r r' : FriCommitRound}
    {cap : List (List GoldilocksField)}
    (h : commitRound permute capHeight a loop r = some (loop', r', cap)) :
    r'.leaves = r.leaves ∧ batchTranspose (u32 (a + 1)) (hostDegree (loop.layersCount - a - 1))
      (words r.leaves.cell) r.transposedLeaves = some r'.transposedLeaves := by
  obtain ⟨degreeBits, -, h⟩ := Option.bind_eq_some_iff.mp h
  obtain ⟨layersCount, hlayers, h⟩ := Option.bind_eq_some_iff.mp h
  obtain ⟨r₁, htree, h⟩ := Option.bind_eq_some_iff.mp h
  obtain ⟨cap', -, h⟩ := Option.bind_eq_some_iff.mp h
  obtain ⟨coefficients, -, h⟩ := Option.bind_eq_some_iff.mp h
  cases h
  obtain ⟨rowBits, hrow, htree⟩ := Option.bind_eq_some_iff.mp htree
  obtain ⟨t, ht, htree⟩ := Option.bind_eq_some_iff.mp htree
  obtain ⟨d, -, htree⟩ := Option.bind_eq_some_iff.mp htree
  cases htree
  rw [subUnsigned] at hlayers hrow
  split_ifs at hlayers hrow
  cases hlayers
  cases hrow
  exact ⟨rfl, ht⟩

lemma nextRounds_some {a : ℕ} {isLastRound : Bool} {loop loop' : CommitLoop}
    {rest rest' : List FriCommitRound}
    (h : nextRounds rateBits a isLastRound loop rest = some (loop', rest')) :
    loop'.degreeBits = loop.degreeBits := by
  cases isLastRound with
  | true =>
    cases h
    rfl
  | false =>
    cases rest with
    | nil => cases h
    | cons next rest =>
      obtain ⟨leaves, -, h⟩ := Option.bind_eq_some_iff.mp h
      obtain ⟨leaves, -, h⟩ := Option.bind_eq_some_iff.mp h
      cases h
      rfl

lemma commitRounds_some {arities : List ℕ} (hsum : arities.sum ≤ 32) {loop loop' : CommitLoop}
    {rounds : List FriCommitRound} {dones : List (FriCommitRound × List (List GoldilocksField))}
    (h : commitRounds permute rateBits capHeight arities loop rounds = some (loop', dones)) :
    (∀ a ∈ arities, 4 ≤ a ∧ a ≤ 30) ∧ arities.sum ≤ loop.degreeBits ∧
      (arities ≠ [] → capHeight ≤ 8) := by
  induction arities generalizing loop loop' rounds dones with
  | nil => simp
  | cons a arities ih =>
    rw [List.sum_cons] at hsum
    cases rounds with
    | nil => cases h
    | cons r rest =>
      obtain ⟨⟨loop₁, r', cap⟩, hround, h⟩ := Option.bind_eq_some_iff.mp h
      obtain ⟨⟨loop₂, rest'⟩, hnext, h⟩ := Option.bind_eq_some_iff.mp h
      obtain ⟨⟨loop₃, dones'⟩, hdones, -⟩ := Option.bind_eq_some_iff.mp h
      obtain ⟨harity, hdegree, hcap⟩ := commitRound_some permute (by omega) hround
      obtain ⟨harities, hrest, -⟩ := ih (by omega) hdones
      rw [nextRounds_some hnext] at hrest
      refine ⟨List.forall_mem_cons.mpr ⟨harity, harities⟩, ?_, fun _ => hcap⟩
      rw [List.sum_cons]
      omega

end Rounds

end MegaZK
