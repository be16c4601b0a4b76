import MegaZK.Assembly.Shape
import MegaZK.Kernel
import MegaZK.Poseidon.Permutation
import MegaZK.Transcript.Agreement

/-! # The hash of the public inputs

`hash_pi` gathers the public inputs from the witness, keeps them for the proof and hashes them in
one thread; the host hashes the same elements with `hash_n_to_hash_no_pad`. -/

namespace MegaZK

/-! ### The permutation of the challenger's kernels -/

namespace Poseidon

variable {F : Type} [Field F] (rc : ℕ → Fin 12 → F)

/-- The body of the loop of `permute_state`. -/
def permuteRound (state : State F) (round : ℕ) : State F :=
  if round < 4 ∨ 26 ≤ round then
    applyMdsMatrixNew (applyNonLinearity (applyRoundConstants rc state round))
  else
    let state := if round = 4 then partialRoundsInit state else state
    partialRoundOptimized state round

/-- `permute_state`. -/
def permuteState (state : State F) : State F := (List.range 30).foldl (permuteRound rc) state

/-- Rounds that are all full. -/
lemma foldl_permuteRound_full {n round : ℕ} (hfull : round + n ≤ 4 ∨ 26 ≤ round)
    (state : State F) :
    (List.range' round n).foldl (permuteRound rc) state = fullRounds rc n state round := by
  induction n generalizing round state with
  | zero => rfl
  | succ n ih =>
    have hround : permuteRound rc state round =
        mdsLayer (sboxLayer (constantLayer rc state round)) := by
      rw [permuteRound, if_pos (by omega), applyMdsMatrixNew_eq]
      rfl
    rw [List.range'_succ, List.foldl_cons, hround, ih (by omega), fullRounds]

/-- Rounds that are all partial, after the first one. -/
lemma foldl_permuteRound_partial {n i : ℕ} (hi : 0 < i) (hn : i + n ≤ nPartialRounds)
    (state : State F) :
    (List.range' (i + halfNFullRounds) n).foldl (permuteRound rc) state =
      partialRoundsFrom n i state := by
  have hdefs : nPartialRounds = 22 ∧ halfNFullRounds = 4 := ⟨rfl, rfl⟩
  induction n generalizing i state with
  | zero => rfl
  | succ n ih =>
    have hround : permuteRound rc state (i + halfNFullRounds) =
        mdsPartialLayerFast (partialSbox state i) i := by
      rw [permuteRound, if_neg (by omega), if_neg (by omega), partialRoundOptimized_eq]
    have hnext : i + halfNFullRounds + 1 = i + 1 + halfNFullRounds := by omega
    rw [List.range'_succ, List.foldl_cons, hround, hnext, ih (by omega) (by omega),
      partialRoundsFrom]

/-- The 22 partial rounds, the first of which starts with the layer before them. -/
lemma foldl_permuteRound_middle (state : State F) :
    (List.range' 4 22).foldl (permuteRound rc) state = partialRounds state := by
  have hfirst : permuteRound rc state 4 =
      mdsPartialLayerFast (partialSbox
        (mdsPartialLayerInit (partialFirstConstantLayer state)) 0) 0 := by
    rw [permuteRound, if_neg (by omega), if_pos rfl, partialRoundsInit_eq]
    exact partialRoundOptimized_eq _ 0
  rw [List.range'_succ, List.foldl_cons, hfirst, partialRounds]
  exact foldl_permuteRound_partial rc (i := 1) (n := 21) Nat.one_pos (by decide) _

lemma permuteState_eq (state : State F) : permuteState rc state = poseidon rc state := by
  have hrange : List.range 30 = List.range' 0 4 ++ (List.range' 4 22 ++ List.range' 26 4) := rfl
  have hfull : 0 + 4 ≤ 4 ∨ 26 ≤ 0 := .inl le_rfl
  rw [permuteState, hrange, List.foldl_append, List.foldl_append,
    foldl_permuteRound_full rc hfull, foldl_permuteRound_middle,
    foldl_permuteRound_full rc (.inr le_rfl)]
  rfl

end Poseidon

/-! ### The sponge of the host -/

section Sponge

variable {F : Type} [Zero F] (permute : (Fin 12 → F) → Fin 12 → F)

/-- `squeeze`. -/
def squeeze (st : Fin 12 → F) : List F := (List.range rate).map (lane st)

/-- The loop that pushes the squeezed elements until there are enough of them. -/
def squeezeLoop (numOutputs : ℕ) : ℕ → (Fin 12 → F) → List F → Option (List F)
  | 0, _, _ => none
  | fuel + 1, st, outputs =>
    let pushed := outputs ++ squeeze st
    if outputs.length < numOutputs ∧ numOutputs ≤ pushed.length then some (pushed.take numOutputs)
    else squeezeLoop numOutputs fuel (permute st) pushed

/-- `hash_n_to_m_no_pad`; every pass of its second loop pushes an element, so it is over after as
many passes as elements are asked for. -/
def hashNToMNoPad (inputs : List F) (numOutputs : ℕ) : Option (List F) :=
  squeezeLoop permute numOutputs numOutputs (absorbChunks permute inputs) []

/-- `NUM_HASH_OUT_ELTS`. -/
def numHashOutElts : ℕ := 4

/-- `hash_n_to_hash_no_pad`. -/
def hashNToHashNoPad (inputs : List F) : Option (List F) :=
  hashNToMNoPad permute inputs numHashOutElts

/-- The first squeeze already holds the four elements. -/
lemma hashNToHashNoPad_eq (inputs : List F) :
    hashNToHashNoPad permute inputs = some (hashNoPad permute inputs) := by
  rw [hashNToHashNoPad, hashNToMNoPad]
  rfl

end Sponge

/-! ### The kernel -/

section Kernel

variable {F : Type} [Zero F] (permute : (Fin 12 → F) → Fin 12 → F)

/-- `PublicInputBuffers`. -/
structure PublicInputBuffers (F : Type) where
  values : DeviceBuffer F
  hash : DeviceBuffer F

/-- The numbers of the public inputs in the order in which `hash_pi` takes them. -/
def piNumbers (numPublicInputs : ℕ) : List ℕ :=
  let numBlocks := u32 (numPublicInputs >>> 3)
  let numLeft := u32 (numPublicInputs - u32 (numBlocks <<< 3))
  ((List.range numBlocks).flatMap fun i => (List.range 8).map fun j => u32 (j + 8 * i)) ++
    (List.range numLeft).map fun j => u32 (j + 8 * numBlocks)

/-- `hash_pi`, as it is launched: the number of every public input gives its place in the witness,
and the values and the digest are stored. -/
def hashPiKernel (witness : ℕ → F) (piIndex : ℕ → ℕ) (numPublicInputs : ℕ)
    (b : PublicInputBuffers F) : Option (PublicInputBuffers F) := do
  let pi := fun k => witness (piIndex k)
  let values ← b.values.storeAll ((piNumbers numPublicInputs).map fun k => (k, pi k))
  let hash ← b.hash.storeAll
    ((List.range 4).map fun j => (j, hashPi permute pi numPublicInputs j))
  return { values, hash }

lemma mem_piNumbers {n k : ℕ} (hn : n < 2 ^ 32) : k ∈ piNumbers n ↔ k < n := by
  have hblocks : u32 (n >>> 3) = n / 8 := by
    rw [Nat.shiftRight_eq_div_pow, u32_of_lt (by omega)]
  have hleft : u32 (n - u32 ((n / 8) <<< 3)) = n % 8 := by
    rw [Nat.shiftLeft_eq, u32_of_lt (x := n / 8 * 2 ^ 3) (by omega), u32_of_lt (by omega)]
    omega
  simp only [piNumbers, hblocks, hleft, List.mem_append, List.mem_flatMap, List.mem_map,
    List.mem_range]
  constructor
  · rintro (⟨i, hi, j, hj, rfl⟩ | ⟨j, hj, rfl⟩)
    · rw [u32_of_lt (by omega)]
      omega
    · rw [u32_of_lt (by omega)]
      omega
  · intro hk
    by_cases hlast : k / 8 < n / 8
    · refine .inl ⟨k / 8, hlast, k % 8, Nat.mod_lt _ (by decide), ?_⟩
      rw [Nat.mod_add_div, u32_of_lt (by omega)]
    · refine .inr ⟨k % 8, by omega, ?_⟩
      have hblock : n / 8 = k / 8 := by omega
      rw [hblock, Nat.mod_add_div, u32_of_lt (by omega)]

omit [Zero F] in
/-- A value is stored at every number of a list. -/
lemma storeAll_numbers (b : DeviceBuffer F) (f : ℕ → F) {l : List ℕ} (hl : ∀ k ∈ l, k < b.len) :
    ∃ b', b.storeAll (l.map fun k => (k, f k)) = some b' ∧ ∀ k ∈ l, b'.cell k = f k := by
  have hlt : ∀ w ∈ l.map (fun k => (k, f k)), w.1 < b.len := by
    intro w hw
    obtain ⟨k, hk, rfl⟩ := List.mem_map.mp hw
    exact hl k hk
  have hagree : ∀ w ∈ l.map (fun k => (k, f k)), ∀ w' ∈ l.map (fun k => (k, f k)),
      w'.1 = w.1 → w'.2 = w.2 := by
    intro w hw w' hw' heq
    obtain ⟨k, -, rfl⟩ := List.mem_map.mp hw
    obtain ⟨k', -, rfl⟩ := List.mem_map.mp hw'
    exact congrArg f heq
  obtain ⟨b', hb', -, hcell, -⟩ := b.storeAll_spec hlt hagree
  exact ⟨b', hb', fun k hk => hcell _ (List.mem_map_of_mem hk)⟩

/-- The kernel keeps every public input and stores the digest of the host. -/
lemma hashPiKernel_spec {n : ℕ} (hn : n < 2 ^ 32) (witness : ℕ → F) (piIndex : ℕ → ℕ)
    (b : PublicInputBuffers F) (hvalues : b.values.len = n) (hhash : b.hash.len = 4) :
    ∃ b', hashPiKernel permute witness piIndex n b = some b' ∧
      (∀ k < n, b'.values.cell k = witness (piIndex k)) ∧
      hashNToHashNoPad permute ((List.range n).map fun k => witness (piIndex k)) =
        some ((List.range 4).map b'.hash.cell) := by
  obtain ⟨values, hvstore, hvcell⟩ := storeAll_numbers b.values (fun k => witness (piIndex k))
    (l := piNumbers n) fun k hk => by rw [hvalues]; exact (mem_piNumbers hn).mp hk
  obtain ⟨hash, hhstore, hhcell⟩ := storeAll_numbers b.hash
    (hashPi permute (fun k => witness (piIndex k)) n) (l := List.range 4)
    fun k hk => by rw [hhash]; exact List.mem_range.mp hk
  refine ⟨⟨values, hash⟩, ?_, ?_, ?_⟩
  · simp only [hashPiKernel, hvstore, hhstore, Option.bind_eq_bind, Option.bind_some,
      Option.pure_def]
  · exact fun k hk => hvcell k ((mem_piNumbers hn).mpr hk)
  · rw [hashNToHashNoPad_eq, ← hashPi_eq _ hn]
    exact congrArg some (List.map_congr_left fun j hj => (hhcell j hj).symm)

end Kernel

/-! ### The public inputs of a circuit -/

/-- What `build` gives a circuit whose public inputs it hashes: a row for the Poseidon gate of every
eight of them and one for the public input gate, a quotient degree factor for the degree of the
Poseidon gate, and the root table of the largest FFT. -/
structure HashingCircuit extends CommonCircuitData where
  rows : (numPublicInputs + 7) / 8 < 2 ^ degreeBits
  poseidon_degree : 0 < numPublicInputs → 7 ≤ maxQuotientDegreeFactor
  fft_le : 2 ^ degreeBits * maxQuotientDegreeFactor ≤ 2 ^ 32

/-- A quotient degree factor is a power of two, so the one of the Poseidon gate is at least eight. -/
lemma HashingCircuit.numPublicInputs_lt (c : HashingCircuit) : c.numPublicInputs < 2 ^ 32 := by
  by_cases hpos : 0 < c.numPublicInputs
  · obtain ⟨k, hk⟩ := c.quotientDegree_pow
    have hdegree := c.poseidon_degree hpos
    have hk3 : 3 ≤ k := by
      by_contra hlt
      have hle : 2 ^ k ≤ 2 ^ 2 := Nat.pow_le_pow_right (by decide) (by omega)
      omega
    have height : 2 ^ 3 ≤ c.maxQuotientDegreeFactor := by
      rw [hk]
      exact Nat.pow_le_pow_right (by decide) hk3
    have hsize : 2 ^ c.degreeBits * 2 ^ 3 ≤ 2 ^ 32 :=
      le_trans (Nat.mul_le_mul_left _ height) c.fft_le
    have hrows := c.rows
    omega
  · omega

/-- The digest of the kernel is the one of the host, over the same elements in the same order. -/
theorem hashPi_eq_hashNToHashNoPad {F : Type} [Field F] (rc : ℕ → Fin 12 → F) (c : HashingCircuit)
    (witness : ℕ → F) (piIndex : ℕ → ℕ) (values hash : ℕ → F) :
    ∃ b, hashPiKernel (Poseidon.permuteState rc) witness piIndex c.numPublicInputs
        ⟨⟨c.numPublicInputs, values⟩, ⟨4, hash⟩⟩ = some b ∧
      (∀ k < c.numPublicInputs, b.values.cell k = witness (piIndex k)) ∧
      hashNToHashNoPad (Poseidon.poseidon rc)
          ((List.range c.numPublicInputs).map fun k => witness (piIndex k)) =
        some ((List.range 4).map b.hash.cell) := by
  have hpermute : Poseidon.permuteState rc = Poseidon.poseidon rc :=
    funext (Poseidon.permuteState_eq rc)
  rw [hpermute]
  exact hashPiKernel_spec _ c.numPublicInputs_lt witness piIndex _ rfl rfl

end MegaZK
