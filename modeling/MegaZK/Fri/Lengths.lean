import MegaZK.Fri.CommitStage
import MegaZK.Tiles.Coverage

/-! # Lengths of the FRI rounds

`fri_commit_part_lens` computes the lengths of the buffers of all rounds, `fri_committed_trees`
shrinks its own lengths from round to round, and the setup sizes the buffer of the final
polynomial in a third loop. Here is when they are the same. -/

namespace MegaZK

/-! ### The lengths of the loop -/

/-- The lengths among what `fri_committed_trees` keeps between rounds. -/
structure CommitLengths where
  layersCount : ℕ
  degree : ℕ
  degreeBits : ℕ

def CommitLoop.lengths (loop : CommitLoop) : CommitLengths where
  layersCount := loop.layersCount
  degree := loop.degree
  degreeBits := loop.degreeBits

/-- The beginning of a round. -/
def CommitLengths.shrink (arityBits : ℕ) (l : CommitLengths) : Option CommitLengths := do
  let arity := 1 <<< arityBits
  let degree := l.degree / arity
  let degreeBits ← subUnsigned l.degreeBits arityBits
  let layersCount ← subUnsigned l.layersCount arityBits
  return { layersCount, degree, degreeBits }

/-- The arities and the lengths of all rounds. -/
def commitLengths : List ℕ → CommitLengths → Option (List (ℕ × CommitLengths))
  | [], _ => some []
  | arityBits :: arities, l => do
    let l ← l.shrink arityBits
    let ls ← commitLengths arities l
    return (arityBits, l) :: ls

/-- The lengths of a round, as it hands them to the transposition, the tree, the copy of the cap,
the folding and the evaluation, are those of its part. -/
structure RoundAgrees (rateBits capHeight : ℕ) (part : FriCommitPartLens)
    (round : ℕ × CommitLengths) : Prop where
  layers : 1 ≤ round.2.layersCount
  leaves : part.leavesLen = hostDegree (round.2.layersCount - 1) * 2 ^ (round.1 + 1)
  digests : part.digestsLen = 8 * hostDegree (round.2.layersCount - 1)
  cap : 8 <<< capHeight ≤ part.digestsLen
  offset : u32 (capOffset part.digestsLen capHeight) =
    capOffset (8 * 2 ^ (round.2.layersCount - 1)) capHeight
  folded : part.foldedLen = extensionDegree * u32 round.2.degree <<< rateBits
  evaluated : part.foldedLen = extensionDegree * 2 ^ (round.2.degreeBits + rateBits)

/-- The coefficients of the last round fit their buffer, which is as long as the one of the host
that it is copied to, and what is read of it as the final polynomial is all of them. -/
structure FinalFits (rateBits leavesLen : ℕ) (part : FriCommitPartLens) (l : CommitLengths) :
    Prop where
  written : extensionDegree * l.degree ≤ part.foldedLen
  copied : part.foldedLen = leavesLen
  read : part.foldedLen >>> rateBits = extensionDegree * l.degree

namespace CommonCircuitData

variable (c : CommonCircuitData)

/-- The lengths before the first round. -/
def commitStart : CommitLengths where
  layersCount := c.degreeBits + c.rateBits + 1
  degree := 2 ^ c.degreeBits
  degreeBits := c.degreeBits

/-- The three computations of the lengths agree on these rounds. The loop indexes the last round by
`num_arity - 1`. -/
structure AgreesOn (rounds : List (ℕ × CommitLengths)) : Prop where
  computed : commitLengths c.reductionArityBits c.commitStart = some rounds
  parts : List.Forall₂ (RoundAgrees c.rateBits c.capHeight) c.friCommitPartLens rounds
  final : ∃ finalRound part round, subUnsigned c.reductionArityBits.length 1 = some finalRound ∧
    c.friCommitPartLens[finalRound]? = some part ∧ rounds[finalRound]? = some round ∧
    FinalFits c.rateBits c.assemblyConfig.friGeometry.leavesLen part round.2

def LengthsAgree : Prop := ∃ rounds, c.AgreesOn rounds

end CommonCircuitData

/-! ### The loop keeps these lengths -/

section Loop

variable {permute : (Fin 12 → GoldilocksField) → Fin 12 → GoldilocksField}
  {rateBits capHeight : ℕ}

lemma commitRound_lengths {a : ℕ} {loop loop' : CommitLoop} {r r' : FriCommitRound}
    {cap : List (List GoldilocksField)}
    (h : commitRound permute capHeight a loop r = some (loop', r', cap)) :
    loop.lengths.shrink a = some loop'.lengths := by
  obtain ⟨degreeBits, hdegree, h⟩ := Option.bind_eq_some_iff.mp h
  obtain ⟨layersCount, hlayers, h⟩ := Option.bind_eq_some_iff.mp h
  obtain ⟨r₁, -, h⟩ := Option.bind_eq_some_iff.mp h
  obtain ⟨cap', -, h⟩ := Option.bind_eq_some_iff.mp h
  obtain ⟨coefficients, -, h⟩ := Option.bind_eq_some_iff.mp h
  cases h
  simp only [CommitLengths.shrink, CommitLoop.lengths, hdegree, hlayers, Option.bind_eq_bind,
    Option.bind_some, Option.pure_def]

lemma nextRounds_lengths {a : ℕ} {isLastRound : Bool} {loop loop' : CommitLoop}
    {rest rest' : List FriCommitRound}
    (h : nextRounds rateBits a isLastRound loop rest = some (loop', rest')) :
    loop'.lengths = loop.lengths := by
  cases isLastRound with
  | true =>
    cases h
    rfl
  | false =>
    cases rest with
    | nil => cases h
    | cons next rest =>
      obtain ⟨leaves, -, h⟩ := Option.bind_eq_some_iff.mp h
      obtain ⟨leaves, -, h⟩ := Option.bind_eq_some_iff.mp h
      cases h
      rfl

/-- A run of the loop has the lengths of all rounds, and ends with those of the last one. -/
theorem commitRounds_lengths {arities : List ℕ} {loop loop' : CommitLoop}
    {rounds : List FriCommitRound} {dones : List (FriCommitRound × List (List GoldilocksField))}
    (h : commitRounds permute rateBits capHeight arities loop rounds = some (loop', dones)) :
    ∃ ls, commitLengths arities loop.lengths = some ls ∧ ls.length = dones.length ∧
      loop'.lengths = (ls.getLast?.map Prod.snd).getD loop.lengths := by
  induction arities generalizing loop loop' rounds dones with
  | nil =>
    cases h
    exact ⟨[], rfl, rfl, rfl⟩
  | cons a arities ih =>
    cases rounds with
    | nil => cases h
    | cons r rest =>
      obtain ⟨⟨loop₁, r', cap⟩, hround, h⟩ := Option.bind_eq_some_iff.mp h
      obtain ⟨⟨loop₂, rest'⟩, hnext, h⟩ := Option.bind_eq_some_iff.mp h
      obtain ⟨⟨loop₃, dones'⟩, hdones, h⟩ := Option.bind_eq_some_iff.mp h
      cases h
      obtain ⟨ls, hls, hlen, hlast⟩ := ih hdones
      rw [nextRounds_lengths hnext] at hls hlast
      refine ⟨(a, loop₁.lengths) :: ls, ?_, congrArg (· + 1) hlen, ?_⟩
      · simp only [commitLengths, commitRound_lengths hround, hls, Option.bind_eq_bind,
          Option.bind_some, Option.pure_def]
      · rw [hlast]
        cases ls with
        | nil => rfl
        | cons l ls => simp [List.getLast?_eq_some_getLast]

end Loop

/-! ### Agreement -/

lemma subUnsigned_eq_some_iff {a b d : ℕ} : subUnsigned a b = some d ↔ a = d + b := by
  rw [subUnsigned]
  split_ifs with h
  · rw [Option.some.injEq]
    omega
  · constructor
    · intro hnone
      cases hnone
    · intro heq
      omega

/-- The lengths at a degree of `2 ^ m`. -/
def lengthsAt (rateBits m : ℕ) : CommitLengths where
  layersCount := m + rateBits + 1
  degree := 2 ^ m
  degreeBits := m

lemma shrink_lengthsAt (rateBits m a : ℕ) :
    (lengthsAt rateBits (m + a)).shrink a = some (lengthsAt rateBits m) := by
  have hlayers : m + a + rateBits + 1 = m + rateBits + 1 + a := by omega
  have hdegree : 2 ^ (m + a) / 1 <<< a = 2 ^ m := by
    rw [Nat.one_shiftLeft, pow_add, Nat.mul_div_cancel _ (Nat.two_pow_pos a)]
  simp only [CommitLengths.shrink, lengthsAt, subUnsigned_eq_some_iff.mpr rfl,
    subUnsigned_eq_some_iff.mpr hlayers, hdegree, Option.bind_eq_bind, Option.bind_some,
    Option.pure_def]

/-- The cap of a tree with `2 ^ n` leaves is in it, at an offset that `u32` holds. -/
structure CapFits (capHeight n : ℕ) : Prop where
  le : capHeight ≤ n
  leaves : n < 32
  offset : 8 * 2 ^ n < 2 ^ 32 + 8 * 2 ^ capHeight

lemma CapFits.of_le {capHeight n n' : ℕ} (h : CapFits capHeight n) (hcap : capHeight ≤ n')
    (hle : n' ≤ n) : CapFits capHeight n' := by
  have hpow : 2 ^ n' ≤ 2 ^ n := Nat.pow_le_pow_right (by decide) hle
  have hoffset := h.offset
  exact ⟨hcap, by have hn := h.leaves; omega, by omega⟩

lemma roundAgrees_lengthsAt {rateBits capHeight m a : ℕ} (h : CapFits capHeight (m + rateBits)) :
    RoundAgrees rateBits capHeight
      ⟨8 * 2 ^ (m + rateBits), 2 * 2 ^ (m + rateBits + a), 2 * 2 ^ (m + rateBits)⟩
      (a, lengthsAt rateBits m) := by
  have hoffset := h.offset
  have hleaves := h.leaves
  have hrows : hostDegree (m + rateBits) = 2 ^ (m + rateBits) := hostDegree_eq hleaves
  have hcap : 2 ^ capHeight ≤ 2 ^ (m + rateBits) := Nat.pow_le_pow_right (by decide) h.le
  have hdegree : u32 (2 ^ m) = 2 ^ m := u32_of_lt (Nat.pow_lt_pow_right (by decide) (by omega))
  have hcapLen : 8 <<< capHeight = 8 * 2 ^ capHeight := Nat.shiftLeft_eq 8 capHeight
  refine ⟨?_, ?_, ?_, ?_, ?_, ?_, rfl⟩
  · exact Nat.succ_le_succ (Nat.zero_le _)
  · change 2 * 2 ^ (m + rateBits + a) = hostDegree (m + rateBits) * 2 ^ (a + 1)
    rw [hrows]
    ring
  · change 8 * 2 ^ (m + rateBits) = 8 * hostDegree (m + rateBits)
    rw [hrows]
  · rw [hcapLen]
    exact Nat.mul_le_mul_left 8 hcap
  · refine u32_of_lt ?_
    rw [capOffset, hcapLen]
    dsimp only
    omega
  · change 2 * 2 ^ (m + rateBits) = 2 * u32 (2 ^ m) <<< rateBits
    rw [hdegree, Nat.shiftLeft_eq, pow_add]

/-- From a degree of `2 ^ m` on, all rounds agree with their parts. -/
lemma commitLengths_agree {rateBits capHeight m : ℕ} {arities : List ℕ}
    (hsum : arities.sum ≤ m) (hcap : arities.sum + capHeight ≤ m + rateBits)
    (hfirst : ∀ a ∈ arities.head?, CapFits capHeight (m + rateBits - a)) :
    ∃ rounds, commitLengths arities (lengthsAt rateBits m) = some rounds ∧
      List.Forall₂ (RoundAgrees rateBits capHeight)
        (friCommitPartLensFrom (8 * 2 ^ (m + rateBits)) (2 * 2 ^ (m + rateBits)) arities)
        rounds ∧
      ∀ round ∈ rounds.getLast?, round.2 = lengthsAt rateBits (m - arities.sum) := by
  induction arities generalizing m with
  | nil => exact ⟨[], rfl, .nil, by simp⟩
  | cons a arities ih =>
    rw [List.sum_cons] at hsum hcap
    obtain ⟨m, rfl⟩ := Nat.exists_eq_add_of_le' (show a ≤ m by omega)
    have hbits : m + a + rateBits = m + rateBits + a := by omega
    have hround : CapFits capHeight (m + rateBits) := by
      have hfits := hfirst a rfl
      rwa [hbits, Nat.add_sub_cancel] at hfits
    have hrest : ∀ a' ∈ arities.head?, CapFits capHeight (m + rateBits - a') := by
      intro a' ha'
      have hmem : a' ≤ arities.sum := List.le_sum_of_mem (List.mem_of_head? ha')
      exact hround.of_le (by omega) (by omega)
    obtain ⟨rounds, hrounds, hagree, hlast⟩ := ih (by omega) (by omega) hrest
    refine ⟨(a, lengthsAt rateBits m) :: rounds, ?_, ?_, ?_⟩
    · simp only [commitLengths, shrink_lengthsAt, hrounds, Option.bind_eq_bind, Option.bind_some,
        Option.pure_def]
    · rw [hbits, friCommitPartLensFrom_cons]
      exact .cons (roundAgrees_lengthsAt hround) hagree
    · intro round hmem
      have hsub : m + a - (a :: arities).sum = m - arities.sum := by
        rw [List.sum_cons]
        omega
      rw [hsub]
      cases rounds with
      | nil =>
        cases hagree_nil : arities with
        | nil =>
          cases hmem
          rfl
        | cons a' arities' =>
          rw [hagree_nil] at hagree
          cases hagree
      | cons next rounds => exact hlast round hmem

/-- A loop that does not underflow divides the degree by every arity. -/
lemma sum_le_of_commitLengths {arities : List ℕ} {l : CommitLengths}
    {rounds : List (ℕ × CommitLengths)} (h : commitLengths arities l = some rounds) :
    arities.sum ≤ l.degreeBits := by
  induction arities generalizing l rounds with
  | nil => exact Nat.zero_le _
  | cons a arities ih =>
    obtain ⟨l', hshrink, h⟩ := Option.bind_eq_some_iff.mp h
    obtain ⟨ls, hls, -⟩ := Option.bind_eq_some_iff.mp h
    obtain ⟨degreeBits, hdegree, hshrink⟩ := Option.bind_eq_some_iff.mp hshrink
    obtain ⟨layersCount, -, hshrink⟩ := Option.bind_eq_some_iff.mp hshrink
    cases hshrink
    have hrest := ih hls
    have hdegree := subUnsigned_eq_some_iff.mp hdegree
    rw [List.sum_cons, hdegree]
    exact (add_comm a _).trans_le (Nat.add_le_add_right hrest a)

lemma length_commitLengths {arities : List ℕ} {l : CommitLengths}
    {rounds : List (ℕ × CommitLengths)} (h : commitLengths arities l = some rounds) :
    rounds.length = arities.length := by
  induction arities generalizing l rounds with
  | nil =>
    cases h
    rfl
  | cons a arities ih =>
    obtain ⟨l', -, h⟩ := Option.bind_eq_some_iff.mp h
    obtain ⟨ls, hls, h⟩ := Option.bind_eq_some_iff.mp h
    cases h
    exact congrArg (· + 1) (ih hls)

/-- A round whose lengths agree has a tree that 32 bits can address. -/
lemma RoundAgrees.capFits {rateBits capHeight n leavesLen foldedLen : ℕ} {round : ℕ × CommitLengths}
    (h : RoundAgrees rateBits capHeight ⟨8 * 2 ^ n, leavesLen, foldedLen⟩ round)
    (hlayers : round.2.layersCount = n + 1) (hcap : capHeight ≤ n) : CapFits capHeight n := by
  have hdigests := h.digests
  have hoffset := h.offset
  rw [hlayers, Nat.add_sub_cancel] at hdigests hoffset
  refine ⟨hcap, ?_, ?_⟩
  · have hword : hostDegree n < 2 ^ 32 := Nat.mod_lt _ (Nat.two_pow_pos 32)
    rw [← Nat.pow_lt_pow_iff_right (a := 2) (by decide)]
    have hdigests : 8 * 2 ^ n = 8 * hostDegree n := hdigests
    omega
  · have hword : u32 (capOffset (8 * 2 ^ n) capHeight) < 2 ^ 32 := Nat.mod_lt _ (Nat.two_pow_pos 32)
    have hcapLen : 8 <<< capHeight = 8 * 2 ^ capHeight := Nat.shiftLeft_eq 8 capHeight
    rw [hoffset, capOffset, hcapLen] at hword
    omega

namespace CommonCircuitData

variable {c : CommonCircuitData}

lemma leavesLen_friGeometry (h : c.reductionArityBits.sum ≤ c.ldeBits) :
    c.assemblyConfig.friGeometry.leavesLen = 2 ^ (c.ldeBits + 1 - c.reductionArityBits.sum) := by
  obtain ⟨-, -, hleaves⟩ := c.assemblyConfig.friGeometry_eq
  have hwords : (2 ^ c.degreeBits * extensionDegree) <<< c.rateBits = 2 ^ (c.ldeBits + 1) := by
    rw [Nat.shiftLeft_eq, ldeBits, pow_succ, pow_add, extensionDegree]
    ring
  rw [hleaves, ← two_pow_shiftRight (by omega : c.reductionArityBits.sum ≤ c.ldeBits + 1), ← hwords]
  rfl

/-- The coefficients of the last round are what is read as the final polynomial. -/
lemma finalFits_of_last {part : FriCommitPartLens} {l : CommitLengths}
    (hsum : c.reductionArityBits.sum ≤ c.degreeBits)
    (hpart : part.foldedLen = 2 ^ (c.ldeBits + 1 - c.reductionArityBits.sum))
    (hl : l = lengthsAt c.rateBits (c.degreeBits - c.reductionArityBits.sum)) :
    FinalFits c.rateBits c.assemblyConfig.friGeometry.leavesLen part l := by
  have hlde : c.ldeBits = c.degreeBits + c.rateBits := rfl
  have hdegree : extensionDegree * l.degree =
      2 ^ (c.degreeBits - c.reductionArityBits.sum + 1) := by
    rw [hl, pow_succ, mul_comm]
    rfl
  constructor
  · rw [hdegree, hpart]
    exact Nat.pow_le_pow_right (by decide) (by omega)
  · rw [hpart, leavesLen_friGeometry (by omega)]
  · rw [hpart, hdegree, two_pow_shiftRight (by omega)]
    congr 1
    omega

/-- The lengths of all circuits agree that fold their polynomials, not below a constant, and whose
first tree is not too large for the offset of its cap. -/
theorem lengthsAgree_iff : c.LengthsAgree ↔
    c.reductionArityBits ≠ [] ∧ c.reductionArityBits.sum ≤ c.degreeBits ∧
      ∀ a ∈ c.reductionArityBits.head?, c.ldeBits - a < 32 ∧
        8 * 2 ^ (c.ldeBits - a) - 8 * 2 ^ c.capHeight < 2 ^ 32 := by
  have hlde : c.ldeBits = c.degreeBits + c.rateBits := rfl
  have hcap := c.arities_le
  have hparts : c.friCommitPartLens =
      friCommitPartLensFrom (8 * 2 ^ c.ldeBits) (2 * 2 ^ c.ldeBits) c.reductionArityBits :=
    c.friCommitPartLens_eq
  constructor
  · rintro ⟨rounds, h⟩
    obtain ⟨finalRound, part, round, hfinal, -⟩ := h.final
    refine ⟨?_, sum_le_of_commitLengths h.computed, ?_⟩
    · intro hnil
      rw [hnil, subUnsigned_eq_some_iff, List.length_nil] at hfinal
      omega
    · intro a ha
      obtain ⟨arities, harities⟩ := List.head?_eq_some_iff.mp ha
      have hagree := h.parts
      have hcomputed := h.computed
      rw [harities, List.sum_cons] at hcap
      obtain ⟨n, hn⟩ := Nat.exists_eq_add_of_le' (show a ≤ c.ldeBits by omega)
      rw [hparts, harities, hn, friCommitPartLensFrom_cons] at hagree
      rw [harities] at hcomputed
      cases hagree with
      | cons hround hrest =>
        obtain ⟨l, hshrink, hcomputed⟩ := Option.bind_eq_some_iff.mp hcomputed
        obtain ⟨ls, -, hcomputed⟩ := Option.bind_eq_some_iff.mp hcomputed
        cases hcomputed
        obtain ⟨degreeBits, -, hshrink⟩ := Option.bind_eq_some_iff.mp hshrink
        obtain ⟨layersCount, hlayers, hshrink⟩ := Option.bind_eq_some_iff.mp hshrink
        cases hshrink
        have hlayers : c.ldeBits + 1 = layersCount + a := subUnsigned_eq_some_iff.mp hlayers
        have hfits := hround.capFits (by dsimp only; omega) (by omega)
        have hoffset := hfits.offset
        rw [hn, Nat.add_sub_cancel]
        exact ⟨hfits.leaves, by omega⟩
  · rintro ⟨hne, hsum, hfirst⟩
    have hfits : ∀ a ∈ c.reductionArityBits.head?, CapFits c.capHeight (c.ldeBits - a) := by
      intro a ha
      have hle : a ≤ c.reductionArityBits.sum := List.le_sum_of_mem (List.mem_of_head? ha)
      obtain ⟨hleaves, hoffset⟩ := hfirst a ha
      exact ⟨by omega, hleaves, by omega⟩
    obtain ⟨rounds, hrounds, hagree, hlast⟩ := commitLengths_agree hsum hcap hfits
    have hfolded := foldedLen_friCommitPartLensFrom hne (k := c.ldeBits + 1) (by omega)
      (8 * 2 ^ c.ldeBits)
    rw [pow_succ', ← hparts, Option.map_eq_some_iff] at hfolded
    obtain ⟨part, hpart, hfolded⟩ := hfolded
    have hagree : List.Forall₂ (RoundAgrees c.rateBits c.capHeight) c.friCommitPartLens rounds := by
      rw [hparts]
      exact hagree
    have hlen : c.friCommitPartLens.length = rounds.length := hagree.length_eq
    have hnum : rounds.length = c.reductionArityBits.length := length_commitLengths hrounds
    have hpos : 0 < c.reductionArityBits.length := List.length_pos_iff.mpr hne
    obtain ⟨round, hround⟩ : ∃ round, rounds.getLast? = some round :=
      Option.ne_none_iff_exists'.mp (mt List.getLast?_eq_none_iff.mp
        (List.length_pos_iff.mp (by omega)))
    have hfinal : subUnsigned c.reductionArityBits.length 1 =
        some (c.reductionArityBits.length - 1) :=
      subUnsigned_eq_some_iff.mpr (Nat.sub_add_cancel hpos).symm
    rw [List.getLast?_eq_getElem?, hlen, hnum] at hpart
    have hfits := finalFits_of_last hsum hfolded (hlast round hround)
    rw [List.getLast?_eq_getElem?, hnum] at hround
    exact ⟨rounds, hrounds, hagree, _, part, round, hfinal, hpart, hround, hfits⟩

end CommonCircuitData

/-- Without a cap above the root, the reductions may go below a constant. -/
def overReduced : CommonCircuitData :=
  { smallRecursion with
    degreeBits := 12
    capHeight := 0
    reductionArityBits := [4, 4, 4, 1]
    arities_le := by decide
    lde_le := standardLde }

theorem not_lengthsAgree : ¬smallRecursion.LengthsAgree ∧ ¬overReduced.LengthsAgree := by
  constructor
  · rintro ⟨rounds, h⟩
    obtain ⟨finalRound, part, round, hfinal, -⟩ := h.final
    cases hfinal
  · rintro ⟨rounds, h⟩
    have hsum : 13 ≤ 12 := sum_le_of_commitLengths h.computed
    exact absurd hsum (by decide)

end MegaZK
