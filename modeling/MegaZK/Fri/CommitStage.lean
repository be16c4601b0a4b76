import MegaZK.Fri.Commit

/-! # When the FRI commit stage runs

The stage ends, with every leaf hashed, exactly for the reductions whose leaves fill a tile of the
transposition, that do not go below a constant and whose trees have at most 31 bits. -/

namespace MegaZK

namespace CommonCircuitData

variable (c : CommonCircuitData) (permute : (Fin 12 → GoldilocksField) → Fin 12 → GoldilocksField)

/-- Whatever the buffers hold, the stage ends without an underflow, a failed assertion or a launch
that the device refuses, and every leaf of every round is transposed and hashed. -/
def CommitStageRuns : Prop :=
  ∀ coefficients rounds transcript,
    List.Forall₂ FriCommitRound.HasSize c.friCommitPartLens rounds →
      ∃ stage, c.friCommitStage permute coefficients rounds transcript = some stage ∧
        List.Forall₂ (fun a r => r.LeavesHashed permute a) c.reductionArityBits stage.rounds

lemma friCommitPartLens_eq : c.friCommitPartLens =
    friCommitPartLensFrom (8 * 2 ^ c.ldeBits) (2 * 2 ^ c.ldeBits) c.reductionArityBits := by
  have hdigests : (8 * 2 ^ c.degreeBits) <<< c.rateBits = 8 * 2 ^ c.ldeBits := by
    rw [Nat.shiftLeft_eq, ldeBits, pow_add, mul_assoc]
  have hleaves : (2 ^ c.degreeBits * extensionDegree) <<< c.rateBits = 2 * 2 ^ c.ldeBits := by
    rw [Nat.shiftLeft_eq, ldeBits, pow_add, extensionDegree]
    ring
  rw [friCommitPartLens, hdigests, hleaves]

/-- The reductions that the stage handles. -/
structure CommitStageFits : Prop where
  nonempty : c.reductionArityBits ≠ []
  arities : ∀ a ∈ c.reductionArityBits, 4 ≤ a ∧ a ≤ 30
  degree : c.reductionArityBits.sum ≤ c.degreeBits
  cap : c.capHeight ≤ 8
  lde : c.ldeBits ≤ 31

variable {c}

/-- The stage after the rounds. -/
lemma friCommitStage_of_rounds {coefficients : ℕ → QuadraticExtension}
    {rounds : List FriCommitRound}
    {transcript : ChallengerGpu GoldilocksField × List (Event GoldilocksField)} {loop : CommitLoop}
    {dones : List (FriCommitRound × List (List GoldilocksField))}
    (hrounds : rounds ≠ []) (hdones : commitRounds permute c.rateBits c.capHeight
      c.reductionArityBits (c.commitLoop coefficients transcript) rounds = some (loop, dones))
    (hlen : dones.length = c.reductionArityBits.length) (hpos : dones ≠ []) :
    c.friCommitStage permute coefficients rounds transcript =
      some (c.commitStageOf permute loop dones (dones.getLast hpos).1) := by
  have hempty : rounds.isEmpty = false := List.isEmpty_eq_false_iff.mpr hrounds
  have hsub : subUnsigned c.reductionArityBits.length 1 = some (dones.length - 1) := by
    rw [subUnsigned, ← hlen]
    exact if_pos (List.length_pos_iff.mpr hpos)
  have hlast : dones[dones.length - 1]? = some (dones.getLast hpos) := by
    rw [← List.getLast?_eq_getElem?, List.getLast?_eq_some_getLast hpos]
  simp only [friCommitStage, hempty, guard, if_true, hdones, hsub, hlast, Option.bind_eq_bind,
    Option.bind_some, Option.pure_def]

lemma CommitStageFits.runs (h : c.CommitStageFits) : c.CommitStageRuns permute := by
  intro coefficients rounds transcript hrounds
  rw [friCommitPartLens_eq] at hrounds
  have hlayers : (c.commitLoop coefficients transcript).layersCount =
    c.degreeBits + c.rateBits + 1 := rfl
  obtain ⟨loop', dones, hdones, hhashed⟩ := commitRounds_spec permute h.cap h.arities h.degree
    h.lde hlayers rfl rfl hrounds
  have hlen := hhashed.length_eq
  have hpos : 0 < c.reductionArityBits.length := List.length_pos_iff.mpr h.nonempty
  have hne : rounds ≠ [] := by
    rintro rfl
    cases harities : c.reductionArityBits with
    | nil => exact h.nonempty harities
    | cons a arities =>
      rw [harities] at hrounds
      cases hrounds
  have hdones_ne : dones ≠ [] := List.length_pos_iff.mp (by omega)
  exact ⟨_, friCommitStage_of_rounds permute hne hdones hlen.symm hdones_ne,
    List.forall₂_map_right_iff.mpr hhashed⟩

end CommonCircuitData

/-! ### What the stage needs -/

/-- Buffers of any sizes, where the words of the leaves differ from those of the transposed ones. -/
lemma exists_rounds (arities : List ℕ) {n : ℕ} (h : arities.sum ≤ n) :
    ∃ rounds, List.Forall₂ FriCommitRound.HasSize
        (friCommitPartLensFrom (8 * 2 ^ n) (2 * 2 ^ n) arities) rounds ∧
      ∀ r ∈ rounds, (∀ w, words r.leaves.cell w = 1) ∧ ∀ k, r.transposedLeaves.cell k = 0 := by
  induction arities generalizing n with
  | nil => exact ⟨[], .nil, by simp⟩
  | cons a arities ih =>
    rw [List.sum_cons] at h
    obtain ⟨n, rfl⟩ : ∃ n', n = n' + a := ⟨n - a, by omega⟩
    obtain ⟨rounds, hsizes, hcells⟩ := ih (by omega : arities.sum ≤ n)
    let r : FriCommitRound :=
      { digests := ⟨8 * 2 ^ n, fun _ => 0⟩
        leaves := ⟨2 ^ (n + a), fun _ => ⟨1, 1⟩⟩
        transposedLeaves := ⟨2 * 2 ^ (n + a), fun _ => 0⟩
        coefficients := ⟨2 ^ n, fun _ => 0⟩ }
    refine ⟨r :: rounds, ?_, List.forall_mem_cons.mpr ⟨⟨?_, fun _ => rfl⟩, hcells⟩⟩
    · rw [friCommitPartLensFrom_cons]
      exact .cons ⟨rfl, rfl, rfl, rfl⟩ hsizes
    · intro w
      simp [words, r]

/-- In a round on `2 ^ 33` words the last word of the last leaf is not transposed. -/
lemma not_leavesHashed_of_large {permute : (Fin 12 → GoldilocksField) → Fin 12 → GoldilocksField}
    {capHeight a : ℕ} (ha : 4 ≤ a ∧ a ≤ 30) {loop loop' : CommitLoop} {r r' : FriCommitRound}
    {cap : List (List GoldilocksField)}
    (h : commitRound permute capHeight a loop r = some (loop', r', cap))
    (hlayers : loop.layersCount = 33) (hlen : r.leaves.len = 2 ^ 32)
    (hleaves : ∀ w, words r.leaves.cell w = 1) (hzero : ∀ k, r.transposedLeaves.cell k = 0) :
    ¬r'.LeavesHashed permute a := by
  intro hhashed
  obtain ⟨hsame, htransposed⟩ := commitRound_transposed permute h
  obtain ⟨k, rfl⟩ : ∃ k, a = k + 4 := ⟨a - 4, by omega⟩
  have hrow : 33 - (k + 4) - 1 = 28 - k := by omega
  have hbits : u32 (k + 4 + 1) = k + 5 := u32_of_lt (by omega)
  rw [hlayers, hrow, hbits, hostDegree_eq (by omega)] at htransposed
  have hpow : 2 ^ (28 - k) ∣ 2 ^ 32 := pow_dvd_pow 2 (by omega)
  have htotal : 2 ^ (28 - k) * 2 ^ (k + 4) = 2 ^ 32 := by
    rw [← pow_add]
    congr 1
    omega
  have hsize : 2 ^ (28 - k) * (2 ^ k * 32) = 2 ^ 33 := by
    calc 2 ^ (28 - k) * (2 ^ k * 32) = 2 * (2 ^ (28 - k) * 2 ^ (k + 4)) := by
          rw [pow_add]
          ring
      _ = 2 ^ 33 := by rw [htotal]; rfl
  have hkept := batchTranspose_large (by omega : k < 27) hpow hsize htransposed
  have hcount : r'.leaves.len / 2 ^ (k + 4) = 2 ^ (28 - k) := by
    rw [hsame, hlen, ← htotal, Nat.mul_div_cancel _ (Nat.two_pow_pos _)]
  have hpos : 0 < 2 ^ (28 - k) := Nat.two_pow_pos _
  have hwidth : 0 < 2 ^ (k + 4) := Nat.two_pow_pos _
  obtain ⟨hleaf, -⟩ := hhashed (2 ^ (28 - k) - 1) (by omega)
  rw [hcount, leafOf, friLeaf_eq, hsame] at hleaf
  have hcol : 2 * 2 ^ (k + 4) - 1 ∈ List.range (2 * 2 ^ (k + 4)) :=
    List.mem_range.mpr (by omega)
  have hword := List.map_inj_left.mp hleaf _ hcol
  have haddress : (2 * 2 ^ (k + 4) - 1) * 2 ^ (28 - k) + (2 ^ (28 - k) - 1) = 2 ^ 33 - 1 := by
    have hle : 2 ^ (28 - k) ≤ 2 ^ 28 := Nat.pow_le_pow_right (by decide) (by omega)
    rw [Nat.sub_mul, mul_assoc, mul_comm (2 ^ (k + 4)), htotal]
    omega
  rw [haddress, hkept, hzero, hleaves] at hword
  exact zero_ne_one hword

namespace CommonCircuitData

variable {c : CommonCircuitData} {permute : (Fin 12 → GoldilocksField) → Fin 12 → GoldilocksField}

lemma CommitStageRuns.fits (h : c.CommitStageRuns permute) : c.CommitStageFits := by
  have hlde := c.lde_le
  have harities_le := c.arities_le
  obtain ⟨rounds, hsizes, hcells⟩ := exists_rounds c.reductionArityBits
    (show c.reductionArityBits.sum ≤ c.ldeBits by unfold ldeBits; omega)
  rw [← friCommitPartLens_eq] at hsizes
  obtain ⟨stage, hstage, hhashed⟩ := h (fun _ => 0) rounds (ChallengerGpu.new, []) hsizes
  obtain ⟨_, hguard, hstage⟩ := Option.bind_eq_some_iff.mp hstage
  obtain ⟨⟨loop, dones⟩, hdones, hstage⟩ := Option.bind_eq_some_iff.mp hstage
  obtain ⟨finalRound, -, hstage⟩ := Option.bind_eq_some_iff.mp hstage
  obtain ⟨last, -, hstage⟩ := Option.bind_eq_some_iff.mp hstage
  cases hstage
  obtain ⟨harities, hdegree, hcap⟩ := commitRounds_some permute (by omega) hdones
  have hnonempty : c.reductionArityBits ≠ [] := by
    intro hnil
    rw [friCommitPartLens, hnil] at hsizes
    cases hsizes
    cases hguard
  refine ⟨hnonempty, harities, hdegree, hcap hnonempty, ?_⟩
  by_contra hlarge
  have hbits : c.ldeBits = 32 := le_antisymm hlde (by omega)
  cases hlist : c.reductionArityBits with
  | nil => exact hnonempty hlist
  | cons a arities =>
    rw [hlist] at hdones hhashed harities
    rw [friCommitPartLens_eq, hbits, hlist, friCommitPartLensFrom] at hsizes
    cases hsizes with
    | cons hr _ =>
      obtain ⟨⟨loop₁, r', cap⟩, hround, hdones⟩ := Option.bind_eq_some_iff.mp hdones
      obtain ⟨⟨loop₂, rest'⟩, -, hdones⟩ := Option.bind_eq_some_iff.mp hdones
      obtain ⟨⟨loop₃, dones'⟩, -, hdones⟩ := Option.bind_eq_some_iff.mp hdones
      cases hdones
      cases hhashed with
      | cons hhashed _ =>
        have hlen := hr.leaves
        obtain ⟨hone, hzero⟩ := hcells _ (List.mem_cons_self ..)
        refine not_leavesHashed_of_large (harities a (List.mem_cons_self ..)) hround ?_ ?_ hone
          hzero hhashed
        · exact congrArg (· + 1) hbits
        · change 2 * _ = 2 * 2 ^ 32 at hlen
          omega

end CommonCircuitData

end MegaZK
