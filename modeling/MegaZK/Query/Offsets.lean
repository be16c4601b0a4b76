import MegaZK.Assembly.Passes
import MegaZK.Query.Leaves

/-! # The offsets of the query output

The cells that the query kernels write and the cells that proof assembly reads, by what they hold.
Both sides walk the folding rounds with running offsets of their own. -/

namespace MegaZK

open Grid

variable {F : Type}

/-! ### The folding rounds -/

/-- One round of the folding steps, with the evaluations and siblings of the rounds before it. -/
structure StepRound where
  round : ℕ
  arityBits : ℕ
  arityAcc : ℕ
  accStepSiblings : ℕ
  currentStepSiblings : ℕ

/-- The rounds from given offsets on. -/
def stepRoundsFrom : ℕ → ℕ → ℕ → ℕ → List ℕ → List StepRound
  | _, _, _, _, [] => []
  | round, arityAcc, accStepSiblings, currentStepSiblings, arityBits :: rest =>
    let currentStepSiblings := currentStepSiblings - arityBits
    ⟨round, arityBits, arityAcc, accStepSiblings, currentStepSiblings⟩ ::
      stepRoundsFrom (round + 1) (arityAcc + 1 <<< arityBits)
        (accStepSiblings + currentStepSiblings) currentStepSiblings rest

/-- One round of the writers. -/
def CommonCircuitData.writeStep (c : CommonCircuitData) (leaves digests : ℕ → ℕ → F)
    (st : StepState F) (r : StepRound) : Option (StepState F) :=
  let g := c.assemblyConfig.friGeometry
  friStep (leaves r.round) (digests r.round) st c.queryBlocks (u32 c.numQueryRounds)
    (u32 r.arityBits) (u32 g.aritySum) (u32 r.arityAcc) (u32 g.totalStepSiblings)
    (u32 r.accStepSiblings) (u32 (r.currentStepSiblings + c.capHeight)) (u32 c.capHeight)

/-- The writers walk the rounds. -/
lemma CommonCircuitData.queryStepsFrom_eq (c : CommonCircuitData) (leaves digests : ℕ → ℕ → F)
    (arities : List ℕ) (round arityAcc accStepSiblings currentStepSiblings : ℕ)
    (st : StepState F) :
    c.queryStepsFrom leaves digests round arityAcc accStepSiblings currentStepSiblings arities st =
      (stepRoundsFrom round arityAcc accStepSiblings currentStepSiblings arities).foldlM
        (c.writeStep leaves digests) st := by
  induction arities generalizing round arityAcc accStepSiblings currentStepSiblings st with
  | nil => rfl
  | cons arityBits rest ih =>
    rw [queryStepsFrom, stepRoundsFrom, List.foldlM_cons]
    congr 1
    funext st
    exact ih _ _ _ _ st

/-- One round of the readers, for query `i`. -/
def ProofAssemblyBuffers.readStep (b : ProofAssemblyBuffers F) (cfg : ProofAssemblyConfig) (i : ℕ)
    (r : StepRound) : Option (FriQueryStep F) := do
  let g := cfg.friGeometry
  let siblings ← (List.range r.currentStepSiblings).mapM fun j =>
    b.friStepSiblings.hashAt (i * g.totalStepSiblings * 4 + r.accStepSiblings * 4 + 4 * j)
  let evals ← sliceRange (extensionVec b.friStepEvaluations.len b.friStepEvaluations.cell)
    (i * g.aritySum + r.arityAcc) (i * g.aritySum + r.arityAcc + 1 <<< r.arityBits)
  pure ⟨evals, siblings⟩

/-- The readers walk the same rounds. -/
lemma ProofAssemblyBuffers.querySteps_eq (b : ProofAssemblyBuffers F) (cfg : ProofAssemblyConfig)
    (i : ℕ) (arities : List ℕ) (round arityAcc accStepSiblings currentStepSiblings : ℕ) :
    b.querySteps cfg i accStepSiblings arityAcc currentStepSiblings arities =
      (stepRoundsFrom round arityAcc accStepSiblings currentStepSiblings arities).mapM
        (b.readStep cfg i) := by
  induction arities generalizing round arityAcc accStepSiblings currentStepSiblings with
  | nil => rfl
  | cons arityBits rest ih =>
    rw [querySteps, stepRoundsFrom, List.mapM_cons, readStep, ← ih]
    simp only [Option.bind_eq_bind, Option.bind_assoc, Option.pure_def, Option.bind_some]

/-- A round ends before the next one begins. -/
def StepRound.Before (r r' : StepRound) : Prop :=
  r.round < r'.round ∧ r.arityAcc + 2 ^ r.arityBits ≤ r'.arityAcc ∧
    r.accStepSiblings + r.currentStepSiblings ≤ r'.accStepSiblings

/-- Every round lies between the offsets of the first and the totals. -/
lemma stepRoundsFrom_mem {arities : List ℕ} {round arityAcc acc cur : ℕ} {r : StepRound}
    (hr : r ∈ stepRoundsFrom round arityAcc acc cur arities) :
    round ≤ r.round ∧ arityAcc ≤ r.arityAcc ∧ acc ≤ r.accStepSiblings ∧
      r.arityBits ∈ arities ∧ r.currentStepSiblings ≤ cur ∧
      r.arityAcc + 2 ^ r.arityBits ≤ arityAcc + ((stepShapes cur arities).map Prod.fst).sum ∧
      r.accStepSiblings + r.currentStepSiblings ≤
        acc + ((stepShapes cur arities).map Prod.snd).sum := by
  induction arities generalizing round arityAcc acc cur with
  | nil => cases hr
  | cons arityBits rest ih =>
    simp only [stepShapes, List.map_cons, List.sum_cons]
    rw [stepRoundsFrom] at hr
    rcases List.mem_cons.mp hr with rfl | hr
    · simp only [List.mem_cons, true_or, true_and, le_refl]
      omega
    · obtain ⟨hround, harity, hacc, hmem, hcur, hend, hsiblings⟩ := ih hr
      have hpos : 0 < 2 ^ arityBits := by positivity
      rw [Nat.one_shiftLeft] at harity hend
      exact ⟨by omega, by omega, by omega, List.mem_cons_of_mem _ hmem, by omega, by omega,
        by omega⟩

lemma stepRoundsFrom_pairwise (arities : List ℕ) (round arityAcc acc cur : ℕ) :
    (stepRoundsFrom round arityAcc acc cur arities).Pairwise StepRound.Before := by
  induction arities generalizing round arityAcc acc cur with
  | nil => exact .nil
  | cons arityBits rest ih =>
    rw [stepRoundsFrom]
    refine .cons ?_ (ih _ _ _ _)
    intro r hr
    have h := stepRoundsFrom_mem hr
    rw [Nat.one_shiftLeft] at h
    exact ⟨by dsimp only; omega, by dsimp only; omega, by dsimp only; omega⟩

/-- Two rounds are the same, or one ends before the other begins. -/
lemma stepRoundsFrom_trichotomy {arities : List ℕ} {round arityAcc acc cur : ℕ}
    {r r' : StepRound} (hr : r ∈ stepRoundsFrom round arityAcc acc cur arities)
    (hr' : r' ∈ stepRoundsFrom round arityAcc acc cur arities) :
    r = r' ∨ r.Before r' ∨ r'.Before r := by
  refine List.Pairwise.forall_of_forall_of_flip (R := fun r r' => r = r' ∨ r.Before r' ∨ r'.Before r)
    (fun _ _ => .inl rfl) ?_ ?_ hr hr'
  · exact (stepRoundsFrom_pairwise arities round arityAcc acc cur).imp fun h => .inr (.inl h)
  · exact (stepRoundsFrom_pairwise arities round arityAcc acc cur).imp fun h => .inr (.inr h)

/-! ### Cells -/

/-- A cell of the query output, by what it holds. -/
inductive QueryCell
  | leaf (seg : PolySegment) (query column : ℕ)
  | initialSibling (seg : PolySegment) (query layer word : ℕ)
  | stepEval (round query word : ℕ)
  | stepSibling (round query layer word : ℕ)
  deriving DecidableEq, Repr

/-- The buffers of the query output. -/
inductive QueryBuffer
  | leaves (seg : PolySegment)
  | initialSiblings
  | stepEvaluations
  | stepSiblings
  deriving DecidableEq, Repr

def QueryCell.buffer : QueryCell → QueryBuffer
  | .leaf seg _ _ => .leaves seg
  | .initialSibling _ _ _ _ => .initialSiblings
  | .stepEval _ _ _ => .stepEvaluations
  | .stepSibling _ _ _ _ => .stepSiblings

/-- The number of a segment. -/
def PolySegment.index : PolySegment → ℕ
  | .constantsSigmas => 0
  | .wires => 1
  | .partialProducts => 2
  | .quotients => 3

namespace CommonCircuitData

variable (c : CommonCircuitData)

/-- The rounds of the circuit. -/
def stepRounds : List StepRound := stepRoundsFrom 0 0 0 c.numLayers c.reductionArityBits

/-- The lengths with which the setup allocates the query output. -/
def queryBufferLen : QueryBuffer → ℕ
  | .leaves seg => c.counts.count seg * c.numQueryRounds
  | .initialSiblings => 4 * 4 * c.numLayers * c.numQueryRounds
  | .stepEvaluations =>
    extensionDegree * c.assemblyConfig.friGeometry.aritySum * c.numQueryRounds
  | .stepSiblings => 4 * c.assemblyConfig.friGeometry.totalStepSiblings * c.numQueryRounds

/-- The kernels store the cell at offset `a` of its buffer. -/
def Writes : QueryCell → ℕ → Prop
  | .leaf seg query column, a =>
    ∃ ids, reduceIds (c.reduceBlocks (c.counts.count seg)) (u32 c.numQueryRounds)
        (u32 (c.counts.count seg)) = some ids ∧
      ∃ gId ∈ ids, gId % u32 c.numQueryRounds = query ∧ gId / u32 c.numQueryRounds = column ∧
        leafAddress (u32 (c.counts.count seg)) query column = a
  | .initialSibling seg query layer word, a =>
    ∃ ids, queryIds c.queryBlocks (u32 c.numQueryRounds) = some ids ∧ query ∈ ids ∧
      layer < c.numLayers ∧ word < 4 ∧
        seg.index * 4 * c.numLayers + initialSiblingAddress c.numLayers query layer word = a
  | .stepEval round query word, a =>
    ∃ ids, queryIds c.queryBlocks (u32 c.numQueryRounds) = some ids ∧ query ∈ ids ∧
      ∃ r ∈ c.stepRounds, r.round = round ∧
        ∃ numPolys, stepNumPolys (u32 r.arityBits) = some numPolys ∧ word < numPolys ∧
          stepEvalAddress (u32 c.assemblyConfig.friGeometry.aritySum) (u32 r.arityAcc) query
            word = a
  | .stepSibling round query layer word, a =>
    ∃ ids, queryIds c.queryBlocks (u32 c.numQueryRounds) = some ids ∧ query ∈ ids ∧
      ∃ r ∈ c.stepRounds, r.round = round ∧
        layer < u32 (r.currentStepSiblings + c.capHeight) - u32 c.capHeight ∧ word < 4 ∧
          stepSiblingAddress (u32 c.assemblyConfig.friGeometry.totalStepSiblings)
            (u32 r.accStepSiblings) query layer word = a

/-- Proof assembly reads the cell at offset `a` of its buffer. -/
def Reads : QueryCell → ℕ → Prop
  | .leaf seg query column, a =>
    query < c.numQueryRounds ∧ column < c.counts.count seg ∧
      query * c.counts.count seg + column = a
  | .initialSibling seg query layer word, a =>
    query < c.numQueryRounds ∧ layer < c.numLayers ∧ word < 4 ∧
      query * 4 * 4 * c.numLayers + seg.index * 4 * c.numLayers + 4 * layer + word = a
  | .stepEval round query word, a =>
    query < c.numQueryRounds ∧ ∃ r ∈ c.stepRounds, r.round = round ∧
      word < extensionDegree * 1 <<< r.arityBits ∧
        extensionDegree * (query * c.assemblyConfig.friGeometry.aritySum + r.arityAcc) + word = a
  | .stepSibling round query layer word, a =>
    query < c.numQueryRounds ∧ ∃ r ∈ c.stepRounds, r.round = round ∧
      layer < r.currentStepSiblings ∧ word < 4 ∧
        query * c.assemblyConfig.friGeometry.totalStepSiblings * 4 + r.accStepSiblings * 4 +
          4 * layer + word = a

end CommonCircuitData

/-! ### What assembly reads -/

/-- A loop over fallible steps that succeeds, step by step. -/
lemma mapM_range_eq_some {α : Type} {f : ℕ → Option α} {g : ℕ → α} {n : ℕ} {l : List α}
    (h : (List.range n).mapM f = some l) (hf : ∀ j y, f j = some y → y = g j) :
    l = (List.range n).map g := by
  have key : ∀ (xs : List ℕ) (l : List α), xs.mapM f = some l → l = xs.map g := by
    intro xs
    induction xs with
    | nil =>
      intro l h
      simpa using h.symm
    | cons x xs ih =>
      intro l h
      rw [List.mapM_cons] at h
      simp only [Option.bind_eq_bind, Option.pure_def, Option.bind_eq_some_iff,
        Option.some.injEq] at h
      obtain ⟨y, hy, ys, hys, rfl⟩ := h
      rw [List.map_cons, ih ys hys, hf x y hy]
  exact key _ _ h

lemma DeviceBuffer.hashAt_eq_some {b : DeviceBuffer F} {idx : ℕ} {hash : List F}
    (h : b.hashAt idx = some hash) : hash = (List.range 4).map fun w => b.cell (idx + w) := by
  unfold hashAt at h
  split_ifs at h
  cases h
  rfl

/-- A slice of the values of `f` on a range. -/
lemma sliceRange_of_range {α : Type} {n start stop : ℕ} (hle : start ≤ stop) (hstop : stop ≤ n)
    (f : ℕ → α) :
    sliceRange ((List.range n).map f) start stop =
      some ((List.range (stop - start)).map fun k => f (start + k)) := by
  rw [sliceRange, if_pos ⟨hle, by simpa using hstop⟩, Option.some.injEq]
  apply List.ext_getElem
  · simp
    omega
  · intro k hk hk'
    simp

lemma sliceRange_map_range {α : Type} {n start stop : ℕ} {f : ℕ → α} {l : List α}
    (h : sliceRange ((List.range n).map f) start stop = some l) :
    l = (List.range (stop - start)).map fun k => f (start + k) := by
  by_cases hle : start ≤ stop ∧ stop ≤ n
  · rw [sliceRange_of_range hle.1 hle.2, Option.some.injEq] at h
    exact h.symm
  · rw [sliceRange, if_neg (by simpa using hle)] at h
    cases h

/-- The leaf and the siblings of query `i` in tree `seg` are read from the cells of the query. -/
lemma ProofAssemblyBuffers.initialProof_reads {b : ProofAssemblyBuffers F} {c : PolyCounts}
    {cfg : ProofAssemblyConfig} {i : ℕ} {r : ℕ × PolySegment} {leaf : List F}
    {siblings : List (List F)} (h : b.initialProof c cfg i r = some (leaf, siblings)) :
    leaf = (List.range (c.count r.2)).map
        (fun p => (b.friInitialLeaves r.2).cell (i * c.count r.2 + p)) ∧
      siblings = (List.range (cfg.degreeBits + cfg.rateBits - cfg.capHeight)).map fun layer =>
        (List.range 4).map fun word => b.friInitialSiblings.cell
          (i * 4 * 4 * (cfg.degreeBits + cfg.rateBits - cfg.capHeight) +
            r.1 * 4 * (cfg.degreeBits + cfg.rateBits - cfg.capHeight) + 4 * layer + word) := by
  unfold initialProof at h
  simp only [Option.bind_eq_bind, Option.pure_def, Option.bind_eq_some_iff, Option.some.injEq,
    Prod.mk.injEq] at h
  obtain ⟨_, hsiblings, _, hleaf, rfl, rfl⟩ := h
  refine ⟨?_, mapM_range_eq_some hsiblings fun j y hy => DeviceBuffer.hashAt_eq_some hy⟩
  have := sliceRange_map_range hleaf
  rwa [Nat.succ_mul, Nat.add_sub_cancel_left] at this

/-- So are the evaluations and siblings of a round. -/
lemma ProofAssemblyBuffers.readStep_reads {b : ProofAssemblyBuffers F} {cfg : ProofAssemblyConfig}
    {i : ℕ} {r : StepRound} {step : FriQueryStep F} (h : b.readStep cfg i r = some step) :
    step.evals = (List.range (1 <<< r.arityBits)).map (fun k =>
        (b.friStepEvaluations.cell
          (extensionDegree * (i * cfg.friGeometry.aritySum + r.arityAcc) + 2 * k),
         b.friStepEvaluations.cell
          (extensionDegree * (i * cfg.friGeometry.aritySum + r.arityAcc) + (2 * k + 1)))) ∧
      step.merkleProof = (List.range r.currentStepSiblings).map fun layer =>
        (List.range 4).map fun word => b.friStepSiblings.cell
          (i * cfg.friGeometry.totalStepSiblings * 4 + r.accStepSiblings * 4 + 4 * layer +
            word) := by
  unfold readStep at h
  simp only [Option.bind_eq_bind, Option.pure_def, Option.bind_eq_some_iff, Option.some.injEq] at h
  obtain ⟨_, hsiblings, _, hevals, rfl⟩ := h
  refine ⟨?_, mapM_range_eq_some hsiblings fun j y hy => DeviceBuffer.hashAt_eq_some hy⟩
  have hslice := sliceRange_map_range hevals
  rw [Nat.add_sub_cancel_left] at hslice
  rw [hslice]
  apply List.map_congr_left
  intro k _
  simp only [extensionDegree, Nat.mul_add, Nat.add_assoc]

/-! ### Agreement -/

namespace PolyLayout

variable {c : CommonCircuitData} (layout : PolyLayout c)

/-- All launches are accepted, every cell is stored where it is read, no two cells of a buffer share
an offset, and all offsets lie in the buffers. -/
structure OffsetsAgree : Prop where
  launches : ∀ seg, (layout.nonLdePolynomialCount seg = 0 ∨ layout.SegLaunch seg) ∧
    RestLaunches c seg
  agree : ∀ cell a, c.Writes cell a ↔ c.Reads cell a
  disjoint : ∀ cell cell' a, cell.buffer = cell'.buffer → c.Writes cell a → c.Writes cell' a →
    cell = cell'
  inside : ∀ cell a, c.Writes cell a → a < c.queryBufferLen cell.buffer

/-- The sizes that fit the launches and the 32-bit offsets of the kernels. -/
structure OffsetsFit : Prop where
  queries_pos : 0 < c.numQueryRounds
  queries_lt : c.numQueryRounds < 2 ^ 31
  count_pos : ∀ seg, 0 < c.counts.count seg
  count_fits : ∀ seg, c.numQueryRounds * c.counts.count seg ≤ 2 ^ 32 - 32
  segments_fit : ∀ seg, c.numQueryRounds * layout.nonLdePolynomialCount seg < 2 ^ 31
  initialSiblings_fit : (c.numQueryRounds - 1) * (4 * 4 * c.numLayers) < 2 ^ 32
  evaluations_fit : ∀ r ∈ c.stepRounds, r.arityBits ≤ 30 ∧ r.arityAcc * 2 < 2 ^ 32 ∧
    (c.numQueryRounds - 1) * c.assemblyConfig.friGeometry.aritySum * 2 < 2 ^ 32
  stepSiblings_fit : ∀ r ∈ c.stepRounds, 0 < r.currentStepSiblings →
    r.accStepSiblings * 4 < 2 ^ 32 ∧
      (c.numQueryRounds - 1) * c.assemblyConfig.friGeometry.totalStepSiblings * 4 < 2 ^ 32

end PolyLayout

lemma u32_mul_u32 (q a k : ℕ) : u32 (q * u32 a * k) = u32 (q * a * k) := by
  simp [u32, Nat.mul_mod]

lemma u32_u32_mul (a k : ℕ) : u32 (u32 a * k) = u32 (a * k) := by
  simp [u32, Nat.mul_mod]

lemma u32_lt (a : ℕ) : u32 a < 2 ^ 32 := Nat.mod_lt _ (by norm_num)

/-- One thread for every query. -/
lemma queryIds_spec {n : ℕ} (hvalid : ValidLaunch 1 n 1) :
    ∃ ids, queryIds n n = some ids ∧ ∀ q, q ∈ ids ↔ q < n := by
  refine ⟨((threads 1 n 1).map fun th => th.x).filter fun gId => gId < n, ?_, ?_⟩
  · simp [queryIds, launch_of_valid hvalid, Except.toOption]
  · intro q
    simp only [List.mem_filter, List.mem_map, mem_threads, decide_eq_true_eq]
    constructor
    · rintro ⟨-, hq⟩
      exact hq
    · intro hq
      exact ⟨⟨⟨0, q, 0⟩, ⟨Nat.one_pos, hq, Nat.one_pos⟩, rfl⟩, hq⟩

namespace CommonCircuitData

variable (c : CommonCircuitData)

lemma numLayers_le : c.numLayers ≤ 32 := by
  have := c.lde_le
  unfold numLayers
  omega

lemma capHeight_le : c.capHeight ≤ 32 := by
  have := c.lde_le
  have := c.arities_le
  omega

variable {c} {r : StepRound}

lemma stepRounds_current_le (hr : r ∈ c.stepRounds) : r.currentStepSiblings ≤ 32 :=
  (stepRoundsFrom_mem hr).2.2.2.2.1.trans c.numLayers_le

lemma stepRounds_arityBits_le (hr : r ∈ c.stepRounds) : r.arityBits ≤ 32 := by
  have hmem := (stepRoundsFrom_mem hr).2.2.2.1
  have hsum := List.single_le_sum (fun _ _ => Nat.zero_le _) _ hmem
  have := c.arities_le
  have := c.lde_le
  omega

/-- The evaluations of a round lie in the part of a query. -/
lemma stepRounds_arityAcc_le (hr : r ∈ c.stepRounds) :
    r.arityAcc + 2 ^ r.arityBits ≤ c.assemblyConfig.friGeometry.aritySum := by
  have hend := (stepRoundsFrom_mem hr).2.2.2.2.2.1
  rw [(c.assemblyConfig.friGeometry_eq).1]
  rwa [Nat.zero_add] at hend

/-- So do the siblings. -/
lemma stepRounds_accStepSiblings_le (hr : r ∈ c.stepRounds) :
    r.accStepSiblings + r.currentStepSiblings ≤
      c.assemblyConfig.friGeometry.totalStepSiblings := by
  have hend := (stepRoundsFrom_mem hr).2.2.2.2.2.2
  rw [(c.assemblyConfig.friGeometry_eq).2.1]
  rwa [Nat.zero_add] at hend

/-- The layers that `fri_step` walks. -/
lemma stepRounds_layers (hr : r ∈ c.stepRounds) :
    u32 (r.currentStepSiblings + c.capHeight) - u32 c.capHeight = r.currentStepSiblings := by
  have hcur := stepRounds_current_le hr
  have hcap := c.capHeight_le
  rw [u32_of_lt (by omega), u32_of_lt (by omega)]
  omega

/-- A part of stride `s` of query `q` begins before `2 ^ 32` when the last one does. -/
lemma part_lt {q s : ℕ} (hq : q < c.numQueryRounds) (h : (c.numQueryRounds - 1) * s < 2 ^ 32) :
    q * s < 2 ^ 32 :=
  (Nat.mul_le_mul_right s (by omega)).trans_lt h

end CommonCircuitData

/-! ### What is read is disjoint -/

namespace CommonCircuitData

variable {c : CommonCircuitData}

lemma segment_index_lt (seg : PolySegment) : seg.index < 4 := by
  cases seg <;> decide

lemma segment_index_inj {seg seg' : PolySegment} (h : seg.index = seg'.index) :
    seg = seg' := by
  cases seg <;> cases seg' <;> first | rfl | exact absurd h (by decide)

/-- The offset of an evaluation in the part of its query. -/
lemma stepEval_part {r : StepRound} (hr : r ∈ c.stepRounds) {word : ℕ}
    (hword : word < extensionDegree * 1 <<< r.arityBits) :
    2 * r.arityAcc + word < 2 * c.assemblyConfig.friGeometry.aritySum := by
  have := stepRounds_arityAcc_le hr
  rw [Nat.one_shiftLeft, extensionDegree] at hword
  omega

/-- The offset of a sibling in the part of its query. -/
lemma stepSibling_part {r : StepRound} (hr : r ∈ c.stepRounds) {layer word : ℕ}
    (hlayer : layer < r.currentStepSiblings) (hword : word < 4) :
    4 * r.accStepSiblings + 4 * layer + word <
      4 * c.assemblyConfig.friGeometry.totalStepSiblings := by
  have := stepRounds_accStepSiblings_le hr
  omega

/-- An offset is read for one cell only. -/
lemma reads_inj {cell cell' : QueryCell} {a : ℕ} (hbuffer : cell.buffer = cell'.buffer)
    (h : c.Reads cell a) (h' : c.Reads cell' a) : cell = cell' := by
  cases cell with
  | leaf seg query column =>
    cases cell' with
    | leaf seg' query' column' =>
      obtain rfl : seg = seg' := by simpa [QueryCell.buffer] using hbuffer
      obtain ⟨-, hcolumn, heq⟩ := h
      obtain ⟨-, hcolumn', heq'⟩ := h'
      obtain ⟨rfl, rfl⟩ := Scatter.stride_inj hcolumn hcolumn'
        (j := query) (by rw [Nat.add_comm, heq, ← heq', Nat.add_comm])
      rfl
    | _ => simp [QueryCell.buffer] at hbuffer
  | initialSibling seg query layer word =>
    cases cell' with
    | initialSibling seg' query' layer' word' =>
      obtain ⟨-, hlayer, hword, heq⟩ := h
      obtain ⟨-, hlayer', hword', heq'⟩ := h'
      have hsplit : ∀ q s l w : ℕ, q * 4 * 4 * c.numLayers + s * 4 * c.numLayers + 4 * l + w =
          w + (l + (s + q * 4) * c.numLayers) * 4 := by
        intro q s l w
        ring
      rw [hsplit] at heq heq'
      obtain ⟨rfl, hlayers⟩ := Scatter.stride_inj hword hword' (heq.trans heq'.symm)
      obtain ⟨rfl, hparts⟩ := Scatter.stride_inj hlayer hlayer' hlayers
      obtain ⟨hseg, rfl⟩ := Scatter.stride_inj (segment_index_lt seg)
        (segment_index_lt seg') hparts
      rw [segment_index_inj hseg]
    | _ => simp [QueryCell.buffer] at hbuffer
  | stepEval round query word =>
    cases cell' with
    | stepEval round' query' word' =>
      obtain ⟨-, r, hr, rfl, hword, heq⟩ := h
      obtain ⟨-, r', hr', rfl, hword', heq'⟩ := h'
      have hsplit : ∀ q acc w : ℕ,
          extensionDegree * (q * c.assemblyConfig.friGeometry.aritySum + acc) + w =
            (2 * acc + w) + q * (2 * c.assemblyConfig.friGeometry.aritySum) := by
        intro q acc w
        unfold extensionDegree
        ring
      rw [hsplit] at heq heq'
      obtain ⟨hpart, rfl⟩ := Scatter.stride_inj (stepEval_part hr hword)
        (stepEval_part hr' hword') (heq.trans heq'.symm)
      rw [Nat.one_shiftLeft, extensionDegree] at hword hword'
      -- the parts of two rounds do not meet
      rcases stepRoundsFrom_trichotomy hr hr' with rfl | ⟨-, hbefore, -⟩ | ⟨-, hbefore, -⟩
      · obtain rfl : word = word' := by omega
        rfl
      · omega
      · omega
    | _ => simp [QueryCell.buffer] at hbuffer
  | stepSibling round query layer word =>
    cases cell' with
    | stepSibling round' query' layer' word' =>
      obtain ⟨-, r, hr, rfl, hlayer, hword, heq⟩ := h
      obtain ⟨-, r', hr', rfl, hlayer', hword', heq'⟩ := h'
      have hsplit : ∀ q acc l w : ℕ,
          q * c.assemblyConfig.friGeometry.totalStepSiblings * 4 + acc * 4 + 4 * l + w =
            (4 * acc + 4 * l + w) + q * (4 * c.assemblyConfig.friGeometry.totalStepSiblings) := by
        intro q acc l w
        ring
      rw [hsplit] at heq heq'
      obtain ⟨hpart, rfl⟩ := Scatter.stride_inj (stepSibling_part hr hlayer hword)
        (stepSibling_part hr' hlayer' hword') (heq.trans heq'.symm)
      rcases stepRoundsFrom_trichotomy hr hr' with rfl | ⟨-, -, hbefore⟩ | ⟨-, -, hbefore⟩
      · obtain ⟨rfl, rfl⟩ : layer = layer' ∧ word = word' := by omega
        rfl
      · omega
      · omega
    | _ => simp [QueryCell.buffer] at hbuffer

/-- The part of a query ends inside its buffer. -/
lemma part_inside {q n o : ℕ} (hq : q < c.numQueryRounds) (ho : o < n) :
    o + q * n < n * c.numQueryRounds := by
  calc o + q * n < (q + 1) * n := by rw [Nat.succ_mul]; omega
    _ ≤ c.numQueryRounds * n := Nat.mul_le_mul_right _ hq
    _ = n * c.numQueryRounds := Nat.mul_comm _ _

/-- Everything that is read lies in its buffer. -/
lemma reads_inside {cell : QueryCell} {a : ℕ} (h : c.Reads cell a) :
    a < c.queryBufferLen cell.buffer := by
  cases cell with
  | leaf seg query column =>
    obtain ⟨hquery, hcolumn, rfl⟩ := h
    have := part_inside hquery hcolumn
    rwa [Nat.add_comm] at this
  | initialSibling seg query layer word =>
    obtain ⟨hquery, hlayer, hword, rfl⟩ := h
    have hseg := Nat.mul_le_mul_right (4 * c.numLayers)
      (Nat.le_of_lt_succ (segment_index_lt seg))
    have hpart : seg.index * (4 * c.numLayers) + 4 * layer + word < 4 * 4 * c.numLayers := by
      omega
    have := part_inside hquery hpart
    have hsplit : query * 4 * 4 * c.numLayers + seg.index * 4 * c.numLayers + 4 * layer + word =
        seg.index * (4 * c.numLayers) + 4 * layer + word + query * (4 * 4 * c.numLayers) := by
      ring
    rwa [← hsplit] at this
  | stepEval round query word =>
    obtain ⟨hquery, r, hr, -, hword, rfl⟩ := h
    have := part_inside hquery (stepEval_part hr hword)
    have hsplit : extensionDegree * (query * c.assemblyConfig.friGeometry.aritySum + r.arityAcc) +
        word = 2 * r.arityAcc + word + query * (2 * c.assemblyConfig.friGeometry.aritySum) := by
      unfold extensionDegree
      ring
    rwa [← hsplit] at this
  | stepSibling round query layer word =>
    obtain ⟨hquery, r, hr, -, hlayer, hword, rfl⟩ := h
    have := part_inside hquery (stepSibling_part hr hlayer hword)
    have hsplit : query * c.assemblyConfig.friGeometry.totalStepSiblings * 4 +
        r.accStepSiblings * 4 + 4 * layer + word = 4 * r.accStepSiblings + 4 * layer + word +
          query * (4 * c.assemblyConfig.friGeometry.totalStepSiblings) := by
      ring
    rwa [← hsplit] at this

end CommonCircuitData

/-! ### The condition -/

namespace PolyLayout.OffsetsFit

variable {c : CommonCircuitData} {layout : PolyLayout c} (hfit : layout.OffsetsFit)

include hfit

lemma queries_eq : u32 c.numQueryRounds = c.numQueryRounds :=
  u32_of_lt (by have := hfit.queries_lt; omega)

lemma queryLaunch : ValidLaunch 1 c.queryBlocks 1 := by
  unfold CommonCircuitData.queryBlocks
  rw [hfit.queries_eq]
  exact ⟨by decide, ⟨hfit.queries_pos, hfit.queries_lt⟩, by decide, by decide⟩

/-- The queries of the kernels with one thread for each. -/
lemma queryIds_eq :
    ∃ ids, queryIds c.queryBlocks (u32 c.numQueryRounds) = some ids ∧
      ∀ q, q ∈ ids ↔ q < c.numQueryRounds := by
  obtain ⟨ids, hids, hmem⟩ := queryIds_spec hfit.queryLaunch
  refine ⟨ids, hids, ?_⟩
  intro q
  rw [hmem, CommonCircuitData.queryBlocks, hfit.queries_eq]

/-- The leaves of the queries. -/
lemma writes_leaf_iff (seg : PolySegment) (query column a : ℕ) :
    c.Writes (.leaf seg query column) a ↔ c.Reads (.leaf seg query column) a := by
  have hcount := hfit.count_fits seg
  have hpos := Nat.mul_pos hfit.queries_pos (hfit.count_pos seg)
  have hle := Nat.le_mul_of_pos_left (c.counts.count seg) hfit.queries_pos
  obtain ⟨ids, hids, hmem⟩ := reduceIds_spec hpos hcount
  have hcell : ∀ q < c.numQueryRounds, ∀ p < c.counts.count seg,
      q * c.counts.count seg + p < c.numQueryRounds * c.counts.count seg := by
    intro q hq p hp
    calc q * c.counts.count seg + p < (q + 1) * c.counts.count seg := by rw [Nat.succ_mul]; omega
      _ ≤ c.numQueryRounds * c.counts.count seg := Nat.mul_le_mul_right _ hq
  simp only [CommonCircuitData.Writes, CommonCircuitData.Reads, hfit.queries_eq,
    u32_of_lt (show c.counts.count seg < 2 ^ 32 by omega), CommonCircuitData.reduceBlocks, hids,
    Option.some.injEq, exists_eq_left', leafAddress]
  constructor
  · rintro ⟨gId, hgId, rfl, rfl, rfl⟩
    have hquery := Nat.mod_lt gId hfit.queries_pos
    have hcolumn : gId / c.numQueryRounds < c.counts.count seg :=
      Nat.div_lt_of_lt_mul ((hmem gId).mp hgId)
    refine ⟨hquery, hcolumn, ?_⟩
    rw [u32_of_lt (by have := hcell _ hquery _ hcolumn; omega)]
  · rintro ⟨hquery, hcolumn, rfl⟩
    have hlt : column * c.numQueryRounds + query < c.numQueryRounds * c.counts.count seg := by
      calc column * c.numQueryRounds + query < (column + 1) * c.numQueryRounds := by
            rw [Nat.succ_mul]; omega
        _ ≤ c.counts.count seg * c.numQueryRounds := Nat.mul_le_mul_right _ hcolumn
        _ = c.numQueryRounds * c.counts.count seg := Nat.mul_comm _ _
    refine ⟨column * c.numQueryRounds + query, (hmem _).mpr hlt, ?_, ?_, ?_⟩
    · rw [Nat.mul_comm, Nat.mul_add_mod, Nat.mod_eq_of_lt hquery]
    · rw [Nat.mul_comm, Nat.mul_add_div hfit.queries_pos, Nat.div_eq_of_lt hquery, Nat.add_zero]
    · rw [u32_of_lt (by have := hcell query hquery column hcolumn; omega)]

/-- The siblings in the initial trees. -/
lemma writes_initialSibling_iff (seg : PolySegment) (query layer word a : ℕ) :
    c.Writes (.initialSibling seg query layer word) a ↔
      c.Reads (.initialSibling seg query layer word) a := by
  obtain ⟨ids, hids, hmem⟩ := hfit.queryIds_eq
  simp only [CommonCircuitData.Writes, CommonCircuitData.Reads, hids, Option.some.injEq,
    exists_eq_left', hmem]
  refine and_congr_right fun hquery => and_congr_right fun hlayer => and_congr_right fun hword => ?_
  have hlayers := c.numLayers_le
  have hpart := CommonCircuitData.part_lt hquery hfit.initialSiblings_fit
  have hassoc : query * 4 * 4 * c.numLayers = query * (4 * 4 * c.numLayers) := by ring
  rw [initialSiblingAddress, u32_of_lt (x := 4 * 4 * c.numLayers) (by omega), u32_of_lt hpart,
    u32_of_lt (by omega), hassoc]
  constructor <;> intro h <;> omega

/-- The evaluations of the folding rounds. -/
lemma writes_stepEval_iff (round query word a : ℕ) :
    c.Writes (.stepEval round query word) a ↔ c.Reads (.stepEval round query word) a := by
  obtain ⟨ids, hids, hmem⟩ := hfit.queryIds_eq
  simp only [CommonCircuitData.Writes, CommonCircuitData.Reads, hids, Option.some.injEq,
    exists_eq_left', hmem]
  refine and_congr_right fun hquery => exists_congr fun r => and_congr_right fun hr =>
    and_congr_right fun _ => ?_
  obtain ⟨hbits, hacc, hsum⟩ := hfit.evaluations_fit r hr
  have hpow : 2 ^ r.arityBits ≤ 2 ^ 30 := Nat.pow_le_pow_right (by norm_num) hbits
  have hpolys : stepNumPolys (u32 r.arityBits) = some (extensionDegree * 1 <<< r.arityBits) := by
    rw [u32_of_lt (by omega), stepNumPolys, if_pos (by omega), Nat.shiftLeft_eq, Nat.shiftLeft_eq,
      one_mul, u32_of_lt (by omega)]
    rfl
  rw [Nat.mul_assoc] at hsum
  have hpart := CommonCircuitData.part_lt hquery hsum
  rw [← Nat.mul_assoc] at hpart
  have haddr : stepEvalAddress (u32 c.assemblyConfig.friGeometry.aritySum) (u32 r.arityAcc) query
      word = extensionDegree * (query * c.assemblyConfig.friGeometry.aritySum + r.arityAcc) +
        word := by
    rw [stepEvalAddress, u32_mul_u32, u32_u32_mul, u32_of_lt hpart, u32_of_lt hacc,
      extensionDegree]
    omega
  simp only [hpolys, Option.some.injEq, exists_eq_left', haddr]

/-- The siblings of the folding rounds. -/
lemma writes_stepSibling_iff (round query layer word a : ℕ) :
    c.Writes (.stepSibling round query layer word) a ↔
      c.Reads (.stepSibling round query layer word) a := by
  obtain ⟨ids, hids, hmem⟩ := hfit.queryIds_eq
  simp only [CommonCircuitData.Writes, CommonCircuitData.Reads, hids, Option.some.injEq,
    exists_eq_left', hmem]
  refine and_congr_right fun hquery => exists_congr fun r => and_congr_right fun hr =>
    and_congr_right fun _ => ?_
  rw [CommonCircuitData.stepRounds_layers hr]
  refine and_congr_right fun hlayer => and_congr_right fun hword => ?_
  obtain ⟨hacc, htotal⟩ := hfit.stepSiblings_fit r hr (by omega)
  have hcur := CommonCircuitData.stepRounds_current_le hr
  rw [Nat.mul_assoc] at htotal
  have hpart := CommonCircuitData.part_lt hquery htotal
  rw [← Nat.mul_assoc] at hpart
  rw [stepSiblingAddress, u32_mul_u32, u32_u32_mul, u32_of_lt hpart, u32_of_lt hacc,
    u32_of_lt (by omega)]
  constructor <;> intro h <;> omega

/-- Every cell is stored where it is read. -/
lemma writes_iff_reads (cell : QueryCell) (a : ℕ) : c.Writes cell a ↔ c.Reads cell a := by
  cases cell with
  | leaf seg query column => exact hfit.writes_leaf_iff seg query column a
  | initialSibling seg query layer word =>
    exact hfit.writes_initialSibling_iff seg query layer word a
  | stepEval round query word => exact hfit.writes_stepEval_iff round query word a
  | stepSibling round query layer word => exact hfit.writes_stepSibling_iff round query layer word a

lemma launches (seg : PolySegment) :
    (layout.nonLdePolynomialCount seg = 0 ∨ layout.SegLaunch seg) ∧ RestLaunches c seg := by
  have hcount := hfit.count_fits seg
  have hpos := Nat.mul_pos hfit.queries_pos (hfit.count_pos seg)
  have hsegments := hfit.segments_fit seg
  refine ⟨?_, ?_, hfit.queryLaunch⟩
  · rcases Nat.eq_zero_or_pos (layout.nonLdePolynomialCount seg) with hn | hn
    · exact .inl hn
    · refine .inr ⟨hn, by decide, ?_, by decide, by decide⟩
      rw [CommonCircuitData.segBlocks, u32_of_lt (by omega)]
      exact ⟨Nat.mul_pos hfit.queries_pos hn, hsegments⟩
  · refine ⟨by decide, ?_, by decide, by decide⟩
    rw [CommonCircuitData.reduceBlocks, u32_of_lt (x := c.numQueryRounds * c.counts.count seg)
      (by omega), u32_of_lt (by omega)]
    omega

lemma offsetsAgree : layout.OffsetsAgree where
  launches := hfit.launches
  agree := hfit.writes_iff_reads
  disjoint := by
    intro cell cell' a hbuffer h h'
    exact CommonCircuitData.reads_inj hbuffer ((hfit.writes_iff_reads cell a).mp h)
      ((hfit.writes_iff_reads cell' a).mp h')
  inside := by
    intro cell a h
    exact CommonCircuitData.reads_inside ((hfit.writes_iff_reads cell a).mp h)

end PolyLayout.OffsetsFit

namespace PolyLayout.OffsetsAgree

variable {c : CommonCircuitData} {layout : PolyLayout c} (hagree : layout.OffsetsAgree)

include hagree

lemma queries_count_pos (seg : PolySegment) : 0 < c.numQueryRounds * c.counts.count seg := by
  have hvalid := (hagree.launches seg).2.1.2.1.1
  rw [CommonCircuitData.reduceBlocks] at hvalid
  apply Nat.pos_of_ne_zero
  intro hzero
  rw [hzero] at hvalid
  exact absurd hvalid (by decide)

lemma queries_pos : 0 < c.numQueryRounds :=
  Nat.pos_of_mul_pos_right (hagree.queries_count_pos .wires)

/-- The last cell of the leaves has a 32-bit offset, and the launch covers it. -/
lemma count_fits (seg : PolySegment) :
    c.numQueryRounds * c.counts.count seg ≤ 2 ^ 32 - 32 := by
  have hpos := hagree.queries_count_pos seg
  have hqueries := hagree.queries_pos
  have hcount : 0 < c.counts.count seg := Nat.pos_of_mul_pos_left hpos
  have hlast : (c.numQueryRounds - 1) * c.counts.count seg + (c.counts.count seg - 1) =
      c.numQueryRounds * c.counts.count seg - 1 := by
    obtain ⟨n, hn⟩ : ∃ n, c.numQueryRounds = n + 1 := ⟨c.numQueryRounds - 1, by omega⟩
    rw [hn, Nat.add_sub_cancel, Nat.succ_mul]
    omega
  obtain ⟨ids, hids, gId, hgId, -, -, haddr⟩ := (hagree.agree (.leaf seg (c.numQueryRounds - 1)
    (c.counts.count seg - 1)) _).mpr ⟨by omega, by omega, hlast⟩
  have hlt : c.numQueryRounds * c.counts.count seg - 1 < 2 ^ 32 := by
    rw [← haddr]
    exact u32_lt _
  have hvalid := (hagree.launches seg).2.1.2.1.1
  rw [CommonCircuitData.reduceBlocks] at hvalid
  by_contra hlarge
  unfold u32 at hvalid
  omega

lemma queries_eq : u32 c.numQueryRounds = c.numQueryRounds := by
  have hcount : 0 < c.counts.count .wires :=
    Nat.pos_of_mul_pos_left (hagree.queries_count_pos .wires)
  have hle := Nat.le_mul_of_pos_right c.numQueryRounds hcount
  have hfits := hagree.count_fits .wires
  exact u32_of_lt (by omega)

lemma queries_lt : c.numQueryRounds < 2 ^ 31 := by
  have hvalid := (hagree.launches .wires).2.2.2.1.2
  rwa [CommonCircuitData.queryBlocks, hagree.queries_eq] at hvalid

lemma segments_fit (seg : PolySegment) :
    c.numQueryRounds * layout.nonLdePolynomialCount seg < 2 ^ 31 := by
  rcases (hagree.launches seg).1 with hzero | ⟨hn, hvalid⟩
  · rw [hzero]
    norm_num
  · have hle : c.numQueryRounds * layout.nonLdePolynomialCount seg ≤
        c.numQueryRounds * c.counts.count seg := Nat.mul_le_mul_left _ (Nat.sub_le _ _)
    have hcount := hagree.count_fits seg
    have hlt := hvalid.2.1.2
    rwa [CommonCircuitData.segBlocks, u32_of_lt (by omega)] at hlt

lemma initialSiblings_fit : (c.numQueryRounds - 1) * (4 * 4 * c.numLayers) < 2 ^ 32 := by
  rcases Nat.eq_zero_or_pos c.numLayers with hzero | hpos
  · rw [hzero]
    norm_num
  · have hqueries := hagree.queries_pos
    have hlayers := c.numLayers_le
    obtain ⟨ids, -, -, -, -, haddr⟩ := (hagree.agree
      (.initialSibling .constantsSigmas (c.numQueryRounds - 1) 0 0) _).mpr
        ⟨by omega, hpos, by norm_num, rfl⟩
    have hassoc : (c.numQueryRounds - 1) * 4 * 4 * c.numLayers =
        (c.numQueryRounds - 1) * (4 * 4 * c.numLayers) := by ring
    simp only [PolySegment.index, initialSiblingAddress, Nat.zero_mul, Nat.mul_zero, Nat.add_zero,
      Nat.zero_add, hassoc, u32_of_lt (show 4 * 4 * c.numLayers < 2 ^ 32 by omega)] at haddr
    have hlt := u32_lt ((c.numQueryRounds - 1) * (4 * 4 * c.numLayers))
    have hzero : u32 0 = 0 := rfl
    omega

omit hagree in
lemma stepRounds_round_inj {r r' : StepRound} (hr : r ∈ c.stepRounds) (hr' : r' ∈ c.stepRounds)
    (h : r'.round = r.round) : r' = r := by
  rcases stepRoundsFrom_trichotomy hr hr' with rfl | ⟨hlt, -⟩ | ⟨hlt, -⟩
  · rfl
  · omega
  · omega

/-- The first word of a round is stored for every query, at its offset in 32 bits. -/
lemma stepEval_first {r : StepRound} (hr : r ∈ c.stepRounds) {query : ℕ}
    (hquery : query < c.numQueryRounds) :
    r.arityBits < 31 ∧ u32 (query * c.assemblyConfig.friGeometry.aritySum * 2) +
      u32 (r.arityAcc * 2) =
        2 * (query * c.assemblyConfig.friGeometry.aritySum + r.arityAcc) := by
  have hpos : 0 < extensionDegree * 1 <<< r.arityBits := by
    rw [Nat.one_shiftLeft]
    exact Nat.mul_pos (by decide) (by positivity)
  obtain ⟨ids, -, -, r', hr', hround, numPolys, hpolys, hword, haddr⟩ :=
    (hagree.agree (.stepEval r.round query 0) _).mpr ⟨hquery, r, hr, rfl, hpos, rfl⟩
  obtain rfl := stepRounds_round_inj hr hr' hround
  have hbits := CommonCircuitData.stepRounds_arityBits_le hr
  constructor
  · by_contra hge
    rw [u32_of_lt (by omega)] at hpolys
    obtain heq | heq : r'.arityBits = 31 ∨ r'.arityBits = 32 := by omega
    · have hnone : stepNumPolys 31 = some 0 := rfl
      rw [heq, hnone, Option.some.injEq] at hpolys
      omega
    · have hundefined : stepNumPolys 32 = none := rfl
      rw [heq, hundefined] at hpolys
      cases hpolys
  · rw [stepEvalAddress, u32_mul_u32, u32_u32_mul] at haddr
    exact haddr

/-- So is the first sibling of a round that has some. -/
lemma stepSibling_first {r : StepRound} (hr : r ∈ c.stepRounds) (hcur : 0 < r.currentStepSiblings)
    {query : ℕ} (hquery : query < c.numQueryRounds) :
    u32 (query * c.assemblyConfig.friGeometry.totalStepSiblings * 4) +
      u32 (r.accStepSiblings * 4) =
        query * c.assemblyConfig.friGeometry.totalStepSiblings * 4 + r.accStepSiblings * 4 := by
  obtain ⟨ids, -, -, r', hr', hround, -, -, haddr⟩ :=
    (hagree.agree (.stepSibling r.round query 0 0) _).mpr
      ⟨hquery, r, hr, rfl, hcur, by norm_num, rfl⟩
  obtain rfl := stepRounds_round_inj hr hr' hround
  rw [stepSiblingAddress, u32_mul_u32, u32_u32_mul] at haddr
  exact haddr

lemma evaluations_fit {r : StepRound} (hr : r ∈ c.stepRounds) :
    r.arityBits ≤ 30 ∧ r.arityAcc * 2 < 2 ^ 32 ∧
      (c.numQueryRounds - 1) * c.assemblyConfig.friGeometry.aritySum * 2 < 2 ^ 32 := by
  have hqueries := hagree.queries_pos
  obtain ⟨hbits, hfirst⟩ := hagree.stepEval_first hr hqueries
  obtain ⟨-, hlast⟩ := hagree.stepEval_first hr (Nat.sub_lt hqueries Nat.one_pos)
  have hacc := u32_lt (r.arityAcc * 2)
  have hpart := u32_lt ((c.numQueryRounds - 1) * c.assemblyConfig.friGeometry.aritySum * 2)
  have hzero : u32 0 = 0 := rfl
  rw [Nat.zero_mul, Nat.zero_mul, hzero] at hfirst
  refine ⟨by omega, by omega, ?_⟩
  rw [Nat.mul_add] at hlast
  omega

lemma stepSiblings_fit {r : StepRound} (hr : r ∈ c.stepRounds) (hcur : 0 < r.currentStepSiblings) :
    r.accStepSiblings * 4 < 2 ^ 32 ∧
      (c.numQueryRounds - 1) * c.assemblyConfig.friGeometry.totalStepSiblings * 4 < 2 ^ 32 := by
  have hqueries := hagree.queries_pos
  have hfirst := hagree.stepSibling_first hr hcur hqueries
  have hlast := hagree.stepSibling_first hr hcur (Nat.sub_lt hqueries Nat.one_pos)
  have hacc := u32_lt (r.accStepSiblings * 4)
  have hpart := u32_lt
    ((c.numQueryRounds - 1) * c.assemblyConfig.friGeometry.totalStepSiblings * 4)
  have hzero : u32 0 = 0 := rfl
  rw [Nat.zero_mul, Nat.zero_mul, hzero] at hfirst
  exact ⟨by omega, by omega⟩

lemma offsetsFit : layout.OffsetsFit where
  queries_pos := hagree.queries_pos
  queries_lt := hagree.queries_lt
  count_pos := fun seg => Nat.pos_of_mul_pos_left (hagree.queries_count_pos seg)
  count_fits := hagree.count_fits
  segments_fit := hagree.segments_fit
  initialSiblings_fit := hagree.initialSiblings_fit
  evaluations_fit := fun _ hr => hagree.evaluations_fit hr
  stepSiblings_fit := fun _ hr hcur => hagree.stepSiblings_fit hr hcur

end PolyLayout.OffsetsAgree

/-- `2 ^ 27 + 1` queries with 16 evaluations each. -/
def manyQueries : CommonCircuitData where
  numWires := 135
  numRoutedWires := 80
  numChallenges := 2
  maxQuotientDegreeFactor := 8
  zeroKnowledge := false
  rateBits := 3
  capHeight := 4
  numQueryRounds := 2 ^ 27 + 1
  degreeBits := 12
  reductionArityBits := [4]
  numConstants := 4
  numPublicInputs := 4
  numLookupPolys := 0
  arities_le := by decide
  quotientDegree_pow := standardQuotientDegree
  four_le_routed := standardRoutedWires
  lde_le := standardLde

end MegaZK
