import MegaZK.Query.Basic

/-! # The partial sums of the queries

`fri_initial_leaves_seg` stores the partial sums of all four oracles in one buffer, whose length
the setup takes from the number of wires. -/

namespace MegaZK

open Grid

/-! ### One launch -/

lemma segThreads_of_valid {blocks numQuerys numPolys : ℕ} (hvalid : ValidLaunch 1 blocks tileO)
    (hblocks : u32 (numQuerys * numPolys) = blocks) :
    segThreads blocks numQuerys numPolys = some (threads 1 blocks tileO) := by
  have hall : ((threads 1 blocks tileO).filter fun th => th.x < blocks) =
      threads 1 blocks tileO := by
    rw [List.filter_eq_self]
    intro th hth
    simpa using (mem_threads.mp hth).2.1
  simp [segThreads, launch_of_valid hvalid, Except.toOption, hblocks, hall]

/-- The addresses of one launch are all numbers below its size, and below `2 ^ 32`. -/
lemma segThreads_forall_lt_iff {blocks numQuerys numPolys : ℕ} (hvalid : ValidLaunch 1 blocks tileO)
    (hblocks : u32 (numQuerys * numPolys) = blocks) (len : ℕ) :
    (∀ ths, segThreads blocks numQuerys numPolys = some ths → ∀ th ∈ ths, segAddress th < len) ↔
      min (blocks * tileO) (2 ^ 32) ≤ len := by
  have hths := segThreads_of_valid hvalid hblocks
  have hpos : 0 < blocks * tileO := Nat.mul_pos hvalid.2.1.1 (by decide)
  constructor
  · intro h
    -- the last number below both bounds has a thread
    obtain ⟨th, hth, hflat⟩ := exists_flat_eq 1 blocks tileO
      (n := min (blocks * tileO) (2 ^ 32) - 1) (by rw [Nat.one_mul]; omega)
    have hlt := h _ hths th hth
    have haddr : segAddress th = min (blocks * tileO) (2 ^ 32) - 1 := by
      obtain hy : th.y = 0 := Nat.lt_one_iff.mp (mem_threads.mp hth).1
      rw [Thread.flat, hy, Nat.zero_mul, Nat.zero_add] at hflat
      rw [segAddress, hflat, u32_of_lt (by omega)]
    omega
  · intro hlen ths hsome th hth
    rw [hths, Option.some.injEq] at hsome
    subst hsome
    obtain ⟨-, hx, ht⟩ := mem_threads.mp hth
    have hflat : th.x * tileO + th.t < blocks * tileO := by
      calc th.x * tileO + th.t < (th.x + 1) * tileO := by rw [Nat.succ_mul]; omega
        _ ≤ blocks * tileO := Nat.mul_le_mul_right _ hx
    have hle : segAddress th ≤ th.x * tileO + th.t := Nat.mod_le _ _
    have hword : segAddress th < 2 ^ 32 := Nat.mod_lt _ (by norm_num)
    omega

/-- A refused launch stores nothing. -/
lemma segThreads_of_not_valid {blocks : ℕ} (h : ¬ ValidLaunch 1 blocks tileO)
    (numQuerys numPolys : ℕ) : segThreads blocks numQuerys numPolys = none := by
  simp [segThreads, launch, if_neg h, Except.toOption]

/-! ### The loop over the oracles -/

namespace PolyLayout

variable {c : CommonCircuitData} (layout : PolyLayout c)

/-- The threads of the round of `seg` that store partial sums; without columns to evaluate there is
no launch. -/
def segStores (seg : PolySegment) : Option (List Thread) :=
  let n := layout.nonLdePolynomialCount seg
  if 0 < n then segThreads (c.segBlocks n) (u32 c.numQueryRounds) (u32 n) else some []

/-- The other two launches of a round are accepted. -/
def RestLaunches (c : CommonCircuitData) (seg : PolySegment) : Prop :=
  ValidLaunch 1 (c.reduceBlocks (c.counts.count seg)) 32 ∧ ValidLaunch 1 c.queryBlocks 1

instance (seg : PolySegment) : Decidable (RestLaunches c seg) := by
  unfold RestLaunches
  infer_instance

/-- The addresses that the loop of `initial_proofs` stores partial sums to. A refused launch is
unwrapped and ends the loop. -/
def segWritesFrom : List PolySegment → List ℕ
  | [] => []
  | seg :: rest =>
    match layout.segStores seg with
    | none => []
    | some ths =>
      ths.map segAddress ++ if RestLaunches c seg then segWritesFrom rest else []

/-- All addresses of the partial sums. -/
def segWrites : List ℕ := layout.segWritesFrom PolySegment.all

/-- The launch for the columns of `seg` that are not resident is accepted. -/
def SegLaunch (seg : PolySegment) : Prop :=
  let n := layout.nonLdePolynomialCount seg
  0 < n ∧ ValidLaunch 1 (c.segBlocks n) tileO

/-- The partial sums of `seg` fit the buffer. -/
def SegFits (seg : PolySegment) : Prop :=
  min (c.segBlocks (layout.nonLdePolynomialCount seg) * tileO) (2 ^ 32) ≤ c.friBufLen

/-- Every launch that the loop gets to fits the buffer. -/
def ScratchFitsFrom : List PolySegment → Prop
  | [] => True
  | seg :: rest =>
    (layout.SegLaunch seg → layout.SegFits seg) ∧
      ((layout.nonLdePolynomialCount seg = 0 ∨ layout.SegLaunch seg) → RestLaunches c seg →
        ScratchFitsFrom rest)

/-- Every launch of the four oracles that is reached fits the buffer. -/
def ScratchFits : Prop := layout.ScratchFitsFrom PolySegment.all

lemma segBlocks_eq (n : ℕ) : u32 (u32 c.numQueryRounds * u32 n) = c.segBlocks n := by
  simp [u32, CommonCircuitData.segBlocks, Nat.mul_mod]

/-- One round: what is stored stays in the buffer exactly when its launch fits. -/
lemma segStores_forall_lt_iff (seg : PolySegment) :
    (∀ ths, layout.segStores seg = some ths → ∀ th ∈ ths, segAddress th < c.friBufLen) ↔
      (layout.SegLaunch seg → layout.SegFits seg) := by
  unfold segStores SegLaunch SegFits
  dsimp only
  by_cases hn : 0 < layout.nonLdePolynomialCount seg
  · simp only [hn, true_and, if_true]
    by_cases hvalid : ValidLaunch 1 (c.segBlocks (layout.nonLdePolynomialCount seg)) tileO
    · rw [segThreads_forall_lt_iff hvalid (segBlocks_eq _)]
      simp [hvalid]
    · simp [segThreads_of_not_valid hvalid, hvalid]
  · simp [hn]

lemma segStores_isSome_iff (seg : PolySegment) :
    (layout.segStores seg).isSome ↔
      layout.nonLdePolynomialCount seg = 0 ∨ layout.SegLaunch seg := by
  unfold segStores SegLaunch
  dsimp only
  by_cases hn : 0 < layout.nonLdePolynomialCount seg
  · simp only [hn, true_and, hn.ne', false_or, if_true]
    by_cases hvalid : ValidLaunch 1 (c.segBlocks (layout.nonLdePolynomialCount seg)) tileO
    · simp [segThreads, launch_of_valid hvalid, Except.toOption, hvalid]
    · simp [segThreads_of_not_valid hvalid, hvalid]
  · obtain hn : layout.nonLdePolynomialCount seg = 0 := by omega
    simp [hn]

lemma segWritesFrom_forall_lt_iff (segs : List PolySegment) :
    (∀ a ∈ layout.segWritesFrom segs, a < c.friBufLen) ↔ layout.ScratchFitsFrom segs := by
  induction segs with
  | nil => simp [segWritesFrom, ScratchFitsFrom]
  | cons seg rest ih =>
    have hround := layout.segStores_forall_lt_iff seg
    have hsome := layout.segStores_isSome_iff seg
    rw [ScratchFitsFrom, ← hround, ← hsome, segWritesFrom]
    cases hstores : layout.segStores seg with
    | none => simp
    | some ths =>
      by_cases hrest : RestLaunches c seg
      · simp [hrest, or_imp, forall_and, ih]
      · simp [hrest]

/-- The addresses of the partial sums stay below the length of their buffer exactly when every
reached launch fits. -/
theorem segWrites_lt_friBufLen_iff :
    (∀ a ∈ layout.segWrites, a < c.friBufLen) ↔ layout.ScratchFits :=
  layout.segWritesFrom_forall_lt_iff PolySegment.all

/-- Below `2 ^ 26` blocks a launch fits when it has at most one column more than there are
wires. -/
lemma segFits_iff {seg : PolySegment} (hqueries : 0 < c.numQueryRounds)
    (hsmall : c.numQueryRounds * layout.nonLdePolynomialCount seg ≤ 2 ^ 26) :
    layout.SegFits seg ↔ layout.nonLdePolynomialCount seg ≤ c.numWires + 1 := by
  have hblocks : c.segBlocks (layout.nonLdePolynomialCount seg) =
      c.numQueryRounds * layout.nonLdePolynomialCount seg := u32_of_lt (by omega)
  have hmin : min (c.numQueryRounds * layout.nonLdePolynomialCount seg * tileO) (2 ^ 32) =
      c.numQueryRounds * layout.nonLdePolynomialCount seg * tileO := by
    unfold tileO
    omega
  rw [SegFits, hblocks, hmin, CommonCircuitData.friBufLen,
    Nat.mul_le_mul_right_iff (by decide), Nat.mul_le_mul_left_iff hqueries]

end PolyLayout

/-! ### More columns than wires -/

/-- All 136 wires are routed, and four columns are constants: 140 columns of constants and sigmas
for a buffer of 137. -/
def allWiresRouted : CommonCircuitData where
  numWires := 136
  numRoutedWires := 136
  numChallenges := 2
  maxQuotientDegreeFactor := 8
  zeroKnowledge := false
  rateBits := 3
  capHeight := 4
  numQueryRounds := 28
  degreeBits := 12
  reductionArityBits := [4, 4]
  numConstants := 4
  numPublicInputs := 4
  numLookupPolys := 0
  arities_le := standardArities
  quotientDegree_pow := standardQuotientDegree
  four_le_routed := by decide
  lde_le := standardLde

/-- No LDE stays on the device. -/
def PolyLayout.withoutLdes (c : CommonCircuitData) : PolyLayout c where
  numLdes := fun _ => 0
  numLdes_le := fun _ => Nat.zero_le _

/-- The last columns of the constants and sigmas are evaluated outside the buffer. -/
theorem PolyLayout.not_segWrites_lt_friBufLen :
    ¬ ∀ a ∈ (PolyLayout.withoutLdes allWiresRouted).segWrites, a < allWiresRouted.friBufLen := by
  intro h
  have hfits := ((PolyLayout.withoutLdes allWiresRouted).segWritesFrom_forall_lt_iff _).mp h
  have hlaunch : (PolyLayout.withoutLdes allWiresRouted).SegLaunch .constantsSigmas := by
    unfold PolyLayout.SegLaunch
    decide
  have hseg := hfits.1 hlaunch
  revert hseg
  unfold PolyLayout.SegFits
  decide

end MegaZK
