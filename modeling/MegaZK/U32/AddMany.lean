import MegaZK.U32.Generator

/-! # The `u32` addition gate

The carry of an operation is split into two limbs of two bits, which is enough for the sum of up to
16 numbers of 32 bits. -/

namespace MegaZK

open Horner

namespace U32AddManyGate

/-- `MAX_NUM_ADDENDS`. -/
def maxNumAddends : ℕ := 24

/-! ### One operation -/

section Op

variable {F : Type} [Field F] (wires : ℕ → F) (numAddends numOps i : ℕ)

/-- The constraints of operation `i`. -/
def evalOp : List F :=
  let addends := (List.range numAddends).map fun j => wires ((numAddends + 3) * i + j)
  let carry := wires ((numAddends + 3) * i + numAddends)
  let computedOutput := addends.foldl (· + ·) 0 + carry
  let outputResult := wires ((numAddends + 3) * i + numAddends + 1)
  let outputCarry := wires ((numAddends + 3) * i + numAddends + 2)
  let base : F := ((1 <<< 32 : ℕ) : F)
  let combinedOutput := outputCarry * base + outputResult
  let limbs := limbFold (1 <<< limbBits) (1 <<< limbBits) numResultLimbs numLimbs fun j =>
    wires (wireIthOutputJthLimb numAddends numOps i j)
  (combinedOutput - computedOutput) ::
    (limbs.1 ++ [limbs.2.1 - outputResult, limbs.2.2 - outputCarry])

lemma evalUnfiltered_eq_flatMap :
    evalUnfiltered wires numAddends numOps =
      (List.range numOps).flatMap (evalOp wires numAddends numOps) := rfl

end Op

variable (wires : ℕ → GoldilocksField) (numAddends numOps i : ℕ)

/-- What the constraints of an operation say. -/
structure Satisfied : Prop where
  combined : wires ((numAddends + 3) * i + numAddends + 2) * ((2 ^ 32 : ℕ) : GoldilocksField) +
      wires ((numAddends + 3) * i + numAddends + 1) =
    ((List.range numAddends).map fun j => wires ((numAddends + 3) * i + j)).sum +
      wires ((numAddends + 3) * i + numAddends)
  limb_lt : ∀ j < 18, (wires (wireIthOutputJthLimb numAddends numOps i j)).val < 4
  result : evalSum (fun j => wires (wireIthOutputJthLimb numAddends numOps i j)) 16
    ((4 : ℕ) : GoldilocksField) = wires ((numAddends + 3) * i + numAddends + 1)
  carry : evalSum (fun j => wires (wireIthOutputJthLimb numAddends numOps i (16 + j))) 2
    ((4 : ℕ) : GoldilocksField) = wires ((numAddends + 3) * i + numAddends + 2)

lemma forall_mem_evalOp :
    (∀ cons ∈ evalOp wires numAddends numOps i, cons = 0) ↔
      Satisfied wires numAddends numOps i := by
  have hlimbs : numLimbs = 16 + 2 := rfl
  have hresult : numResultLimbs = 16 := rfl
  have hbound : 1 <<< 2 = 4 := rfl
  have hbase : 1 <<< 32 = 2 ^ 32 := rfl
  simp only [evalOp, limbBits, hlimbs, hresult, hbound, hbase]
  rw [List.forall_mem_cons, forall_mem_limbs (by decide), sub_eq_zero, ← List.sum_eq_foldl]
  constructor
  · rintro ⟨hcombined, hlt, hlow, hhigh⟩
    exact ⟨hcombined, hlt, hlow, hhigh⟩
  · rintro ⟨hcombined, hlt, hlow, hhigh⟩
    exact ⟨hcombined, hlt, hlow, hhigh⟩

end U32AddManyGate

/-! ### The generator -/

section Generator

open U32AddManyGate

/-- `u32_add_many_generator_new_kernel`. -/
def u32AddManyGeneratorNew (numAddends : ℕ) (read : ℕ → GoldilocksField) :
    List GoldilocksField :=
  let output := (List.range numAddends).foldl (fun output j => output + read j) 0
  let outputU64 := (output + read numAddends).val
  let outputCarryU64 := outputU64 >>> 32
  let outputResultU64 := outputU64 &&& ((1 <<< 32) - 1)
  let numResultLimbs := (32 + 2 - 1) / 2
  let numCarryLimbs := (4 + 2 - 1) / 2
  let limbBase := 1 <<< 2
  splitLoop limbBase numResultLimbs outputResultU64 ++
    splitLoop limbBase numCarryLimbs outputCarryU64 ++
    [(outputCarryU64 : GoldilocksField), (outputResultU64 : GoldilocksField)]

/-- `U32AddManyGenerator` on the device. -/
def u32AddManyGenerator (numAddends numOps i : ℕ) : RowGenerator where
  dependencies := (List.range numAddends).map (fun j => (numAddends + 3) * i + j) ++
    [(numAddends + 3) * i + numAddends]
  outputTargets := (List.range numLimbs).map (wireIthOutputJthLimb numAddends numOps i) ++
    [(numAddends + 3) * i + numAddends + 2, (numAddends + 3) * i + numAddends + 1]
  kernel := u32AddManyGeneratorNew numAddends

/-- The wires that `run_once` sets on the host, with their values. -/
def U32AddManyGenerator.runOnce (numAddends numOps i : ℕ) (wires : ℕ → GoldilocksField) :
    List (ℕ × GoldilocksField) :=
  let addends := (List.range numAddends).map fun j => wires ((numAddends + 3) * i + j)
  let carry := wires ((numAddends + 3) * i + numAddends)
  let outputU64 := (addends.foldl (· + ·) 0 + carry).val
  let outputCarryU64 := outputU64 >>> 32
  let outputResultU64 := outputU64 &&& ((1 <<< 32) - 1)
  let splitToLimbs (val num : ℕ) := splitLoop (1 <<< limbBits) num val
  let limbs := splitToLimbs outputResultU64 numResultLimbs ++
    splitToLimbs outputCarryU64 numCarryLimbs
  ((numAddends + 3) * i + numAddends + 2, (outputCarryU64 : GoldilocksField)) ::
    ((numAddends + 3) * i + numAddends + 1, (outputResultU64 : GoldilocksField)) ::
    limbs.mapIdx fun j limb => (wireIthOutputJthLimb numAddends numOps i j, limb)

end Generator

namespace U32AddManyGate

variable (wires : ℕ → GoldilocksField) (numAddends numOps i : ℕ)

/-- The sum of the addends and the carry, over the integers. -/
def total : ℕ :=
  ((List.range numAddends).map fun j => (wires ((numAddends + 3) * i + j)).val).sum +
    (wires ((numAddends + 3) * i + numAddends)).val

/-- What a generator writes for a sum. -/
structure Written (sum : ℕ) : Prop where
  result : wires ((numAddends + 3) * i + numAddends + 1) = (sum % 2 ^ 32 : ℕ)
  carry : wires ((numAddends + 3) * i + numAddends + 2) = (sum / 2 ^ 32 : ℕ)
  result_limb : ∀ j < 16,
    wires (wireIthOutputJthLimb numAddends numOps i j) = (sum % 2 ^ 32 / 4 ^ j % 4 : ℕ)
  carry_limb : ∀ j < 2,
    wires (wireIthOutputJthLimb numAddends numOps i (16 + j)) = (sum / 2 ^ 32 / 4 ^ j % 4 : ℕ)

variable {wires numAddends numOps i}

section InRange

variable (hadmits : numAddends ≤ maxNumAddends)
  (haddends : ∀ j < numAddends, (wires ((numAddends + 3) * i + j)).val < 2 ^ 32)
  (hcarry : (wires ((numAddends + 3) * i + numAddends)).val < 2 ^ 32)

include hadmits haddends hcarry

lemma total_lt : total wires numAddends i < goldilocksOrder := by
  have hsum := List.sum_le_card_nsmul
    ((List.range numAddends).map fun j => (wires ((numAddends + 3) * i + j)).val) (2 ^ 32) (by
      intro x hx
      obtain ⟨j, hj, rfl⟩ := List.mem_map.mp hx
      exact (haddends j (List.mem_range.mp hj)).le)
  have hmul : numAddends * 2 ^ 32 ≤ 24 * 2 ^ 32 := Nat.mul_le_mul_right _ hadmits
  have horder := goldilocksOrder_eq
  rw [List.length_map, List.length_range, smul_eq_mul] at hsum
  unfold total
  omega

lemma val_sum :
    (((List.range numAddends).map fun j => wires ((numAddends + 3) * i + j)).sum +
      wires ((numAddends + 3) * i + numAddends)).val = total wires numAddends i := by
  have hcast : ((List.range numAddends).map fun j => wires ((numAddends + 3) * i + j)).sum +
      wires ((numAddends + 3) * i + numAddends) = (total wires numAddends i : ℕ) := by
    rw [total, Nat.cast_add, Nat.cast_list_sum, List.map_map, ZMod.natCast_zmod_val]
    congr 3
    funext j
    exact (ZMod.natCast_zmod_val _).symm
  rw [hcast, ZMod.val_natCast_of_lt (total_lt hadmits haddends hcarry)]

omit hadmits haddends hcarry in
lemma kernel_eq (read : ℕ → GoldilocksField) (hread : ∀ j < numAddends + 1,
      read j = wires ((numAddends + 3) * i + j))
    (hval : (((List.range numAddends).map fun j => wires ((numAddends + 3) * i + j)).sum +
      wires ((numAddends + 3) * i + numAddends)).val = total wires numAddends i) :
    u32AddManyGeneratorNew numAddends read =
      splitLoop 4 16 (total wires numAddends i % 2 ^ 32) ++
        splitLoop 4 2 (total wires numAddends i / 2 ^ 32) ++
        [((total wires numAddends i / 2 ^ 32 : ℕ) : GoldilocksField),
          ((total wires numAddends i % 2 ^ 32 : ℕ) : GoldilocksField)] := by
  have hsum : ((List.range numAddends).foldl (fun output j => output + read j) 0 +
      read numAddends).val = total wires numAddends i := by
    rw [foldl_add_eq, ← List.sum_eq_foldl, add_zero, hread numAddends (Nat.lt_succ_self _),
      List.map_congr_left fun j hj => hread j (Nat.lt_succ_of_lt (List.mem_range.mp hj)), hval]
  simp only [u32AddManyGeneratorNew, hsum, Nat.shiftRight_eq_div_pow, Nat.one_shiftLeft,
    Nat.and_two_pow_sub_one_eq_mod]

lemma written_of_ran (h : (u32AddManyGenerator numAddends numOps i).Ran wires) :
    Written wires numAddends numOps i (total wires numAddends i) := by
  have hread : ∀ j < numAddends + 1, (u32AddManyGenerator numAddends numOps i).read wires j =
      wires ((numAddends + 3) * i + j) := by
    intro j hj
    have hdeps : (u32AddManyGenerator numAddends numOps i).dependencies =
        (List.range (numAddends + 1)).map fun j => (numAddends + 3) * i + j := by
      rw [List.range_succ, List.map_append]
      rfl
    rw [RowGenerator.read, hdeps, List.map_map, List.getD_eq_getElem _ _ (by simpa using hj),
      List.getElem_map, List.getElem_range]
    rfl
  have hlimbs : List.range numLimbs = List.range 16 ++ (List.range 2).map (16 + ·) := rfl
  have hran : ((List.range 16 ++ (List.range 2).map (16 + ·)).map
        (wireIthOutputJthLimb numAddends numOps i) ++ [(numAddends + 3) * i + numAddends + 2,
          (numAddends + 3) * i + numAddends + 1]).map wires =
      u32AddManyGeneratorNew numAddends ((u32AddManyGenerator numAddends numOps i).read wires) := h
  rw [kernel_eq _ hread (val_sum hadmits haddends hcarry), List.map_append, List.map_append,
    List.map_append, splitLoop_eq, splitLoop_eq] at hran
  obtain ⟨hlimb, houtputs⟩ := List.append_inj hran (by simp)
  obtain ⟨hresult, hcarryLimb⟩ := List.append_inj hlimb (by simp)
  simp only [List.map_map, List.map_inj_left, List.mem_range] at hresult hcarryLimb
  simp only [List.map_cons, List.map_nil, List.cons.injEq, and_true] at houtputs
  exact ⟨houtputs.2, houtputs.1, hresult, hcarryLimb⟩

lemma written_of_ranOnce
    (h : ∀ t ∈ U32AddManyGenerator.runOnce numAddends numOps i wires, wires t.1 = t.2) :
    Written wires numAddends numOps i (total wires numAddends i) := by
  have hresult : numResultLimbs = 16 := rfl
  have hcarryLimbs : numCarryLimbs = 2 := rfl
  have hbound : 2 ^ 2 = 4 := rfl
  simp only [U32AddManyGenerator.runOnce, limbBits, ← List.sum_eq_foldl,
    val_sum hadmits haddends hcarry, Nat.shiftRight_eq_div_pow, Nat.one_shiftLeft,
    Nat.and_two_pow_sub_one_eq_mod, hresult, hcarryLimbs, hbound, splitLoop_eq,
    List.forall_mem_cons, List.mem_mapIdx] at h
  obtain ⟨houtputCarry, houtputResult, hlimbs⟩ := h
  refine ⟨houtputResult, houtputCarry, ?_, ?_⟩
  · intro j hj
    apply hlimbs (wireIthOutputJthLimb numAddends numOps i j, _)
    refine ⟨j, by simp only [List.length_append, List.length_map, List.length_range]; omega, ?_⟩
    rw [List.getElem_append_left (by simpa using hj), List.getElem_map, List.getElem_range]
  · intro j hj
    apply hlimbs (wireIthOutputJthLimb numAddends numOps i (16 + j), _)
    refine ⟨16 + j, by simp only [List.length_append, List.length_map, List.length_range]; omega,
      ?_⟩
    rw [List.getElem_append_right (by simp), List.getElem_map, List.getElem_range]
    simp only [List.length_map, List.length_range, Nat.add_sub_cancel_left]

end InRange

/-- The written wires satisfy the constraints where the carry has four bits. -/
lemma Written.satisfied_iff (h : Written wires numAddends numOps i (total wires numAddends i))
    (hlt : total wires numAddends i < goldilocksOrder) :
    Satisfied wires numAddends numOps i ↔ total wires numAddends i < 2 ^ 36 := by
  have horder := goldilocksOrder_eq
  have hcarrySum : evalSum (fun j => wires (wireIthOutputJthLimb numAddends numOps i (16 + j))) 2
      ((4 : ℕ) : GoldilocksField) = (total wires numAddends i / 2 ^ 32 % 4 ^ 2 : ℕ) :=
    evalSum_digits_mod h.carry_limb
  constructor
  · intro hsatisfied
    have hcarry := hsatisfied.carry
    rw [hcarrySum, h.carry] at hcarry
    have heq := PrimeDigits.eq_of_natCast_eq (by omega) (by omega) hcarry
    omega
  · intro hsum
    constructor
    · rw [h.carry, h.result, ← Nat.cast_mul, ← Nat.cast_add, Nat.div_add_mod', total, Nat.cast_add,
        Nat.cast_list_sum, List.map_map, ZMod.natCast_zmod_val]
      congr 3
      funext j
      exact ZMod.natCast_zmod_val _
    · intro j hj
      rcases Nat.lt_or_ge j 16 with hlow | hhigh
      · rw [h.result_limb j hlow, ZMod.val_natCast_of_lt (by omega)]
        exact Nat.mod_lt _ (by decide)
      · have hlimb := h.carry_limb (j - 16) (by omega)
        rw [Nat.add_sub_cancel' hhigh] at hlimb
        rw [hlimb, ZMod.val_natCast_of_lt (by omega)]
        exact Nat.mod_lt _ (by decide)
    · have hbase : 4 ^ 16 = 2 ^ 32 := rfl
      rw [evalSum_digits (by rw [hbase]; exact Nat.mod_lt _ (by decide)) h.result_limb, h.result]
    · rw [hcarrySum, h.carry, Nat.mod_eq_of_lt (by omega)]

/-- A row in which the generator of every operation ran, on the device or on the host. -/
def Generated (wires : ℕ → GoldilocksField) (numAddends numOps : ℕ) : Prop :=
  (∀ i < numOps, (u32AddManyGenerator numAddends numOps i).Ran wires) ∨
    ∀ i < numOps, ∀ t ∈ U32AddManyGenerator.runOnce numAddends numOps i wires, wires t.1 = t.2

section Generated

variable (hadmits : numAddends ≤ maxNumAddends)
  (haddends : ∀ i < numOps, ∀ j < numAddends, (wires ((numAddends + 3) * i + j)).val < 2 ^ 32)
  (hcarry : ∀ i < numOps, (wires ((numAddends + 3) * i + numAddends)).val < 2 ^ 32)
  (hgenerated : Generated wires numAddends numOps)

include hadmits haddends hcarry hgenerated

lemma forall_mem_evalOp_iff (hi : i < numOps) :
    (∀ cons ∈ evalOp wires numAddends numOps i, cons = 0) ↔
      total wires numAddends i < 2 ^ 36 := by
  have hwritten : Written wires numAddends numOps i (total wires numAddends i) := by
    cases hgenerated with
    | inl hran => exact written_of_ran hadmits (haddends i hi) (hcarry i hi) (hran i hi)
    | inr hran => exact written_of_ranOnce hadmits (haddends i hi) (hcarry i hi) (hran i hi)
  rw [forall_mem_evalOp,
    hwritten.satisfied_iff (total_lt hadmits (haddends i hi) (hcarry i hi))]

/-- The generated wires satisfy the constraints of the gate and of its kernel exactly where every
operation's sum fits 36 bits. -/
theorem generated_satisfies_iff :
    ((∀ cons ∈ evalUnfiltered wires numAddends numOps, cons = 0) ∧
        ∀ cons ∈ u32AddManyGatePartial wires numAddends numOps, cons = 0) ↔
      ∀ i < numOps, total wires numAddends i < 2 ^ 36 := by
  rw [u32AddManyGatePartial_eq, and_self, evalUnfiltered_eq_flatMap, List.forall_mem_flatMap]
  constructor
  · intro h i hi
    exact (forall_mem_evalOp_iff hadmits haddends hcarry hgenerated hi).mp
      (h i (List.mem_range.mpr hi))
  · intro h i hi
    exact (forall_mem_evalOp_iff hadmits haddends hcarry hgenerated (List.mem_range.mp hi)).mpr
      (h i (List.mem_range.mp hi))

end Generated

/-! ### Equal addends -/

section EqualAddends

/-- The row of the standard configuration's two operations on 24 addends and a carry that are all
`v`, after their generators ran. -/
def equalAddendsRow (v : ℕ) : ℕ → GoldilocksField :=
  RowGenerator.runAll ((List.range 2).map (u32AddManyGenerator 24 2)) fun _ => v

lemma length_u32AddManyGeneratorNew (read : ℕ → GoldilocksField) :
    (u32AddManyGeneratorNew numAddends read).length = 20 := by
  simp only [u32AddManyGeneratorNew, splitLoop_eq, List.length_append, List.length_map,
    List.length_range, List.length_cons, List.length_nil]

lemma generated_equalAddendsRow (v : ℕ) : Generated (equalAddendsRow v) 24 2 := by
  left
  intro i hi
  refine RowGenerator.ran_runAll ?_ (by decide) (by decide) _
    (List.mem_map.mpr ⟨i, List.mem_range.mpr hi, rfl⟩)
  intro g hg read
  obtain ⟨i, -, rfl⟩ := List.mem_map.mp hg
  exact length_u32AddManyGeneratorNew read

lemma equalAddendsRow_input (v : ℕ) {i j : ℕ} (hi : i < 2) (hj : j < 25) :
    equalAddendsRow v ((24 + 3) * i + j) = v := by
  have hinput : ∀ i < 2, ∀ j < 25, (24 + 3) * i + j ∉
      ((List.range 2).map (u32AddManyGenerator 24 2)).flatMap RowGenerator.outputTargets := by
    decide
  exact RowGenerator.runAll_of_notMem (hinput i hi j hj)

lemma total_equalAddendsRow {v i : ℕ} (hv : v < 2 ^ 32) (hi : i < 2) :
    total (equalAddendsRow v) 24 i = 25 * v := by
  have horder := goldilocksOrder_eq
  have hval : ∀ j < 25, (equalAddendsRow v ((24 + 3) * i + j)).val = v := by
    intro j hj
    rw [equalAddendsRow_input v hi hj, ZMod.val_natCast_of_lt (by omega)]
  rw [total, hval 24 (by decide), List.map_congr_left fun j hj =>
    hval j ((List.mem_range.mp hj).trans (by decide)), List.map_const', List.sum_replicate,
    List.length_range, smul_eq_mul]
  omega

lemma val_equalAddendsRow {v i j : ℕ} (hv : v < 2 ^ 32) (hi : i < 2) (hj : j < 25) :
    (equalAddendsRow v ((24 + 3) * i + j)).val < 2 ^ 32 := by
  have horder := goldilocksOrder_eq
  rw [equalAddendsRow_input v hi hj, ZMod.val_natCast_of_lt (by omega)]
  exact hv

end EqualAddends

theorem generated_satisfies_ones :
    (∀ cons ∈ evalUnfiltered (equalAddendsRow 1) 24 2, cons = 0) ∧
      ∀ cons ∈ u32AddManyGatePartial (equalAddendsRow 1) 24 2, cons = 0 := by
  apply (generated_satisfies_iff (by decide)
    (fun _ hi _ hj => val_equalAddendsRow (by decide) hi (hj.trans (by decide)))
    (fun _ hi => val_equalAddendsRow (by decide) hi (by decide))
    (generated_equalAddendsRow 1)).mpr
  intro i hi
  rw [total_equalAddendsRow (by decide) hi]
  decide

/-- The sum of 24 addends and a carry that are all ones does not fit the limbs. -/
theorem not_generated_satisfies :
    ¬ ∀ (numAddends numOps : ℕ) (wires : ℕ → GoldilocksField), numAddends ≤ maxNumAddends →
      (∀ i < numOps, ∀ j < numAddends, (wires ((numAddends + 3) * i + j)).val < 2 ^ 32) →
      (∀ i < numOps, (wires ((numAddends + 3) * i + numAddends)).val < 2 ^ 32) →
      Generated wires numAddends numOps →
      (∀ cons ∈ evalUnfiltered wires numAddends numOps, cons = 0) ∧
        ∀ cons ∈ u32AddManyGatePartial wires numAddends numOps, cons = 0 := by
  intro h
  have hones : 2 ^ 32 - 1 < 2 ^ 32 := by decide
  have haddends : ∀ i < 2, ∀ j < 24,
      (equalAddendsRow (2 ^ 32 - 1) ((24 + 3) * i + j)).val < 2 ^ 32 :=
    fun i hi j hj => val_equalAddendsRow hones hi (hj.trans (by decide))
  have hcarry : ∀ i < 2, (equalAddendsRow (2 ^ 32 - 1) ((24 + 3) * i + 24)).val < 2 ^ 32 :=
    fun i hi => val_equalAddendsRow hones hi (by decide)
  have hgenerated := generated_equalAddendsRow (2 ^ 32 - 1)
  have hcons := (h 24 2 (equalAddendsRow (2 ^ 32 - 1)) le_rfl haddends hcarry hgenerated).1
  rw [evalUnfiltered_eq_flatMap, List.forall_mem_flatMap] at hcons
  have hlt := (forall_mem_evalOp_iff (by decide) haddends hcarry hgenerated Nat.two_pos).mp
    (hcons 0 (List.mem_range.mpr Nat.two_pos))
  rw [total_equalAddendsRow hones Nat.two_pos] at hlt
  exact absurd hlt (by decide)

end U32AddManyGate

end MegaZK
