import MegaZK.U32.Limbs

/-! # The `u32` arithmetic gate

An operation whose constraints vanish multiplies and adds over the integers. The two output limbs
can denote a number above the order; the inverse of the gate rules that out. -/

namespace MegaZK

open Horner

variable {F : Type} [Field F]

/-! ### One operation -/

section Op

variable (wires : ℕ → F) (numOps i : ℕ)

/-- The constraints of operation `i`. -/
def U32ArithmeticGate.evalOp : List F :=
  let multiplicand0 := wires (routedWiresPerOp * i)
  let multiplicand1 := wires (routedWiresPerOp * i + 1)
  let addend := wires (routedWiresPerOp * i + 2)
  let computedOutput := multiplicand0 * multiplicand1 + addend
  let outputLow := wires (routedWiresPerOp * i + 3)
  let outputHigh := wires (routedWiresPerOp * i + 4)
  let inverse := wires (routedWiresPerOp * i + 5)
  let base : F := ((1 <<< 32 : ℕ) : F)
  let u32Max : F := ((2 ^ 32 - 1 : ℕ) : F)
  let diff := u32Max - outputHigh
  let hiNotMax := inverse * diff - 1
  let hiNotMaxOrLoZero := hiNotMax * outputLow
  let combinedOutput := outputHigh * base + outputLow
  let limbs := limbFold (1 <<< limbBits) (1 <<< limbBits) (numLimbs / 2) numLimbs fun j =>
    wires (wireIthOutputJthLimb numOps i j)
  hiNotMaxOrLoZero :: (combinedOutput - computedOutput) ::
    (limbs.1 ++ [limbs.2.1 - outputLow, limbs.2.2 - outputHigh])

/-- The constraints that `u32_arithmetic_gate_partial` adds for operation `i`. -/
def u32ArithmeticOpPartial : List F :=
  let multiplicand0 := wires (6 * i)
  let multiplicand1 := wires (6 * i + 1)
  let addend := wires (6 * i + 2)
  let computedOutput := multiplicand0 * multiplicand1 + addend
  let outputLow := wires (6 * i + 3)
  let outputHigh := wires (6 * i + 4)
  let inverse := wires (6 * i + 5)
  let diff := ((2 ^ 32 - 1 : ℕ) : F) - outputHigh
  let hiNotMax := inverse * diff - 1
  let hiNotMaxOrLoZero := hiNotMax * outputLow
  let combinedOutput := outputHigh * ((1 <<< 32 : ℕ) : F) + outputLow
  let limbs := limbLoop 16 (fun j => wires (6 * numOps + 32 * i + j)) 32
    [hiNotMaxOrLoZero, combinedOutput - computedOutput] 0 0
  limbs.1 ++ [limbs.2.1 - outputLow, limbs.2.2 - outputHigh]

lemma U32ArithmeticGate.evalUnfiltered_eq_flatMap :
    U32ArithmeticGate.evalUnfiltered wires numOps =
      (List.range numOps).flatMap (U32ArithmeticGate.evalOp wires numOps) := rfl

lemma u32ArithmeticGatePartial_eq_flatMap :
    u32ArithmeticGatePartial wires numOps =
      (List.range numOps).flatMap (u32ArithmeticOpPartial wires numOps) := rfl

lemma u32ArithmeticOpPartial_eq :
    u32ArithmeticOpPartial wires numOps i = U32ArithmeticGate.evalOp wires numOps i := by
  have hlimbs : U32ArithmeticGate.numLimbs = 32 := rfl
  have hmidpoint : 32 / 2 = 16 := rfl
  simp only [u32ArithmeticOpPartial, U32ArithmeticGate.evalOp, limbLoop_eq,
    U32ArithmeticGate.wireIthOutputJthLimb, U32ArithmeticGate.routedWiresPerOp,
    U32ArithmeticGate.limbBits, hlimbs, hmidpoint, List.nil_append, List.cons_append]

end Op

/-! ### Soundness -/

/-- What the constraints of an operation say of its outputs and limbs. -/
structure U32ArithmeticGate.Satisfied (wires : ℕ → GoldilocksField) (numOps i : ℕ) : Prop where
  hi_not_max_or_lo_zero :
    (wires (6 * i + 5) * (((2 ^ 32 - 1 : ℕ) : GoldilocksField) - wires (6 * i + 4)) - 1) *
      wires (6 * i + 3) = 0
  combined : wires (6 * i + 4) * ((2 ^ 32 : ℕ) : GoldilocksField) + wires (6 * i + 3) =
    wires (6 * i) * wires (6 * i + 1) + wires (6 * i + 2)
  limb_lt : ∀ j < 32, (wires (6 * numOps + 32 * i + j)).val < 4
  low : evalSum (fun j => wires (6 * numOps + 32 * i + j)) 16 ((4 : ℕ) : GoldilocksField) =
    wires (6 * i + 3)
  high : evalSum (fun j => wires (6 * numOps + 32 * i + (16 + j))) 16 ((4 : ℕ) : GoldilocksField) =
    wires (6 * i + 4)

namespace U32ArithmeticGate

variable {wires : ℕ → GoldilocksField} {numOps i : ℕ}

lemma forall_mem_evalOp :
    (∀ cons ∈ evalOp wires numOps i, cons = 0) ↔ Satisfied wires numOps i := by
  have hlimbs : numLimbs = 16 + 16 := rfl
  have hmidpoint : (16 + 16) / 2 = 16 := rfl
  have hbound : 1 <<< 2 = 4 := rfl
  have hbase : 1 <<< 32 = 2 ^ 32 := rfl
  simp only [evalOp, routedWiresPerOp, limbBits, hlimbs, hmidpoint, hbound, hbase]
  rw [List.forall_mem_cons, List.forall_mem_cons, forall_mem_limbs (by decide),
    sub_eq_zero (b := _ + _)]
  constructor
  · rintro ⟨hzero, hcombined, hlt, hlow, hhigh⟩
    exact ⟨hzero, hcombined, hlt, hlow, hhigh⟩
  · rintro ⟨hzero, hcombined, hlt, hlow, hhigh⟩
    exact ⟨hzero, hcombined, hlt, hlow, hhigh⟩

namespace Satisfied

lemma low_lt (h : Satisfied wires numOps i) : (wires (6 * i + 3)).val < 2 ^ 32 := by
  have hlimbs : ∀ j < 16, (wires (6 * numOps + 32 * i + j)).val < 4 := by
    intro j hj
    exact h.limb_lt j (by omega)
  rw [← h.low, PrimeDigits.val_evalSum hlimbs (by decide)]
  exact Radix.evalSum_lt hlimbs

lemma high_lt (h : Satisfied wires numOps i) : (wires (6 * i + 4)).val < 2 ^ 32 := by
  have hlimbs : ∀ j < 16, (wires (6 * numOps + 32 * i + (16 + j))).val < 4 := by
    intro j hj
    exact h.limb_lt (16 + j) (by omega)
  rw [← h.high, PrimeDigits.val_evalSum hlimbs (by decide)]
  exact Radix.evalSum_lt hlimbs

/-- A high limb of all ones has no inverse of its difference, which leaves the low limb zero. -/
lemma low_eq_zero (h : Satisfied wires numOps i) (hmax : (wires (6 * i + 4)).val = 2 ^ 32 - 1) :
    (wires (6 * i + 3)).val = 0 := by
  have hhigh : wires (6 * i + 4) = ((2 ^ 32 - 1 : ℕ) : GoldilocksField) := by
    rw [← hmax, ZMod.natCast_zmod_val]
  have hzero := h.hi_not_max_or_lo_zero
  rw [hhigh, sub_self, mul_zero, zero_sub, neg_one_mul, neg_eq_zero] at hzero
  rw [hzero, ZMod.val_zero]

/-- The combined output stays below the order. -/
lemma combined_lt (h : Satisfied wires numOps i) :
    (wires (6 * i + 4)).val * 2 ^ 32 + (wires (6 * i + 3)).val < goldilocksOrder := by
  have hlow := h.low_lt
  have hhigh := h.high_lt
  have horder := goldilocksOrder_eq
  by_cases hmax : (wires (6 * i + 4)).val = 2 ^ 32 - 1
  · have hzero := h.low_eq_zero hmax
    omega
  · omega

end Satisfied

/-- The outputs of an operation on 32-bit numbers whose constraints vanish, in the gate or in its
kernel, are 32-bit limbs of the result over the integers. -/
theorem op_sound
    (hcons : (∀ cons ∈ evalOp wires numOps i, cons = 0) ∨
      ∀ cons ∈ u32ArithmeticOpPartial wires numOps i, cons = 0)
    (hmultiplicand0 : (wires (6 * i)).val < 2 ^ 32)
    (hmultiplicand1 : (wires (6 * i + 1)).val < 2 ^ 32)
    (haddend : (wires (6 * i + 2)).val < 2 ^ 32) :
    (wires (6 * i + 3)).val < 2 ^ 32 ∧ (wires (6 * i + 4)).val < 2 ^ 32 ∧
      (wires (6 * i + 4)).val * 2 ^ 32 + (wires (6 * i + 3)).val =
        (wires (6 * i)).val * (wires (6 * i + 1)).val + (wires (6 * i + 2)).val := by
  rw [u32ArithmeticOpPartial_eq, or_self, forall_mem_evalOp] at hcons
  have hproduct : (wires (6 * i)).val * (wires (6 * i + 1)).val ≤ (2 ^ 32 - 1) * (2 ^ 32 - 1) :=
    Nat.mul_le_mul (by omega) (by omega)
  have hcomputed : (wires (6 * i)).val * (wires (6 * i + 1)).val + (wires (6 * i + 2)).val <
      goldilocksOrder := by
    have horder := goldilocksOrder_eq
    omega
  refine ⟨hcons.low_lt, hcons.high_lt, ?_⟩
  apply PrimeDigits.eq_of_natCast_eq hcons.combined_lt hcomputed
  have hcombined := hcons.combined
  rw [← ZMod.natCast_zmod_val (wires (6 * i + 4)), ← ZMod.natCast_zmod_val (wires (6 * i + 3)),
    ← ZMod.natCast_zmod_val (wires (6 * i)), ← ZMod.natCast_zmod_val (wires (6 * i + 1)),
    ← ZMod.natCast_zmod_val (wires (6 * i + 2))] at hcombined
  exact_mod_cast hcombined

/-- The row of the largest inputs, whose high output is all ones. -/
def largestRow (column : ℕ) : GoldilocksField :=
  if column < 3 ∨ column = 4 then ((2 ^ 32 - 1 : ℕ) : GoldilocksField)
  else if column < 22 then ((0 : ℕ) : GoldilocksField) else ((3 : ℕ) : GoldilocksField)

lemma satisfied_largestRow : Satisfied largestRow 1 0 where
  hi_not_max_or_lo_zero := by
    change _ * ((0 : ℕ) : GoldilocksField) = 0
    rw [Nat.cast_zero, mul_zero]
  combined := by
    change ((2 ^ 32 - 1 : ℕ) : GoldilocksField) * _ + ((0 : ℕ) : GoldilocksField) =
      ((2 ^ 32 - 1 : ℕ) : GoldilocksField) * ((2 ^ 32 - 1 : ℕ) : GoldilocksField) +
        ((2 ^ 32 - 1 : ℕ) : GoldilocksField)
    norm_num
  limb_lt := by
    intro j hj
    unfold largestRow
    split_ifs with hinput hlow
    · omega
    · decide
    · decide
  low := by
    rw [PrimeDigits.evalSum_natCast (d := fun _ => 0)]
    · rfl
    · intro j hj
      exact (if_neg (by omega)).trans (if_pos (by omega))
  high := by
    rw [PrimeDigits.evalSum_natCast (d := fun _ => 3)]
    · rfl
    · intro j hj
      exact (if_neg (by omega)).trans (if_neg (by omega))

theorem op_sound_largestRow :
    (largestRow 3).val < 2 ^ 32 ∧ (largestRow 4).val < 2 ^ 32 ∧
      (largestRow 4).val * 2 ^ 32 + (largestRow 3).val =
        (largestRow 0).val * (largestRow 1).val + (largestRow 2).val :=
  @op_sound largestRow 1 0 (.inl (forall_mem_evalOp.mpr satisfied_largestRow))
    (by decide) (by decide) (by decide)

end U32ArithmeticGate

end MegaZK
