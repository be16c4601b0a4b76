import MegaZK.U32.AddMany
import MegaZK.U32.Arithmetic
import MegaZK.U32.Comparison
import MegaZK.U32.GeneratorKernels
import MegaZK.U32.Uninterleave

/-! # Generated rows

The wires that the kernels of the generators write, in the order of their output targets, satisfy
the constraints of the gates. The comparison of 63 bits in one chunk is the exception: the
difference of its inputs above `2 ^ 63` can pass the order. -/

namespace MegaZK

open Horner Radix

variable {wires : ℕ → GoldilocksField}

lemma val_natCast_digit (v j : ℕ) {b : ℕ} (hb : 0 < b) (hle : b ≤ goldilocksOrder) :
    ((v / j % b : ℕ) : GoldilocksField).val < b := by
  have hlt : v / j % b < b := Nat.mod_lt _ hb
  rwa [ZMod.val_natCast_of_lt (hlt.trans_le hle)]

/-! ### Arithmetic -/

/-- The limbs are those of the canonical output, whose high limb is all ones only when its low limb
is zero. -/
lemma u32ArithmeticGenerator_satisfied {numOps i : ℕ}
    (hran : (u32ArithmeticGenerator numOps i).Ran wires) :
    U32ArithmeticGate.Satisfied wires numOps i := by
  have horder := goldilocksOrder_eq
  generalize hsum : wires (6 * i) * wires (6 * i + 1) + wires (6 * i + 2) = output
  have hlt : output.val < goldilocksOrder := ZMod.val_lt _
  have hran' : ([6 * i + 4, 6 * i + 3, 6 * i + 5] ++ (List.range 32).map
        (U32ArithmeticGate.wireIthOutputJthLimb numOps i)).map wires =
      [((output.val >>> 32 : ℕ) : GoldilocksField),
        ((output.val &&& (2 ^ 32 - 1) : ℕ) : GoldilocksField),
        if 2 ^ 32 - 1 - output.val >>> 32 = 0 then 0
        else ((2 ^ 32 - 1 - output.val >>> 32 : ℕ) : GoldilocksField)⁻¹] ++
      splitLoop 4 32 output.val := by
    rw [← hsum]
    exact hran
  rw [List.map_append, splitLoop_eq, Nat.shiftRight_eq_div_pow, Nat.and_two_pow_sub_one_eq_mod]
    at hran'
  obtain ⟨houtputs, hlimbs⟩ := List.append_inj hran' rfl
  simp only [List.map_cons, List.map_nil, List.cons.injEq, and_true] at houtputs
  simp only [List.map_map, List.map_inj_left, List.mem_range] at hlimbs
  obtain ⟨hhigh, hlow, hinverse⟩ := houtputs
  have hlimb : ∀ j < 32, wires (6 * numOps + 32 * i + j) = (output.val / 4 ^ j % 4 : ℕ) := hlimbs
  have hpow : 4 ^ 16 = 2 ^ 32 := rfl
  constructor
  · rw [hhigh, hlow, hinverse]
    split_ifs with hzero
    · have hmod : output.val % 2 ^ 32 = 0 := by omega
      rw [hmod, Nat.cast_zero, mul_zero]
    · have hdiff : ((2 ^ 32 - 1 : ℕ) : GoldilocksField) - (output.val / 2 ^ 32 : ℕ) =
          (2 ^ 32 - 1 - output.val / 2 ^ 32 : ℕ) := (Nat.cast_sub (by omega)).symm
      have hne : ((2 ^ 32 - 1 - output.val / 2 ^ 32 : ℕ) : GoldilocksField) ≠ 0 := by
        intro hcast
        rw [ZMod.natCast_eq_zero_iff] at hcast
        exact absurd (Nat.le_of_dvd (Nat.pos_of_ne_zero hzero) hcast) (by omega)
      rw [hdiff, inv_mul_cancel₀ hne, sub_self, zero_mul]
  · rw [hhigh, hlow, hsum, ← Nat.cast_mul, ← Nat.cast_add, Nat.div_add_mod',
      ZMod.natCast_zmod_val]
  · intro j hj
    rw [hlimb j hj]
    exact val_natCast_digit _ _ (by decide) (by decide)
  · rw [hlow, evalSum_digits_mod fun j hj => hlimb j (by omega), hpow]
  · have hupper : ∀ j < 16, wires (6 * numOps + 32 * i + (16 + j)) =
        (output.val / 2 ^ 32 / 4 ^ j % 4 : ℕ) := by
      intro j hj
      rw [hlimb (16 + j) (by omega), pow_add, ← Nat.div_div_eq_div_mul, hpow]
    rw [hhigh, evalSum_digits (by omega) hupper]

/-! ### Comparison -/

section Comparison

variable {gate : ComparisonGate}

/-- What the loop writes for one chunk. -/
def chunkOutputs (f g : ℕ → ℕ) (i : ℕ) : List GoldilocksField :=
  [(f i : GoldilocksField), (g i : GoldilocksField),
    if f i ≠ g i then ((g i : GoldilocksField) - f i)⁻¹ else 1,
    if f i ≠ g i then 0 else 1,
    if f i ≠ g i then 0 else ((topDiff f g (i + 1) : ℤ) : GoldilocksField)]

lemma comparisonLoop_eq (chunkSize a b i n : ℕ) {f g : ℕ → ℕ}
    (hf : ∀ i, f i = a / chunkSize ^ i % chunkSize)
    (hg : ∀ i, g i = b / chunkSize ^ i % chunkSize) :
    comparisonLoop chunkSize n (a / chunkSize ^ i) (b / chunkSize ^ i)
        ((topDiff f g i : ℤ) : GoldilocksField) =
      ((List.range n).flatMap (fun j => chunkOutputs f g (i + j)),
        ((topDiff f g (i + n) : ℤ) : GoldilocksField)) := by
  induction n generalizing i with
  | zero => rfl
  | succ n ih =>
    have hdiff : (if f i ≠ g i then (g i : GoldilocksField) - f i
        else ((topDiff f g i : ℤ) : GoldilocksField)) = (topDiff f g (i + 1) : ℤ) := by
      rw [topDiff, ite_not]
      split_ifs
      · rfl
      · push_cast
        rfl
    have hshift : (fun j => chunkOutputs f g (i + (j + 1))) =
        fun j => chunkOutputs f g (i + 1 + j) := by
      funext j
      rw [add_assoc, add_comm 1 j]
    rw [comparisonLoop]
    simp only [← hf i, ← hg i]
    rw [hdiff, Nat.div_div_eq_div_mul, Nat.div_div_eq_div_mul, ← pow_succ, ih (i + 1),
      List.range_succ_eq_map, List.flatMap_cons, List.flatMap_map, hshift, add_assoc i 1 n,
      add_comm 1 n]
    rfl

lemma length_comparisonLoop (chunkSize n a b : ℕ) (diff : GoldilocksField) :
    (comparisonLoop chunkSize n a b diff).1.length = n * 5 := by
  induction n generalizing a b diff with
  | zero => rfl
  | succ n ih =>
    rw [comparisonLoop, List.length_append, ih, Nat.succ_mul, add_comm]
    rfl

/-- What the kernel wrote, as a row of chunks and of the bits of the difference in the field. -/
lemma comparisonGenerator_assigned (hfirst : (wires 0).val < 2 ^ gate.numBits)
    (hsecond : (wires 1).val < 2 ^ gate.numBits) (hran : (comparisonGenerator gate).Ran wires) :
    gate.Assigned (gate.chunk (wires 0).val) (gate.chunk (wires 1).val)
      ((2 ^ gate.chunkBits + gate.valueDiff (wires 0).val (wires 1).val : ℤ) :
        GoldilocksField).val wires ∧
      wires 2 = if (wires 0).val ≤ (wires 1).val then 1 else 0 := by
  have hpow : 2 ^ gate.numBits ≤ (2 ^ gate.chunkBits) ^ gate.numChunks := by
    rw [← pow_mul]
    exact Nat.pow_le_pow_right two_pos gate.numBits_le
  have hloop := comparisonLoop_eq (2 ^ gate.chunkBits) (wires 0).val (wires 1).val 0 gate.numChunks
    (f := gate.chunk (wires 0).val) (g := gate.chunk (wires 1).val) (fun _ => rfl) fun _ => rfl
  have hzero : topDiff (gate.chunk (wires 0).val) (gate.chunk (wires 1).val) 0 = 0 := rfl
  rw [pow_zero, Nat.div_one, Nat.div_one, hzero, Int.cast_zero, zero_add] at hloop
  have hran' : ([2] ++ (List.range gate.numChunks).flatMap (fun i =>
          [ComparisonGate.wireFirstChunkVal i, gate.wireSecondChunkVal i, gate.wireEqualityDummy i,
            gate.wireChunksEqual i, gate.wireIntermediateValue i]) ++
        [3] ++ (List.range (gate.chunkBits + 1)).map gate.wireMostSignificantDiffBit).map wires =
      [if (wires 0).val ≤ (wires 1).val then (1 : GoldilocksField) else 0] ++
        (comparisonLoop (1 <<< gate.chunkBits) gate.numChunks (wires 0).val (wires 1).val 0).1 ++
        [(comparisonLoop (1 <<< gate.chunkBits) gate.numChunks (wires 0).val (wires 1).val 0).2] ++
        splitLoop 2 (gate.chunkBits + 1) (((1 <<< gate.chunkBits : ℕ) : GoldilocksField) +
          (comparisonLoop (1 <<< gate.chunkBits) gate.numChunks (wires 0).val
            (wires 1).val 0).2).val := hran
  rw [Nat.one_shiftLeft, hloop, splitLoop_eq, List.map_append, List.map_append, List.map_append,
    List.map_flatMap] at hran'
  simp only [zero_add] at hran'
  obtain ⟨hfront, hbits⟩ := List.append_inj' hran' (by simp)
  obtain ⟨hfront, hdiff⟩ := List.append_inj' hfront rfl
  obtain ⟨hresult, hchunks⟩ := List.append_inj hfront rfl
  simp only [List.map_cons, List.map_nil, List.cons.injEq, and_true] at hdiff hresult
  simp only [List.map_map, List.map_inj_left, List.mem_range] at hbits
  have hchunk := flatMap_inj (n := 5) (fun _ _ => rfl) (fun _ _ => rfl) hchunks
  simp only [List.mem_range, chunkOutputs, List.map_cons, List.map_nil, List.cons.injEq,
    and_true, ite_not] at hchunk
  refine ⟨⟨?_, ?_, ?_, ?_, ?_, ?_, ?_, hdiff, ?_⟩, hresult⟩
  · have hvalue : evalSum (gate.chunk (wires 0).val) gate.numChunks (2 ^ gate.chunkBits) =
        (wires 0).val := PrimeDigits.evalSum_digits (hfirst.trans_le hpow)
    rw [hvalue, ZMod.natCast_zmod_val]
  · have hvalue : evalSum (gate.chunk (wires 1).val) gate.numChunks (2 ^ gate.chunkBits) =
        (wires 1).val := PrimeDigits.evalSum_digits (hsecond.trans_le hpow)
    rw [hvalue, ZMod.natCast_zmod_val]
  · intro i hi
    exact (hchunk i hi).1
  · intro i hi
    exact (hchunk i hi).2.1
  · intro i hi hne
    have hle := gate.two_pow_chunkBits_le
    have hdummy := (hchunk i hi).2.2.1
    rw [if_neg hne] at hdummy
    rw [hdummy]
    apply mul_inv_cancel₀
    intro hzero
    exact hne (PrimeDigits.eq_of_natCast_eq ((ComparisonGate.chunk_lt _ _ i).trans_le hle)
      ((ComparisonGate.chunk_lt _ _ i).trans_le hle) (sub_eq_zero.mp hzero).symm)
  · intro i hi
    exact (hchunk i hi).2.2.2.1
  · intro i hi
    have hintermediate := (hchunk i hi).2.2.2.2
    rw [hintermediate]
    split_ifs with heq
    · rw [topDiff, if_pos heq]
    · rfl
  · intro i hi
    have hbit := hbits i hi
    have hcast : ((2 ^ gate.chunkBits + gate.valueDiff (wires 0).val (wires 1).val : ℤ) :
        GoldilocksField) = ((2 ^ gate.chunkBits : ℕ) : GoldilocksField) +
          ((topDiff (gate.chunk (wires 0).val) (gate.chunk (wires 1).val) gate.numChunks : ℤ) :
            GoldilocksField) := by
      push_cast
      rfl
    rw [hcast]
    exact hbit

/-- The bits of the difference are right unless the difference passes the order. -/
lemma comparisonGenerator_satisfies_iff (hfirst : (wires 0).val < 2 ^ gate.numBits)
    (hsecond : (wires 1).val < 2 ^ gate.numBits) (hran : (comparisonGenerator gate).Ran wires) :
    (∀ cons ∈ gate.evalUnfiltered wires, cons = 0) ↔
      (gate.chunkBits = 63 → (wires 1).val + 2 ^ 63 < (wires 0).val + goldilocksOrder) := by
  have horder := goldilocksOrder_eq
  have hbits : 2 ^ gate.numBits ≤ 2 ^ 63 :=
    Nat.pow_le_pow_right two_pos (Nat.lt_succ_iff.mp gate.numBits_lt)
  have hvalues : 2 ^ gate.numBits ≤ 2 ^ (gate.chunkBits * gate.numChunks) :=
    Nat.pow_le_pow_right two_pos gate.numBits_le
  obtain ⟨hassigned, hresult⟩ := comparisonGenerator_assigned hfirst hsecond hran
  obtain ⟨hlow, hhigh⟩ :=
    ComparisonGate.valueDiff_lt gate (wires 0).val (wires 1).val
  have hsign : (wires 0).val ≤ (wires 1).val ↔
      0 ≤ gate.valueDiff (wires 0).val (wires 1).val :=
    ComparisonGate.le_iff_valueDiff (hfirst.trans_le hvalues) (hsecond.trans_le hvalues)
  have hpow : 2 ^ (gate.chunkBits + 1) = 2 * 2 ^ gate.chunkBits := pow_succ' 2 _
  have hcast : ((2 ^ gate.chunkBits : ℕ) : ℤ) = 2 ^ gate.chunkBits := by push_cast; rfl
  generalize hfield : ((2 ^ gate.chunkBits + gate.valueDiff (wires 0).val (wires 1).val : ℤ) :
    GoldilocksField) = field at hassigned
  -- The number of the bits is the difference above `2 ^ chunk_bits`, modulo the order.
  have hmod : (field.val : ℤ) = (2 ^ gate.chunkBits +
      gate.valueDiff (wires 0).val (wires 1).val) % 18446744069414584321 := by
    rw [← hfield]
    exact ZMod.val_intCast _
  have hfieldLt : field.val < goldilocksOrder := ZMod.val_lt _
  have hlt : field.val < 2 ^ (gate.chunkBits + 1) := by
    rcases lt_or_eq_of_le (Nat.lt_succ_iff.mp gate.chunkBits_lt) with hk | hk
    · omega
    · rw [hk]
      omega
  have hsatisfied := hassigned.satisfied (fun i _ => ComparisonGate.chunk_lt _ _ i)
    (fun i _ => ComparisonGate.chunk_lt _ _ i) hlt
    ((ZMod.natCast_zmod_val field).trans hfield.symm)
  have htop := hsatisfied.topBit_eq_one_iff
  rw [hassigned.bitsValue_eq hlt] at htop
  rw [ComparisonGate.forall_mem_evalUnfiltered, hresult]
  constructor
  · rintro ⟨-, heq⟩ hk
    have hdiff := ComparisonGate.valueDiff_eq_sub gate (by omega : (wires 0).val < 2 ^ 63)
      (by omega : (wires 1).val < 2 ^ 63) hk
    by_contra hover
    rw [if_pos (by omega)] at heq
    have hle := htop.mp heq.symm
    rw [hk] at hmod hle
    omega
  · intro hover
    refine ⟨hsatisfied, ?_⟩
    have hcompare : (wires 0).val ≤ (wires 1).val ↔ 2 ^ gate.chunkBits ≤ field.val := by
      rcases lt_or_eq_of_le (Nat.lt_succ_iff.mp gate.chunkBits_lt) with hk | hk
      · have hle : 2 ^ (gate.chunkBits + 1) ≤ 2 ^ 63 := Nat.pow_le_pow_right two_pos (by omega)
        omega
      · have hdiff := ComparisonGate.valueDiff_eq_sub gate
          (by omega : (wires 0).val < 2 ^ 63) (by omega : (wires 1).val < 2 ^ 63) hk
        have hno := hover hk
        rw [hk] at hmod ⊢
        omega
    split_ifs with hle
    · exact (htop.mpr (hcompare.mp hle)).symm
    · have hne : wires (gate.wireMostSignificantDiffBit gate.chunkBits) ≠ 1 := by
        intro hone
        exact hle (hcompare.mpr (htop.mp hone))
      have hbit := hsatisfied.bit_lt gate.chunkBits (Nat.lt_succ_self _)
      rw [ne_eq, bit_eq_one_iff hbit] at hne
      exact ((ZMod.val_eq_zero _).mp (by omega)).symm

end Comparison

/-! ### Interleaving -/

/-- The bits of a number at twice their places. -/
lemma foldl_interleave (x n : ℕ) :
    (List.range n).foldl
        (fun s j => s + (x >>> (n - j - 1)) % 2 * (1 <<< (2 * (n - j - 1)))) 0 =
      evalSum (fun j => x / 2 ^ j % 2) n (2 * 2) := by
  rw [foldl_add_range, ← evalSum_congr fun j hj => ?_, ← sum_reflect_eq]
  · apply Finset.sum_congr rfl
    intro j _
    rw [Nat.shiftRight_eq_div_pow, Nat.one_shiftLeft, pow_mul, Nat.sub_right_comm]
    rfl
  · have hplace : n - 1 - (n - 1 - j) = j := by omega
    rw [hplace]

/-- The constraints of an operation vanish for the bits of `x`. -/
lemma u32InterleaveGenerator_satisfies {numOps i : ℕ} (hx : (wires (2 * i)).val < 2 ^ 32)
    (hran : (u32InterleaveGenerator numOps i).Ran wires) :
    reduceWithPowers ((2 : ℕ) : GoldilocksField)
        ((List.range 32).map fun j => wires (numOps * 2 + 32 * i + j)).reverse = wires (2 * i) ∧
      reduceWithPowers ((2 * 2 : ℕ) : GoldilocksField)
        ((List.range 32).map fun j => wires (numOps * 2 + 32 * i + j)).reverse =
          wires (2 * i + 1) ∧
      ∀ j < 32, (wires (numOps * 2 + 32 * i + j)).val < 2 := by
  have hran' : ((List.range 32).map (fun j => numOps * 2 + 32 * i + j) ++ [2 * i + 1]).map wires =
      u32InterleaveGeneratorNew fun _ => wires (2 * i) := hran
  rw [List.map_append, u32InterleaveGeneratorNew] at hran'
  obtain ⟨hbits, hsum⟩ := List.append_inj hran' (by simp)
  simp only [List.map_map, List.map_inj_left, List.mem_range, Nat.shiftRight_eq_div_pow]
    at hbits
  have hbit : ∀ j < 32, wires (numOps * 2 + 32 * i + (32 - 1 - j)) =
      ((wires (2 * i)).val / 2 ^ j % 2 : ℕ) := by
    intro j hj
    have hplace : 32 - (32 - 1 - j) - 1 = j := by omega
    have hread := hbits (32 - 1 - j) (by omega)
    rw [hplace] at hread
    exact hread
  refine ⟨?_, ?_, ?_⟩
  · rw [reduceWithPowers_range_reverse, evalSum_digits hx hbit, ZMod.natCast_zmod_val]
  · rw [reduceWithPowers_range_reverse, PrimeDigits.evalSum_natCast hbit]
    simp only [List.map_cons, List.map_nil, List.cons.injEq, and_true] at hsum
    rw [hsum, foldl_interleave]
  · intro j hj
    have hplace : 32 - 1 - (32 - 1 - j) = j := by omega
    rw [← hplace, hbit (32 - 1 - j) (by omega)]
    exact val_natCast_digit _ _ (by decide) (by decide)

/-- A bit of a number with the coefficients of a split. -/
lemma foldl_uninterleave (even odd : ℕ → ℕ) (n : ℕ) :
    (List.range n).foldl (fun (s : ℕ × ℕ) j =>
        (s.1 + even j * (1 <<< (n - j - 1)), s.2 + odd j * (1 <<< (n - j - 1)))) (0, 0) =
      (evalSum (fun j => even (n - 1 - j)) n 2, evalSum (fun j => odd (n - 1 - j)) n 2) := by
  have hcoeff : ∀ f : ℕ → ℕ, ∑ j ∈ Finset.range n, f j * (1 <<< (n - j - 1)) =
      evalSum (fun j => f (n - 1 - j)) n 2 := by
    intro f
    rw [← sum_reflect_eq]
    apply Finset.sum_congr rfl
    intro j _
    rw [Nat.one_shiftLeft, Nat.sub_right_comm]
  rw [foldl_add_pair, hcoeff, hcoeff]

lemma uninterleaveToU32Generator_satisfied {numOps i : ℕ}
    (hran : (uninterleaveToU32Generator numOps i).Ran wires) :
    UninterleaveToU32Gate.Satisfied wires numOps i := by
  have hran' : ((List.range 32).flatMap
        (fun j => [2 * j + numOps * 3 + 64 * i, 2 * j + 1 + numOps * 3 + 64 * i]) ++
          [3 * i + 1, 3 * i + 2]).map wires =
      uninterleaveToU32GeneratorNew fun _ => wires (3 * i) := hran
  have hhalf : 64 / 2 = 32 := rfl
  rw [List.map_append, List.map_flatMap, uninterleaveToU32GeneratorNew] at hran'
  simp only [hhalf, foldl_uninterleave] at hran'
  obtain ⟨hbits, hsums⟩ := List.append_inj' hran'
    (by simp only [List.length_map, List.length_cons, List.length_nil])
  have hpairs := flatMap_inj (n := 2) (fun _ _ => rfl) (fun _ _ => rfl) hbits
  simp only [List.map_cons, List.map_nil, List.cons.injEq, and_true, List.mem_range,
    Nat.shiftRight_eq_div_pow] at hpairs hsums
  have heven : ∀ j < 32, wires (numOps * 3 + 64 * i + 2 * (31 - j)) =
      ((wires (3 * i)).val / 2 ^ (2 * j + 1) % 2 : ℕ) := by
    intro j hj
    have hplace : 2 * (32 - (31 - j) - 1) + 1 = 2 * j + 1 := by omega
    have hcolumn : 2 * (31 - j) + numOps * 3 + 64 * i = numOps * 3 + 64 * i + 2 * (31 - j) := by
      omega
    have hpair := (hpairs (31 - j) (by omega)).1
    rwa [hplace, hcolumn] at hpair
  have hodd : ∀ j < 32, wires (numOps * 3 + 64 * i + (2 * (31 - j) + 1)) =
      ((wires (3 * i)).val / 2 ^ (2 * j) % 2 : ℕ) := by
    intro j hj
    have hplace : 2 * (32 - (31 - j) - 1) = 2 * j := by omega
    have hcolumn : 2 * (31 - j) + 1 + numOps * 3 + 64 * i =
        numOps * 3 + 64 * i + (2 * (31 - j) + 1) := by omega
    have hpair := (hpairs (31 - j) (by omega)).2
    rwa [hplace, hcolumn] at hpair
  have hbit : ∀ j < 64, wires (numOps * 3 + 64 * i + (63 - j)) =
      ((wires (3 * i)).val / 2 ^ j % 2 : ℕ) := by
    intro j hj
    rcases Nat.even_or_odd' j with ⟨k, rfl | rfl⟩
    · have hplace : 63 - 2 * k = 2 * (31 - k) + 1 := by omega
      rw [hplace, hodd k (by omega)]
    · have hplace : 63 - (2 * k + 1) = 2 * (31 - k) := by omega
      rw [hplace, heven k (by omega)]
  have hlt : (wires (3 * i)).val < 2 ^ 64 := (ZMod.val_lt _).trans (by decide)
  constructor
  · intro j hj
    have hplace : 63 - (63 - j) = j := by omega
    rw [← hplace, hbit (63 - j) (by omega)]
    exact val_natCast_digit _ _ (by decide) (by decide)
  · rw [evalSum_digits hlt hbit, ZMod.natCast_zmod_val]
  · rw [PrimeDigits.evalSum_natCast heven, hsums.1]
    refine congrArg Nat.cast (evalSum_congr ?_ 2)
    intro j hj
    have hplace : 2 * (32 - (32 - 1 - j) - 1) + 1 = 2 * j + 1 := by omega
    rw [hplace]
  · rw [PrimeDigits.evalSum_natCast hodd, hsums.2]
    refine congrArg Nat.cast (evalSum_congr ?_ 2)
    intro j hj
    have hplace : 2 * (32 - (32 - 1 - j) - 1) = 2 * j := by omega
    rw [hplace]

/-! ### Range checks, subtraction and base sums -/

lemma u32RangeCheckGenerator_satisfies {numInputLimbs i : ℕ} (hi : i < numInputLimbs)
    (hlimb : (wires i).val < 2 ^ 32) (hran : (u32RangeCheckGenerator numInputLimbs).Ran wires) :
    evalSum (fun j => wires (numInputLimbs + 16 * i + j)) 16 ((4 : ℕ) : GoldilocksField) =
        wires i ∧
      ∀ j < 16, (wires (numInputLimbs + 16 * i + j)).val < 4 := by
  have hread : (u32RangeCheckGenerator numInputLimbs).read wires i = wires i := by
    have hlen : i < ((List.range numInputLimbs).map wires).length := by
      rwa [List.length_map, List.length_range]
    exact (List.getD_eq_getElem _ _ hlen).trans
      ((List.getElem_map _).trans (congrArg wires (List.getElem_range _)))
  have hran' : ((List.range numInputLimbs).flatMap fun i =>
        (List.range 16).map fun j => numInputLimbs + 16 * i + j).map wires =
      (List.range numInputLimbs).flatMap fun i =>
        splitLoop 4 16 (((u32RangeCheckGenerator numInputLimbs).read wires i).val % 2 ^ 32) := hran
  rw [List.map_flatMap] at hran'
  have hlimbs := flatMap_inj (n := 16) (fun _ _ => by simp) (fun _ _ => by simp [splitLoop_eq])
    hran' i (List.mem_range.mpr hi)
  rw [splitLoop_eq, hread, Nat.mod_eq_of_lt hlimb] at hlimbs
  simp only [List.map_map, List.map_inj_left, List.mem_range] at hlimbs
  constructor
  · exact (evalSum_digits (b := 4) hlimb hlimbs).trans (ZMod.natCast_zmod_val _)
  · intro j hj
    have haux : wires (numInputLimbs + 16 * i + j) = ((wires i).val / 4 ^ j % 4 : ℕ) := hlimbs j hj
    rw [haux]
    exact val_natCast_digit _ _ (by decide) (by decide)

/-- The borrow is one where the difference is negative. -/
lemma u32SubtractionGenerator_satisfies {numOps i : ℕ} (hx : (wires (5 * i)).val < 2 ^ 32)
    (hy : (wires (5 * i + 1)).val < 2 ^ 32) (hborrow : (wires (5 * i + 2)).val < 2)
    (hran : (u32SubtractionGenerator numOps i).Ran wires) :
    wires (5 * i + 3) = wires (5 * i) - wires (5 * i + 1) - wires (5 * i + 2) +
        ((2 ^ 32 : ℕ) : GoldilocksField) * wires (5 * i + 4) ∧
      (∀ j < 16, (wires (5 * numOps + 16 * i + j)).val < 4) ∧
      evalSum (fun j => wires (5 * numOps + 16 * i + j)) 16 ((4 : ℕ) : GoldilocksField) =
        wires (5 * i + 3) ∧
      wires (5 * i + 4) * (1 - wires (5 * i + 4)) = 0 := by
  have horder := goldilocksOrder_eq
  generalize hinitial : wires (5 * i) - wires (5 * i + 1) - wires (5 * i + 2) = initial
  have hran' : ((List.range 16).map (fun j => 5 * numOps + 16 * i + j) ++
        [5 * i + 3, 5 * i + 4]).map wires =
      splitLoop 4 16 (initial + ((1 <<< 32 : ℕ) : GoldilocksField) *
          if 1 <<< 32 < initial.val then 1 else 0).val ++
        [initial + ((1 <<< 32 : ℕ) : GoldilocksField) * if 1 <<< 32 < initial.val then 1 else 0,
          if 1 <<< 32 < initial.val then 1 else 0] := by
    rw [← hinitial]
    exact hran
  rw [List.map_append, splitLoop_eq, Nat.one_shiftLeft] at hran'
  obtain ⟨hlimbs, houtputs⟩ := List.append_inj hran' (by simp)
  simp only [List.map_map, List.map_inj_left, List.mem_range] at hlimbs
  simp only [List.map_cons, List.map_nil, List.cons.injEq, and_true] at houtputs
  obtain ⟨hresult, hborrowOut⟩ := houtputs
  rw [← hresult] at hlimbs
  -- The difference as an integer, and its canonical value.
  have hdiff : initial = (((wires (5 * i)).val - (wires (5 * i + 1)).val -
      (wires (5 * i + 2)).val : ℤ) : GoldilocksField) := by
    push_cast
    rw [ZMod.natCast_zmod_val, ZMod.natCast_zmod_val, ZMod.natCast_zmod_val, hinitial]
  have hvalue : (initial.val : ℤ) = ((wires (5 * i)).val - (wires (5 * i + 1)).val -
      (wires (5 * i + 2)).val) % 18446744069414584321 := by
    rw [hdiff]
    exact ZMod.val_intCast _
  have hlt : (wires (5 * i + 3)).val < 4 ^ 16 := by
    by_cases hnegative : 2 ^ 32 < initial.val
    · rw [if_pos hnegative, mul_one, hdiff, ← Int.cast_natCast (2 ^ 32), ← Int.cast_add]
        at hresult
      have hval : ((wires (5 * i + 3)).val : ℤ) = ((wires (5 * i)).val - (wires (5 * i + 1)).val -
          (wires (5 * i + 2)).val + ((2 ^ 32 : ℕ) : ℤ)) % 18446744069414584321 := by
        rw [hresult]
        exact ZMod.val_intCast _
      omega
    · rw [if_neg hnegative, mul_zero, add_zero] at hresult
      rw [hresult]
      omega
  refine ⟨by rw [hresult, hborrowOut], ?_, ?_, ?_⟩
  · intro j hj
    have hlimb : wires (5 * numOps + 16 * i + j) = ((wires (5 * i + 3)).val / 4 ^ j % 4 : ℕ) :=
      hlimbs j hj
    rw [hlimb]
    exact val_natCast_digit _ _ (by decide) (by decide)
  · exact (evalSum_digits hlt hlimbs).trans (ZMod.natCast_zmod_val _)
  · rw [hborrowOut]
    split_ifs
    · rw [sub_self, mul_zero]
    · rw [zero_mul]

lemma baseSplitGenerator_satisfies {numLimbs b : ℕ} (hsum : (wires 0).val < b ^ numLimbs)
    (hran : (baseSplitGenerator numLimbs b).Ran wires) :
    ∀ cons ∈ BaseSumGate.evalUnfiltered wires numLimbs b, cons = 0 := by
  have hran' : ((List.range numLimbs).map (1 + ·)).map wires =
      splitLoop b numLimbs (wires 0).val := hran
  rw [splitLoop_eq, List.map_map, List.map_inj_left] at hran'
  have hlimb : ∀ j < numLimbs, wires (1 + j) = ((wires 0).val / b ^ j % b : ℕ) := by
    intro j hj
    exact hran' j (List.mem_range.mpr hj)
  rw [BaseSumGate.evalUnfiltered, List.forall_mem_cons, reduceWithPowers_range, sub_eq_zero,
    List.map_map, List.forall_mem_map]
  constructor
  · rw [evalSum_digits hsum hlimb, ZMod.natCast_zmod_val]
  · intro j hj
    have hj' := List.mem_range.mp hj
    have hb : 0 < b := by
      rw [Nat.pos_iff_ne_zero]
      rintro rfl
      rw [zero_pow (by omega)] at hsum
      exact absurd hsum (Nat.not_lt_zero _)
    rw [Function.comp_apply, hlimb j hj']
    exact rangeProduct_natCast (Nat.mod_lt _ hb)

/-! ### Random access -/

section RandomAccess

/-- The bits of an index select its element. -/
lemma foldl_foldPairs_bits (n index : ℕ) (items : ℕ → GoldilocksField) :
    ((List.range n).map fun j => ((index / 2 ^ j % 2 : ℕ) : GoldilocksField)).foldl
        (fun items b => RandomAccessGate.foldPairs b items) ((List.range (2 ^ n)).map items) =
      [items (index % 2 ^ n)] := by
  induction n generalizing index items with
  | zero => simp [Nat.mod_one]
  | succ n ih =>
    have hhalf : RandomAccessGate.foldPairs ((index % 2 : ℕ) : GoldilocksField)
        ((List.range (2 ^ (n + 1))).map items) =
        (List.range (2 ^ n)).map fun j => items (2 * j + index % 2) := by
      rw [pow_succ' 2 n, foldPairs_map_range]
      apply List.map_congr_left
      intro j _
      rcases Nat.mod_two_eq_zero_or_one index with hbit | hbit
      · rw [hbit, Nat.cast_zero, zero_mul, add_zero, add_zero]
      · rw [hbit, Nat.cast_one, one_mul, add_sub_cancel]
    have hshift : ((fun j => ((index / 2 ^ j % 2 : ℕ) : GoldilocksField)) ∘ Nat.succ) =
        fun j => ((index / 2 / 2 ^ j % 2 : ℕ) : GoldilocksField) := by
      funext j
      rw [Function.comp_apply, Nat.div_div_eq_div_mul, ← pow_succ']
    rw [List.range_succ_eq_map, List.map_cons, List.map_map, hshift, List.foldl_cons, pow_zero,
      Nat.div_one, hhalf, ih (index / 2), pow_succ' 2 n, Nat.mod_mul, add_comm]

lemma reconstructIndex_eq (bit : ℕ → GoldilocksField) (n : ℕ) (acc : GoldilocksField) :
    reconstructIndex bit n acc = hornerFrom bit ((2 : ℕ) : GoldilocksField) n acc := by
  induction n generalizing acc with
  | zero => rfl
  | succ n ih =>
    have htwo : acc + acc + bit n = acc * ((2 : ℕ) : GoldilocksField) + bit n := by
      push_cast
      ring
    rw [reconstructIndex, hornerFrom, ih, htwo]

variable {gate : RandomAccessGate} {copy : ℕ}

lemma randomAccessGenerator_satisfies
    (hindex : (wires (gate.wireAccessIndex copy)).val < 2 ^ gate.bits)
    (hran : (randomAccessGenerator gate copy).Ran wires) :
    ∀ cons ∈ gate.evalCopy wires copy, cons = 0 := by
  generalize hvalue : (wires (gate.wireAccessIndex copy)).val = index at hindex
  have haccess : wires (gate.wireAccessIndex copy) = index := by
    rw [← hvalue, ZMod.natCast_zmod_val]
  have hsize : gate.vecSize = 2 ^ gate.bits := Nat.one_shiftLeft _
  have hread : (randomAccessGenerator gate copy).read wires (1 + index) =
      wires (gate.wireListItem index copy) := by
    have hlen : index < (((List.range gate.vecSize).map fun i =>
        gate.wireListItem i copy).map wires).length := by
      rwa [List.length_map, List.length_map, List.length_range, hsize]
    rw [RowGenerator.read, randomAccessGenerator, List.map_cons, add_comm 1 index,
      List.getD_cons_succ, List.getD_eq_getElem _ _ hlen, List.getElem_map, List.getElem_map, List.getElem_range]
  have hran' : (gate.wireClaimedElement copy ::
        (List.range gate.bits).map fun i => gate.wireBit i copy).map wires =
      (randomAccessGenerator gate copy).read wires
          (1 + (wires (gate.wireAccessIndex copy)).val) ::
        (List.range gate.bits).map fun i =>
          ((((wires (gate.wireAccessIndex copy)).val >>> i) &&& 1 : ℕ) : GoldilocksField) := hran
  rw [hvalue, hread, List.map_cons, List.cons.injEq, List.map_map, List.map_inj_left] at hran'
  obtain ⟨hclaimed, hbits⟩ := hran'
  have hbit : ∀ i < gate.bits, wires (gate.wireBit i copy) = (index / 2 ^ i % 2 : ℕ) := by
    intro i hi
    rw [← Nat.shiftRight_eq_div_pow, ← Nat.and_one_is_mod]
    exact hbits i (List.mem_range.mpr hi)
  have hmap : (List.range gate.bits).map (fun i => wires (gate.wireBit i copy)) =
      (List.range gate.bits).map fun i => ((index / 2 ^ i % 2 : ℕ) : GoldilocksField) :=
    List.map_congr_left fun i hi => hbit i (List.mem_range.mp hi)
  have hselected := foldl_foldPairs_bits gate.bits index fun i => wires (gate.wireListItem i copy)
  rw [RandomAccessGate.evalCopy, List.forall_mem_append, List.forall_mem_cons,
    List.forall_mem_singleton, foldl_reverse_eq_reconstructIndex, reconstructIndex_eq,
    hornerFrom_eq, zero_mul, zero_add, evalSum_digits hindex hbit, haccess, sub_self, hmap, hsize,
    hselected, Nat.mod_eq_of_lt hindex, List.headD_cons, hclaimed, sub_self, List.forall_mem_map]
  refine ⟨?_, rfl, rfl⟩
  intro b hb
  obtain ⟨i, -, rfl⟩ := List.mem_map.mp hb
  rcases Nat.mod_two_eq_zero_or_one (index / 2 ^ i) with hzero | hone
  · rw [hzero, Nat.cast_zero, zero_mul]
  · rw [hone, Nat.cast_one, sub_self, mul_zero]

end RandomAccess

/-! ### The gates together -/

/-- A gate whose wires are generated by one of the eight kernels, with its parameters. -/
inductive GeneratedGate
  | u32Arithmetic (numOps : ℕ)
  | comparison (gate : ComparisonGate)
  | u32Interleave (numOps : ℕ)
  | uninterleaveToU32 (numOps : ℕ)
  | u32RangeCheck (numInputLimbs : ℕ)
  | u32Subtraction (numOps : ℕ)
  | baseSum (numLimbs b : ℕ)
  | randomAccess (gate : RandomAccessGate)

namespace GeneratedGate

/-- `generators` of the gate. -/
def generators : GeneratedGate → List RowGenerator
  | .u32Arithmetic numOps => (List.range numOps).map (u32ArithmeticGenerator numOps)
  | .comparison gate => [comparisonGenerator gate]
  | .u32Interleave numOps => (List.range numOps).map (u32InterleaveGenerator numOps)
  | .uninterleaveToU32 numOps => (List.range numOps).map (uninterleaveToU32Generator numOps)
  | .u32RangeCheck numInputLimbs => [u32RangeCheckGenerator numInputLimbs]
  | .u32Subtraction numOps => (List.range numOps).map (u32SubtractionGenerator numOps)
  | .baseSum numLimbs b => [baseSplitGenerator numLimbs b]
  | .randomAccess gate => (List.range gate.numCopies).map (randomAccessGenerator gate)

/-- `eval_unfiltered` of the gate. -/
def evalUnfiltered (wires constants : ℕ → GoldilocksField) :
    GeneratedGate → List GoldilocksField
  | .u32Arithmetic numOps => U32ArithmeticGate.evalUnfiltered wires numOps
  | .comparison gate => gate.evalUnfiltered wires
  | .u32Interleave numOps => U32InterleaveGate.evalUnfiltered wires numOps
  | .uninterleaveToU32 numOps => UninterleaveToU32Gate.evalUnfiltered wires numOps
  | .u32RangeCheck numInputLimbs => U32RangeCheckGate.evalUnfiltered wires numInputLimbs
  | .u32Subtraction numOps => U32SubtractionGate.evalUnfiltered wires numOps
  | .baseSum numLimbs b => BaseSumGate.evalUnfiltered wires numLimbs b
  | .randomAccess gate => gate.evalUnfiltered wires constants

/-- The constraints that the gate's kernel adds. -/
def evalPartial (wires constants : ℕ → GoldilocksField) : GeneratedGate → List GoldilocksField
  | .u32Arithmetic numOps => u32ArithmeticGatePartial wires numOps
  | .comparison gate => comparisonGatePartial wires gate.numBits gate.numChunks
  | .u32Interleave numOps => u32InterleaveGatePartial wires numOps
  | .uninterleaveToU32 numOps => uninterleaveToU32GatePartial wires numOps
  | .u32RangeCheck numInputLimbs => u32RangeCheckGatePartial wires numInputLimbs
  | .u32Subtraction numOps => u32SubtractionGatePartial wires numOps
  | .baseSum numLimbs b => baseSumGatePartial wires numLimbs b
  | .randomAccess gate =>
    (List.range gate.numCopies).flatMap
        (copyConstraints wires gate.bits gate.numCopies gate.numExtraConstants) ++
      (List.range gate.numExtraConstants).map fun i =>
        constants i - wires ((2 + 1 <<< gate.bits) * gate.numCopies + i)

lemma evalPartial_eq (wires constants : ℕ → GoldilocksField) (gate : GeneratedGate) :
    gate.evalPartial wires constants = gate.evalUnfiltered wires constants := by
  cases gate with
  | u32Arithmetic numOps => exact u32ArithmeticGatePartial_eq wires numOps
  | comparison gate => exact comparisonGatePartial_eq wires gate
  | u32Interleave numOps => exact u32InterleaveGatePartial_eq wires numOps
  | uninterleaveToU32 numOps => exact uninterleaveToU32GatePartial_eq wires numOps
  | u32RangeCheck numInputLimbs => exact u32RangeCheckGatePartial_eq wires numInputLimbs
  | u32Subtraction numOps => exact u32SubtractionGatePartial_eq wires numOps
  | baseSum numLimbs b => exact baseSumGatePartial_eq wires numLimbs b
  | randomAccess gate =>
    rw [evalPartial, funext fun copy => gate.copyConstraints_eq wires copy]
    rfl

/-- Operands of 32 bits, borrow bits, and values of at most the declared length. -/
def InRange (wires : ℕ → GoldilocksField) : GeneratedGate → Prop
  | .u32Arithmetic numOps => ∀ i < numOps, (wires (6 * i)).val < 2 ^ 32 ∧
      (wires (6 * i + 1)).val < 2 ^ 32 ∧ (wires (6 * i + 2)).val < 2 ^ 32
  | .comparison gate => (wires 0).val < 2 ^ gate.numBits ∧ (wires 1).val < 2 ^ gate.numBits
  | .u32Interleave numOps => ∀ i < numOps, (wires (2 * i)).val < 2 ^ 32
  | .uninterleaveToU32 _ => True
  | .u32RangeCheck numInputLimbs => ∀ i < numInputLimbs, (wires i).val < 2 ^ 32
  | .u32Subtraction numOps => ∀ i < numOps, (wires (5 * i)).val < 2 ^ 32 ∧
      (wires (5 * i + 1)).val < 2 ^ 32 ∧ (wires (5 * i + 2)).val < 2
  | .baseSum numLimbs b => (wires 0).val < b ^ numLimbs
  | .randomAccess gate => ∀ copy < gate.numCopies,
      (wires (gate.wireAccessIndex copy)).val < 2 ^ gate.bits

/-- The extra constants of a random access gate stand in their wires, where the constant generators
write them. -/
def HoldsConstants (wires constants : ℕ → GoldilocksField) : GeneratedGate → Prop
  | .randomAccess gate =>
    ∀ i < gate.numExtraConstants, wires (gate.wireExtraConstant i) = constants i
  | _ => True

/-- The difference of the inputs above `2 ^ 63` does not pass the order, where the comparison has
one chunk of 63 bits. -/
def NoOverflow (wires : ℕ → GoldilocksField) : GeneratedGate → Prop
  | .comparison gate =>
    gate.chunkBits = 63 → (wires 1).val + 2 ^ 63 < (wires 0).val + goldilocksOrder
  | _ => True

variable {constants : ℕ → GoldilocksField}

/-- Every gate but the comparison. -/
lemma generated_satisfies {gate : GeneratedGate} (hgate : ∀ c, gate ≠ .comparison c)
    (hinRange : gate.InRange wires) (hconstants : gate.HoldsConstants wires constants)
    (hran : ∀ g ∈ gate.generators, g.Ran wires) :
    ∀ cons ∈ gate.evalUnfiltered wires constants, cons = 0 := by
  cases gate with
  | u32Arithmetic numOps =>
    rw [evalUnfiltered, U32ArithmeticGate.evalUnfiltered_eq_flatMap, List.forall_mem_flatMap]
    intro i hi
    rw [U32ArithmeticGate.forall_mem_evalOp]
    exact u32ArithmeticGenerator_satisfied (hran _ (List.mem_map_of_mem hi))
  | comparison gate => exact absurd rfl (hgate gate)
  | u32Interleave numOps =>
    rw [evalUnfiltered, U32InterleaveGate.evalUnfiltered, List.forall_mem_flatMap]
    intro i hi
    obtain ⟨hx, hinterleaved, hbits⟩ := u32InterleaveGenerator_satisfies
      (hinRange i (List.mem_range.mp hi)) (hran _ (List.mem_map_of_mem hi))
    rw [List.forall_mem_cons, List.forall_mem_cons, hx, hinterleaved, sub_self, sub_self,
      List.map_map, List.forall_mem_map]
    refine ⟨rfl, rfl, ?_⟩
    intro j hj
    exact (rangeProduct_eq_zero_iff (by decide)).mpr (hbits j (List.mem_range.mp hj))
  | uninterleaveToU32 numOps =>
    rw [evalUnfiltered, UninterleaveToU32Gate.evalUnfiltered_eq_flatMap, List.forall_mem_flatMap]
    intro i hi
    rw [UninterleaveToU32Gate.forall_mem_evalOp]
    exact uninterleaveToU32Generator_satisfied (hran _ (List.mem_map_of_mem hi))
  | u32RangeCheck numInputLimbs =>
    have haux : U32RangeCheckGate.auxLimbsPerInputLimb = 16 := rfl
    have hbase : U32RangeCheckGate.base = 4 := rfl
    rw [evalUnfiltered, U32RangeCheckGate.evalUnfiltered, List.forall_mem_flatMap]
    intro i hi
    have hi' := List.mem_range.mp hi
    obtain ⟨hsum, hlimbs⟩ := u32RangeCheckGenerator_satisfies hi' (hinRange i hi')
      (hran _ List.mem_cons_self)
    rw [haux, hbase, List.forall_mem_cons, reduceWithPowers_range, hsum, sub_self, List.map_map,
      List.forall_mem_map]
    refine ⟨rfl, ?_⟩
    intro j hj
    exact (rangeProduct_eq_zero_iff (by decide)).mpr (hlimbs j (List.mem_range.mp hj))
  | u32Subtraction numOps =>
    have hnum : U32SubtractionGate.numLimbs = 16 := rfl
    have hbound : 1 <<< U32SubtractionGate.limbBits = 4 := rfl
    have hbase : 1 <<< 32 = 2 ^ 32 := rfl
    rw [evalUnfiltered, U32SubtractionGate.evalUnfiltered, List.forall_mem_flatMap]
    intro i hi
    obtain ⟨hx, hy, hborrow⟩ := hinRange i (List.mem_range.mp hi)
    obtain ⟨hresult, hlimbs, hsum, hbit⟩ :=
      u32SubtractionGenerator_satisfies hx hy hborrow (hran _ (List.mem_map_of_mem hi))
    have hrange : ∀ cons ∈
        (limbFold 4 4 16 (16 + 0) fun j => wires (5 * numOps + 16 * i + j)).1, cons = 0 :=
      (forall_mem_limbFold (by decide)).mpr hlimbs
    have hfold := limbFold_eq 4 4 16 (fun j => wires (5 * numOps + 16 * i + j)) 0
    simp only [hnum, hbound, hbase]
    rw [List.forall_mem_cons, List.forall_mem_append, List.forall_mem_cons,
      List.forall_mem_singleton, hbit]
    rw [add_zero] at hrange hfold
    refine ⟨sub_eq_zero.mpr hresult, hrange, ?_, rfl⟩
    rw [hfold, hsum, sub_self]
  | baseSum numLimbs b => exact baseSplitGenerator_satisfies hinRange (hran _ List.mem_cons_self)
  | randomAccess gate =>
    rw [evalUnfiltered, RandomAccessGate.evalUnfiltered, List.forall_mem_append,
      List.forall_mem_flatMap, List.forall_mem_map]
    constructor
    · intro copy hcopy
      exact randomAccessGenerator_satisfies (hinRange copy (List.mem_range.mp hcopy))
        (hran _ (List.mem_map_of_mem hcopy))
    · intro i hi
      rw [hconstants i (List.mem_range.mp hi), sub_self]

/-- A kernel writes one value for each output target. -/
lemma length_kernel (gate : GeneratedGate) :
    ∀ g ∈ gate.generators, ∀ read, (g.kernel read).length = g.outputTargets.length := by
  cases gate with
  | u32Arithmetic numOps =>
    intro g hg read
    obtain ⟨i, -, rfl⟩ := List.mem_map.mp hg
    simp [u32ArithmeticGenerator, u32ArithmeticGeneratorNew, splitLoop_eq,
      U32ArithmeticGate.numLimbs, U32ArithmeticGate.limbBits]
  | comparison gate =>
    intro g hg read
    obtain rfl := List.mem_singleton.mp hg
    have hbits : (gate.numBits + gate.numChunks - 1) / gate.numChunks = gate.chunkBits := rfl
    simp [comparisonGenerator, comparisonGeneratorNew, splitLoop_eq, length_comparisonLoop, hbits]
  | u32Interleave numOps =>
    intro g hg read
    obtain ⟨i, -, rfl⟩ := List.mem_map.mp hg
    simp [u32InterleaveGenerator, u32InterleaveGeneratorNew]
  | uninterleaveToU32 numOps =>
    intro g hg read
    obtain ⟨i, -, rfl⟩ := List.mem_map.mp hg
    simp [uninterleaveToU32Generator, uninterleaveToU32GeneratorNew]
  | u32RangeCheck numInputLimbs =>
    intro g hg read
    obtain rfl := List.mem_singleton.mp hg
    have haux : U32RangeCheckGate.auxLimbsPerInputLimb = 16 := rfl
    simp [u32RangeCheckGenerator, u32RangeCheckGeneratorNew, splitLoop_eq, haux]
  | u32Subtraction numOps =>
    intro g hg read
    obtain ⟨i, -, rfl⟩ := List.mem_map.mp hg
    simp [u32SubtractionGenerator, u32SubtractionGeneratorNew, splitLoop_eq,
      U32SubtractionGate.numLimbs, U32SubtractionGate.limbBits]
  | baseSum numLimbs b =>
    intro g hg read
    obtain rfl := List.mem_singleton.mp hg
    simp [baseSplitGenerator, baseSplitGeneratorNew, splitLoop_eq]
  | randomAccess gate =>
    intro g hg read
    obtain ⟨copy, -, rfl⟩ := List.mem_map.mp hg
    simp [randomAccessGenerator, randomAccessGeneratorNew]

section ZeroRow

/-- The row that compares zero with `v`, after its generator ran. -/
def zeroRow (gate : ComparisonGate) (v : ℕ) : ℕ → GoldilocksField :=
  RowGenerator.runAll (generators (.comparison gate)) fun column =>
    if column = 1 then (v : GoldilocksField) else 0

variable {gate : ComparisonGate} {v : ℕ}

lemma ran_zeroRow (hnodup : (comparisonGenerator gate).outputTargets.Nodup)
    (hinputs : ∀ column ∈ [0, 1], column ∉ (comparisonGenerator gate).outputTargets) :
    ∀ g ∈ generators (.comparison gate), g.Ran (zeroRow gate v) := by
  have htargets : (generators (.comparison gate)).flatMap RowGenerator.outputTargets =
      (comparisonGenerator gate).outputTargets := List.flatMap_singleton _ _
  apply RowGenerator.ran_runAll (length_kernel _)
  · rwa [htargets]
  · intro g hg
    obtain rfl := List.mem_singleton.mp hg
    rwa [htargets]

lemma zeroRow_input {column : ℕ} (h : column ∉ (comparisonGenerator gate).outputTargets) :
    zeroRow gate v column = if column = 1 then (v : GoldilocksField) else 0 := by
  apply RowGenerator.runAll_of_notMem
  rwa [generators, List.flatMap_singleton]

end ZeroRow

/-- 32 bits in 16 chunks. -/
def sixteenChunks : ComparisonGate := ⟨32, 16, by decide, by decide⟩

/-- 63 bits in one chunk. -/
def oneChunk : ComparisonGate := ⟨63, 1, ComparisonGate.sixtyThree_lt, by decide⟩

end GeneratedGate

end MegaZK
