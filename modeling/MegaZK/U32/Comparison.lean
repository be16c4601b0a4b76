import MegaZK.U32.Limbs

/-! # The comparison gate

A row whose constraints vanish compares the numbers of its chunks. These are the inputs where the
chunks do not reach the order; otherwise a number above the order stands for an input as well. -/

namespace MegaZK

open Horner Radix

namespace ComparisonGate

variable (gate : ComparisonGate)

lemma chunkBits_lt : gate.chunkBits < 64 := by
  have hbits := gate.numBits_lt
  have hpos := gate.numChunks_pos
  have hle : gate.chunkBits < gate.numBits + 1 := by
    rw [chunkBits, ceilDivUsize, Nat.div_lt_iff_lt_mul hpos, Nat.add_mul]
    have hmul := Nat.le_mul_of_pos_right gate.numBits hpos
    omega
  omega

lemma numBits_le : gate.numBits ≤ gate.chunkBits * gate.numChunks := by
  have hpos := gate.numChunks_pos
  have hlt := Nat.lt_div_mul_add hpos (a := gate.numBits + gate.numChunks - 1)
  rw [chunkBits, ceilDivUsize]
  omega

lemma two_pow_chunkBits_le : 2 ^ gate.chunkBits ≤ goldilocksOrder := by
  have hlt := gate.chunkBits_lt
  have horder := goldilocksOrder_eq
  have hpow : 2 ^ gate.chunkBits ≤ 2 ^ 63 := Nat.pow_le_pow_right (by decide) (by omega)
  omega

/-! ### The loop over the chunks -/

section Chunks

variable (wires : ℕ → GoldilocksField)

/-- `most_significant_diff_so_far` after `n` chunks. -/
def diffSoFar : ℕ → GoldilocksField
  | 0 => 0
  | n + 1 => wires (gate.wireIntermediateValue n) + (1 - wires (gate.wireChunksEqual n)) *
      (wires (gate.wireSecondChunkVal n) - wires (wireFirstChunkVal n))

/-- What the constraints of a chunk say. -/
structure ChunkSatisfied (i : ℕ) : Prop where
  first_lt : (wires (wireFirstChunkVal i)).val < 2 ^ gate.chunkBits
  second_lt : (wires (gate.wireSecondChunkVal i)).val < 2 ^ gate.chunkBits
  dummy : (wires (gate.wireSecondChunkVal i) - wires (wireFirstChunkVal i)) *
    wires (gate.wireEqualityDummy i) = 1 - wires (gate.wireChunksEqual i)
  equal : wires (gate.wireChunksEqual i) *
    (wires (gate.wireSecondChunkVal i) - wires (wireFirstChunkVal i)) = 0
  intermediate : wires (gate.wireIntermediateValue i) =
    wires (gate.wireChunksEqual i) * gate.diffSoFar wires i

lemma forall_mem_foldl_chunks (n : ℕ) :
    let chunks := (List.range n).foldl
      (fun (s : List GoldilocksField × GoldilocksField) i =>
        let firstChunk := wires (wireFirstChunkVal i)
        let secondChunk := wires (gate.wireSecondChunkVal i)
        let difference := secondChunk - firstChunk
        let equalityDummy := wires (gate.wireEqualityDummy i)
        let chunksEqual := wires (gate.wireChunksEqual i)
        let intermediateValue := wires (gate.wireIntermediateValue i)
        (s.1 ++ [rangeProduct (1 <<< gate.chunkBits) firstChunk,
          rangeProduct (1 <<< gate.chunkBits) secondChunk,
          difference * equalityDummy - (1 - chunksEqual),
          chunksEqual * difference,
          intermediateValue - chunksEqual * s.2],
          intermediateValue + (1 - chunksEqual) * difference))
      ([], 0)
    ((∀ cons ∈ chunks.1, cons = 0) ↔ ∀ i < n, gate.ChunkSatisfied wires i) ∧
      chunks.2 = gate.diffSoFar wires n := by
  induction n with
  | zero => simp [diffSoFar]
  | succ n ih =>
    obtain ⟨hcons, hdiff⟩ := ih
    rw [List.range_succ, List.foldl_append]
    refine ⟨?_, rfl⟩
    rw [List.foldl_cons, List.foldl_nil]
    simp only [Nat.forall_lt_succ_right, List.forall_mem_append]
    rw [hcons, hdiff, List.forall_mem_cons, List.forall_mem_cons, List.forall_mem_cons,
      List.forall_mem_cons, List.forall_mem_singleton, Nat.one_shiftLeft,
      rangeProduct_eq_zero_iff gate.two_pow_chunkBits_le,
      rangeProduct_eq_zero_iff gate.two_pow_chunkBits_le, sub_eq_zero, sub_eq_zero]
    apply and_congr_right
    intro _
    constructor
    · rintro ⟨hfirst, hsecond, hdummy, hequal, hintermediate⟩
      exact ⟨hfirst, hsecond, hdummy, hequal, hintermediate⟩
    · rintro ⟨hfirst, hsecond, hdummy, hequal, hintermediate⟩
      exact ⟨hfirst, hsecond, hdummy, hequal, hintermediate⟩

end Chunks

/-! ### Satisfied constraints -/

section Satisfied

variable (wires : ℕ → GoldilocksField)

/-- What the constraints say, but for the last one. -/
structure Satisfied : Prop where
  first : evalSum (fun i => wires (wireFirstChunkVal i)) gate.numChunks
    ((2 ^ gate.chunkBits : ℕ) : GoldilocksField) = wires 0
  second : evalSum (fun i => wires (gate.wireSecondChunkVal i)) gate.numChunks
    ((2 ^ gate.chunkBits : ℕ) : GoldilocksField) = wires 1
  chunk : ∀ i < gate.numChunks, gate.ChunkSatisfied wires i
  diff : wires 3 = gate.diffSoFar wires gate.numChunks
  bit_lt : ∀ i < gate.chunkBits + 1, (wires (gate.wireMostSignificantDiffBit i)).val < 2
  bits : ((2 ^ gate.chunkBits : ℕ) : GoldilocksField) + wires 3 =
    evalSum (fun i => wires (gate.wireMostSignificantDiffBit i)) (gate.chunkBits + 1)
      ((2 : ℕ) : GoldilocksField)

lemma forall_mem_evalUnfiltered :
    (∀ cons ∈ gate.evalUnfiltered wires, cons = 0) ↔
      gate.Satisfied wires ∧ wires 2 = wires (gate.wireMostSignificantDiffBit gate.chunkBits) := by
  obtain ⟨hchunks, hdiff⟩ := gate.forall_mem_foldl_chunks wires gate.numChunks
  rw [evalUnfiltered, evalChunks, List.forall_mem_append, List.forall_mem_append,
    List.forall_mem_append, List.forall_mem_append, List.forall_mem_cons, List.forall_mem_singleton,
    List.forall_mem_singleton, List.forall_mem_cons, List.forall_mem_singleton, hchunks, hdiff,
    List.map_map, List.forall_mem_map, reduceWithPowers_range, reduceWithPowers_range,
    ← Nat.cast_ofNat (R := GoldilocksField) (n := 2), reduceWithPowers_range, Nat.one_shiftLeft]
  simp only [sub_eq_zero, Function.comp_apply, List.mem_range, bit_eq_zero_iff]
  constructor
  · rintro ⟨⟨⟨⟨⟨hfirst, hsecond⟩, hchunk⟩, hmsd⟩, hbit⟩, hbits, hresult⟩
    exact ⟨⟨hfirst, hsecond, hchunk, hmsd, hbit, hbits⟩, hresult⟩
  · rintro ⟨⟨hfirst, hsecond, hchunk, hmsd, hbit, hbits⟩, hresult⟩
    exact ⟨⟨⟨⟨⟨hfirst, hsecond⟩, hchunk⟩, hmsd⟩, hbit⟩, hbits, hresult⟩

end Satisfied

/-! ### What a satisfied row compares -/

/-- The number of the chunks of the first input. -/
def firstValue (wires : ℕ → GoldilocksField) : ℕ :=
  evalSum (fun i => (wires (wireFirstChunkVal i)).val) gate.numChunks (2 ^ gate.chunkBits)

/-- The number of the chunks of the second input. -/
def secondValue (wires : ℕ → GoldilocksField) : ℕ :=
  evalSum (fun i => (wires (gate.wireSecondChunkVal i)).val) gate.numChunks (2 ^ gate.chunkBits)

/-- The number of the bits of the difference. -/
def bitsValue (wires : ℕ → GoldilocksField) : ℕ :=
  evalSum (fun i => (wires (gate.wireMostSignificantDiffBit i)).val) (gate.chunkBits + 1) 2

/-- The difference of the first different chunks from the top. -/
def chunkDiff (wires : ℕ → GoldilocksField) (n : ℕ) : ℤ :=
  topDiff (fun i => (wires (wireFirstChunkVal i)).val)
    (fun i => (wires (gate.wireSecondChunkVal i)).val) n

variable {gate} {wires : ℕ → GoldilocksField}

/-- `chunks_equal` is one where the chunks are equal and zero where they are not. -/
lemma ChunkSatisfied.chunksEqual_eq {i : ℕ} (h : gate.ChunkSatisfied wires i) :
    wires (gate.wireChunksEqual i) =
      if (wires (wireFirstChunkVal i)).val = (wires (gate.wireSecondChunkVal i)).val then 1
      else 0 := by
  split_ifs with heq
  · have hdummy := h.dummy
    rw [ZMod.val_injective _ heq, sub_self, zero_mul, eq_comm, sub_eq_zero] at hdummy
    exact hdummy.symm
  · have hne : wires (gate.wireSecondChunkVal i) - wires (wireFirstChunkVal i) ≠ 0 := by
      intro hzero
      exact heq (congrArg ZMod.val (sub_eq_zero.mp hzero).symm)
    exact (mul_eq_zero.mp h.equal).resolve_right hne

namespace Satisfied

lemma diffSoFar_eq (h : gate.Satisfied wires) {n : ℕ} (hn : n ≤ gate.numChunks) :
    gate.diffSoFar wires n = (gate.chunkDiff wires n : ℤ) := by
  induction n with
  | zero => simp [diffSoFar, chunkDiff, topDiff]
  | succ n ih =>
    have hchunk := h.chunk n hn
    rw [diffSoFar, hchunk.intermediate, ih (Nat.le_of_succ_le hn), hchunk.chunksEqual_eq, chunkDiff,
      chunkDiff, topDiff]
    split_ifs with heq
    · rw [one_mul, sub_self, zero_mul, add_zero]
    · rw [zero_mul, sub_zero, one_mul, zero_add, Int.cast_sub, Int.cast_natCast, Int.cast_natCast,
        ZMod.natCast_zmod_val, ZMod.natCast_zmod_val]

lemma natCast_firstValue (h : gate.Satisfied wires) :
    (gate.firstValue wires : GoldilocksField) = wires 0 := by
  rw [← h.first, PrimeDigits.evalSum_val, firstValue]

lemma natCast_secondValue (h : gate.Satisfied wires) :
    (gate.secondValue wires : GoldilocksField) = wires 1 := by
  rw [← h.second, PrimeDigits.evalSum_val, secondValue]

/-- The bits denote the difference above `2 ^ chunk_bits`, in the field. -/
lemma natCast_bitsValue (h : gate.Satisfied wires) :
    (gate.bitsValue wires : GoldilocksField) =
      ((2 ^ gate.chunkBits + gate.chunkDiff wires gate.numChunks : ℤ) : GoldilocksField) := by
  rw [bitsValue, ← PrimeDigits.evalSum_val, ← h.bits, h.diff, h.diffSoFar_eq le_rfl]
  push_cast
  rfl

lemma bitsValue_lt (h : gate.Satisfied wires) :
    gate.bitsValue wires < 2 ^ (gate.chunkBits + 1) :=
  evalSum_lt h.bit_lt

lemma firstValue_lt (h : gate.Satisfied wires) :
    gate.firstValue wires < 2 ^ (gate.chunkBits * gate.numChunks) := by
  rw [pow_mul]
  exact evalSum_lt fun i hi => (h.chunk i hi).first_lt

lemma secondValue_lt (h : gate.Satisfied wires) :
    gate.secondValue wires < 2 ^ (gate.chunkBits * gate.numChunks) := by
  rw [pow_mul]
  exact evalSum_lt fun i hi => (h.chunk i hi).second_lt

/-- The difference has the sign of the comparison. -/
lemma firstValue_le_iff (h : gate.Satisfied wires) :
    gate.firstValue wires ≤ gate.secondValue wires ↔ 0 ≤ gate.chunkDiff wires gate.numChunks :=
  evalSum_le_iff (fun i hi => (h.chunk i hi).first_lt) fun i hi => (h.chunk i hi).second_lt

lemma chunkDiff_lt (h : gate.Satisfied wires) :
    -(2 ^ gate.chunkBits : ℤ) < gate.chunkDiff wires gate.numChunks ∧
      gate.chunkDiff wires gate.numChunks < 2 ^ gate.chunkBits := by
  have hlt := topDiff_lt (pow_pos two_pos gate.chunkBits)
    (fun i hi => (h.chunk i hi).first_lt) fun i hi => (h.chunk i hi).second_lt
  push_cast at hlt
  exact hlt

/-- The top bit is set where the number of the bits reaches `2 ^ chunk_bits`. -/
lemma topBit_eq_one_iff (h : gate.Satisfied wires) :
    wires (gate.wireMostSignificantDiffBit gate.chunkBits) = 1 ↔
      2 ^ gate.chunkBits ≤ gate.bitsValue wires := by
  have htop := h.bit_lt gate.chunkBits (Nat.lt_succ_self _)
  have hlow := evalSum_lt (n := gate.chunkBits) fun i hi => h.bit_lt i (Nat.lt_succ_of_lt hi)
  rw [bit_eq_one_iff htop, bitsValue, evalSum_succ]
  constructor
  · intro hone
    rw [hone, one_mul]
    exact Nat.le_add_left _ _
  · intro hle
    by_contra hne
    have hzero : (wires (gate.wireMostSignificantDiffBit gate.chunkBits)).val = 0 := by omega
    rw [hzero, zero_mul, add_zero] at hle
    omega

end Satisfied

/-! ### Rows from chunks and bits -/

section Assigned

variable (gate) (f g : ℕ → ℕ) (w : ℕ)

/-- A row that holds the chunks `f` and `g`, what is computed from them, and the bits of `w`. -/
structure Assigned (wires : ℕ → GoldilocksField) : Prop where
  first : wires 0 = (evalSum f gate.numChunks (2 ^ gate.chunkBits) : ℕ)
  second : wires 1 = (evalSum g gate.numChunks (2 ^ gate.chunkBits) : ℕ)
  first_chunk : ∀ i < gate.numChunks, wires (wireFirstChunkVal i) = f i
  second_chunk : ∀ i < gate.numChunks, wires (gate.wireSecondChunkVal i) = g i
  dummy : ∀ i < gate.numChunks, f i ≠ g i →
    ((g i : GoldilocksField) - f i) * wires (gate.wireEqualityDummy i) = 1
  equal : ∀ i < gate.numChunks, wires (gate.wireChunksEqual i) = if f i = g i then 1 else 0
  intermediate : ∀ i < gate.numChunks, wires (gate.wireIntermediateValue i) =
    if f i = g i then ((topDiff f g i : ℤ) : GoldilocksField) else 0
  diff : wires 3 = (topDiff f g gate.numChunks : ℤ)
  bit : ∀ i < gate.chunkBits + 1, wires (gate.wireMostSignificantDiffBit i) = (w / 2 ^ i % 2 : ℕ)

variable {gate f g w}

lemma Assigned.diffSoFar_eq (h : gate.Assigned f g w wires) {n : ℕ} (hn : n ≤ gate.numChunks) :
    gate.diffSoFar wires n = (topDiff f g n : ℤ) := by
  cases n with
  | zero => simp [diffSoFar, topDiff]
  | succ n =>
    rw [diffSoFar, h.intermediate n hn, h.equal n hn, h.first_chunk n hn, h.second_chunk n hn,
      topDiff]
    split_ifs with heq
    · rw [sub_self, zero_mul, add_zero]
    · rw [sub_zero, one_mul, zero_add, Int.cast_sub, Int.cast_natCast, Int.cast_natCast]

variable (hf : ∀ i < gate.numChunks, f i < 2 ^ gate.chunkBits)
  (hg : ∀ i < gate.numChunks, g i < 2 ^ gate.chunkBits)

include hf hg

lemma Assigned.chunkSatisfied (h : gate.Assigned f g w wires) {i : ℕ} (hi : i < gate.numChunks) :
    gate.ChunkSatisfied wires i := by
  have hle := gate.two_pow_chunkBits_le
  have hfirst := h.first_chunk i hi
  have hsecond := h.second_chunk i hi
  constructor
  · rw [hfirst, ZMod.val_natCast_of_lt ((hf i hi).trans_le hle)]
    exact hf i hi
  · rw [hsecond, ZMod.val_natCast_of_lt ((hg i hi).trans_le hle)]
    exact hg i hi
  · rw [hfirst, hsecond, h.equal i hi]
    split_ifs with heq
    · rw [heq, sub_self, zero_mul, sub_self]
    · rw [h.dummy i hi heq, sub_zero]
  · rw [hfirst, hsecond, h.equal i hi]
    split_ifs with heq
    · rw [heq, sub_self, mul_zero]
    · rw [zero_mul]
  · rw [h.intermediate i hi, h.equal i hi, h.diffSoFar_eq hi.le]
    split_ifs
    · rw [one_mul]
    · rw [zero_mul]

omit hf hg in
lemma Assigned.bitsValue_eq (h : gate.Assigned f g w wires) (hw : w < 2 ^ (gate.chunkBits + 1)) :
    gate.bitsValue wires = w := by
  have horder := goldilocksOrder_eq
  refine (evalSum_congr ?_ 2).trans (PrimeDigits.evalSum_digits hw)
  intro i hi
  have hlt : w / 2 ^ i % 2 < 2 := Nat.mod_lt _ (by decide)
  rw [h.bit i hi, ZMod.val_natCast_of_lt (by omega)]

/-- The row satisfies the constraints where the bits denote the difference. -/
lemma Assigned.satisfied (h : gate.Assigned f g w wires) (hw : w < 2 ^ (gate.chunkBits + 1))
    (hcast : (w : GoldilocksField) =
      ((2 ^ gate.chunkBits + topDiff f g gate.numChunks : ℤ) : GoldilocksField)) :
    gate.Satisfied wires where
  first := by rw [h.first, PrimeDigits.evalSum_natCast h.first_chunk]
  second := by rw [h.second, PrimeDigits.evalSum_natCast h.second_chunk]
  chunk := fun _ hi => h.chunkSatisfied hf hg hi
  diff := by rw [h.diff, h.diffSoFar_eq le_rfl]
  bit_lt := by
    intro i hi
    have hlt : w / 2 ^ i % 2 < 2 := Nat.mod_lt _ (by decide)
    have horder := goldilocksOrder_eq
    rw [h.bit i hi, ZMod.val_natCast_of_lt (by omega)]
    exact hlt
  bits := by
    rw [evalSum_digits hw h.bit, hcast, h.diff]
    push_cast
    rfl

end Assigned

section AssignedRow

variable (gate) (f g : ℕ → ℕ) (w : ℕ)

/-- The row of chunks and bits, with the top bit as its result. -/
def assignedRow (column : ℕ) : GoldilocksField :=
  if column = 0 then (evalSum f gate.numChunks (2 ^ gate.chunkBits) : ℕ)
  else if column = 1 then (evalSum g gate.numChunks (2 ^ gate.chunkBits) : ℕ)
  else if column = 2 then (w / 2 ^ gate.chunkBits % 2 : ℕ)
  else if column = 3 then (topDiff f g gate.numChunks : ℤ)
  else if column < 4 + gate.numChunks then f (column - 4)
  else if column < 4 + 2 * gate.numChunks then g (column - (4 + gate.numChunks))
  else if column < 4 + 3 * gate.numChunks then
    ((g (column - (4 + 2 * gate.numChunks)) : GoldilocksField) -
      f (column - (4 + 2 * gate.numChunks)))⁻¹
  else if column < 4 + 4 * gate.numChunks then
    if f (column - (4 + 3 * gate.numChunks)) = g (column - (4 + 3 * gate.numChunks)) then 1 else 0
  else if column < 4 + 5 * gate.numChunks then
    if f (column - (4 + 4 * gate.numChunks)) = g (column - (4 + 4 * gate.numChunks)) then
      ((topDiff f g (column - (4 + 4 * gate.numChunks)) : ℤ) : GoldilocksField)
    else 0
  else (w / 2 ^ (column - (4 + 5 * gate.numChunks)) % 2 : ℕ)

variable {gate f g}

lemma assigned_assignedRow (hf : ∀ i < gate.numChunks, f i < 2 ^ gate.chunkBits)
    (hg : ∀ i < gate.numChunks, g i < 2 ^ gate.chunkBits) :
    gate.Assigned f g w (gate.assignedRow f g w) where
  first := rfl
  second := rfl
  diff := rfl
  first_chunk := by
    intro i hi
    rw [wireFirstChunkVal, assignedRow]
    repeat rw [if_neg (by omega)]
    rw [if_pos (by omega), Nat.add_sub_cancel_left]
  second_chunk := by
    intro i hi
    rw [wireSecondChunkVal, assignedRow]
    repeat rw [if_neg (by omega)]
    rw [if_pos (by omega), Nat.add_sub_cancel_left]
  dummy := by
    intro i hi hne
    have hle := gate.two_pow_chunkBits_le
    rw [wireEqualityDummy, assignedRow]
    repeat rw [if_neg (by omega)]
    rw [if_pos (by omega), Nat.add_sub_cancel_left]
    apply mul_inv_cancel₀
    intro hzero
    exact hne (PrimeDigits.eq_of_natCast_eq ((hf i hi).trans_le hle) ((hg i hi).trans_le hle)
      (sub_eq_zero.mp hzero).symm)
  equal := by
    intro i hi
    rw [wireChunksEqual, assignedRow, if_neg (by omega), if_neg (by omega), if_neg (by omega),
      if_neg (by omega), if_neg (by omega), if_neg (by omega), if_neg (by omega), if_pos (by omega),
      Nat.add_sub_cancel_left]
  intermediate := by
    intro i hi
    rw [wireIntermediateValue, assignedRow, if_neg (by omega), if_neg (by omega), if_neg (by omega),
      if_neg (by omega), if_neg (by omega), if_neg (by omega), if_neg (by omega), if_neg (by omega),
      if_pos (by omega), Nat.add_sub_cancel_left]
  bit := by
    intro i hi
    rw [wireMostSignificantDiffBit, assignedRow]
    repeat rw [if_neg (by omega)]
    rw [Nat.add_sub_cancel_left]

end AssignedRow

/-! ### Soundness -/

variable (gate) in
/-- Every row with the inputs `a` and `b` whose constraints vanish, in the gate or in its kernel,
tells whether `a` is at most `b`. -/
def SoundAt (a b : ℕ) : Prop :=
  ∀ wires : ℕ → GoldilocksField, wires 0 = a → wires 1 = b →
    ((∀ cons ∈ gate.evalUnfiltered wires, cons = 0) ∨
      ∀ cons ∈ comparisonGatePartial wires gate.numBits gate.numChunks, cons = 0) →
    (wires 2 = 1 ↔ a ≤ b)

variable (gate) in
/-- No other number of the chunks is equal to the smaller input in the field, and no other number
of the bits to the difference. -/
structure Unambiguous (a b : ℕ) : Prop where
  chunks : 2 ^ (gate.chunkBits * gate.numChunks) ≤ min a b + goldilocksOrder
  bits : gate.chunkBits = 63 → a + (2 ^ 32 - 1) ≤ b + 2 ^ 63 ∧ b + 2 ^ 63 < a + goldilocksOrder

/-- A chunk of 63 bits is the only one. -/
lemma numChunks_eq_one (h : gate.chunkBits = 63) : gate.numChunks = 1 := by
  have hbits := gate.numBits_lt
  have hpos := gate.numChunks_pos
  by_contra hne
  have hlt : gate.chunkBits < 63 := by
    rw [chunkBits, ceilDivUsize, Nat.div_lt_iff_lt_mul hpos]
    omega
  omega

/-- Numbers that are equal in the field. -/
lemma eq_of_natCast_eq_of_lt {a A : ℕ} (ha : a < goldilocksOrder)
    (hA : A < a + goldilocksOrder) (h : (A : GoldilocksField) = a) : A = a := by
  have hmod : A % 18446744069414584321 = a % 18446744069414584321 :=
    (ZMod.natCast_eq_natCast_iff' A a goldilocksOrder).mp h
  have horder := goldilocksOrder_eq
  omega

section Sound

variable {a b : ℕ} (ha : a < 2 ^ 63) (hb : b < 2 ^ 63)

include ha hb

lemma Satisfied.topBit_iff (h : gate.Satisfied wires) (hfirst : wires 0 = a) (hsecond : wires 1 = b)
    (hab : gate.Unambiguous a b) :
    wires (gate.wireMostSignificantDiffBit gate.chunkBits) = 1 ↔ a ≤ b := by
  have horder := goldilocksOrder_eq
  have hchunks := hab.chunks
  have hfirstLt := h.firstValue_lt
  have hsecondLt := h.secondValue_lt
  have hfirstValue : gate.firstValue wires = a :=
    eq_of_natCast_eq_of_lt (by omega) (by omega) (h.natCast_firstValue.trans hfirst)
  have hsecondValue : gate.secondValue wires = b :=
    eq_of_natCast_eq_of_lt (by omega) (by omega) (h.natCast_secondValue.trans hsecond)
  have hsign := h.firstValue_le_iff
  rw [hfirstValue, hsecondValue] at hsign
  obtain ⟨hlow, hhigh⟩ := h.chunkDiff_lt
  have hmod : (gate.bitsValue wires : ℤ) % 18446744069414584321 =
      (2 ^ gate.chunkBits + gate.chunkDiff wires gate.numChunks) % 18446744069414584321 := by
    have hcast := h.natCast_bitsValue
    rw [← Int.cast_natCast, ZMod.intCast_eq_intCast_iff'] at hcast
    exact hcast
  have hbits := h.bitsValue_lt
  rw [h.topBit_eq_one_iff, hsign]
  rcases lt_or_eq_of_le (Nat.lt_succ_iff.mp gate.chunkBits_lt) with hlt | heq
  · -- The number of the bits and the difference stay below the order.
    have hpow : 2 ^ (gate.chunkBits + 1) ≤ 2 ^ 63 := Nat.pow_le_pow_right (by decide) (by omega)
    have hpow' : 2 ^ (gate.chunkBits + 1) = 2 * 2 ^ gate.chunkBits := pow_succ' 2 _
    have hcast : ((2 ^ gate.chunkBits : ℕ) : ℤ) = 2 ^ gate.chunkBits := by push_cast; rfl
    omega
  · obtain ⟨hwrap, hover⟩ := hab.bits heq
    have hdiff : gate.chunkDiff wires gate.numChunks = (b : ℤ) - a := by
      rw [firstValue, numChunks_eq_one heq] at hfirstValue
      rw [secondValue, numChunks_eq_one heq] at hsecondValue
      simp only [evalSum_succ, evalSum_zero, zero_add, pow_zero, mul_one] at hfirstValue hsecondValue
      rw [numChunks_eq_one heq, chunkDiff, topDiff, topDiff, hfirstValue, hsecondValue]
      split_ifs <;> omega
    rw [heq] at hmod hbits ⊢
    omega

end Sound

/-! ### Rows that compare other numbers -/

section Ambiguous

variable (gate) in
/-- Chunk `i` of a number. -/
def chunk (v i : ℕ) : ℕ := v / (2 ^ gate.chunkBits) ^ i % 2 ^ gate.chunkBits

variable (gate) in
lemma chunk_lt (v i : ℕ) : gate.chunk v i < 2 ^ gate.chunkBits :=
  Nat.mod_lt _ (pow_pos two_pos _)

variable (gate) in
/-- The difference of the first different chunks of two numbers. -/
def valueDiff (A B : ℕ) : ℤ := topDiff (gate.chunk A) (gate.chunk B) gate.numChunks

variable (gate) in
/-- The difference of single chunks. -/
lemma valueDiff_eq_sub {a b : ℕ} (ha : a < 2 ^ 63) (hb : b < 2 ^ 63)
    (hbits : gate.chunkBits = 63) : gate.valueDiff a b = (b : ℤ) - a := by
  rw [valueDiff, numChunks_eq_one hbits, topDiff, topDiff, chunk, chunk, hbits, pow_zero,
    Nat.div_one, Nat.div_one, Nat.mod_eq_of_lt ha, Nat.mod_eq_of_lt hb]
  split_ifs <;> omega

variable {A B W : ℕ} (hA : A < 2 ^ (gate.chunkBits * gate.numChunks))
  (hB : B < 2 ^ (gate.chunkBits * gate.numChunks))

variable (gate A B) in
lemma valueDiff_lt : -(2 ^ gate.chunkBits : ℤ) < gate.valueDiff A B ∧
    gate.valueDiff A B < 2 ^ gate.chunkBits := by
  have hlt := topDiff_lt (n := gate.numChunks) (pow_pos two_pos gate.chunkBits)
    (fun i _ => chunk_lt gate A i) fun i _ => chunk_lt gate B i
  push_cast at hlt
  exact hlt

include hA hB

lemma le_iff_valueDiff : A ≤ B ↔ 0 ≤ gate.valueDiff A B := by
  rw [pow_mul] at hA hB
  have hsign := evalSum_le_iff (n := gate.numChunks) (fun i _ => chunk_lt gate A i)
    fun i _ => chunk_lt gate B i
  rwa [show evalSum (gate.chunk A) _ _ = A from PrimeDigits.evalSum_digits hA,
    show evalSum (gate.chunk B) _ _ = B from PrimeDigits.evalSum_digits hB] at hsign

/-- Numbers of the chunks and a number of the bits that denotes their difference are accepted. -/
lemma exists_row (hW : W < 2 ^ (gate.chunkBits + 1))
    (hcast : (W : GoldilocksField) =
      ((2 ^ gate.chunkBits + gate.valueDiff A B : ℤ) : GoldilocksField)) :
    ∃ wires : ℕ → GoldilocksField, wires 0 = A ∧ wires 1 = B ∧
      (∀ cons ∈ gate.evalUnfiltered wires, cons = 0) ∧
      (wires 2 = 1 ↔ 2 ^ gate.chunkBits ≤ W) := by
  rw [pow_mul] at hA hB
  have hassigned := assigned_assignedRow W (fun i _ => chunk_lt gate A i)
    fun i _ => chunk_lt gate B i
  have hsatisfied := hassigned.satisfied (fun i _ => chunk_lt gate A i)
    (fun i _ => chunk_lt gate B i) hW hcast
  have hresult : gate.assignedRow (gate.chunk A) (gate.chunk B) W 2 =
      gate.assignedRow (gate.chunk A) (gate.chunk B) W
        (gate.wireMostSignificantDiffBit gate.chunkBits) :=
    (hassigned.bit gate.chunkBits (Nat.lt_succ_self _)).symm
  refine ⟨gate.assignedRow (gate.chunk A) (gate.chunk B) W, ?_, ?_,
    (gate.forall_mem_evalUnfiltered _).mpr ⟨hsatisfied, hresult⟩, ?_⟩
  · exact hassigned.first.trans (congrArg Nat.cast (PrimeDigits.evalSum_digits hA))
  · exact hassigned.second.trans (congrArg Nat.cast (PrimeDigits.evalSum_digits hB))
  · rw [hresult, hsatisfied.topBit_eq_one_iff, hassigned.bitsValue_eq hW]

/-- The row that compares the numbers of the chunks. -/
lemma exists_row_compare :
    ∃ wires : ℕ → GoldilocksField, wires 0 = A ∧ wires 1 = B ∧
      (∀ cons ∈ gate.evalUnfiltered wires, cons = 0) ∧ (wires 2 = 1 ↔ A ≤ B) := by
  obtain ⟨hlow, hhigh⟩ := valueDiff_lt gate A B
  have hpow : 2 ^ (gate.chunkBits + 1) = 2 * 2 ^ gate.chunkBits := pow_succ' 2 _
  have hcast : ((2 ^ gate.chunkBits : ℕ) : ℤ) = 2 ^ gate.chunkBits := by push_cast; rfl
  obtain ⟨V, hV⟩ := Int.eq_ofNat_of_zero_le
    (by omega : 0 ≤ 2 ^ gate.chunkBits + gate.valueDiff A B)
  obtain ⟨wires, hfirst, hsecond, hcons, hresult⟩ := exists_row hA hB (W := V) (by omega)
    (by rw [hV, Int.cast_natCast])
  refine ⟨wires, hfirst, hsecond, hcons, hresult.trans ?_⟩
  rw [le_iff_valueDiff hA hB]
  omega

end Ambiguous

section NotSound

variable {a b : ℕ}

lemma natCast_add_order (a : ℕ) : ((a + goldilocksOrder : ℕ) : GoldilocksField) = a := by
  rw [Nat.cast_add, ZMod.natCast_self, add_zero]

/-- The number above the order stands for the smaller input. -/
lemma not_soundAt_of_chunks (ha : a < 2 ^ gate.numBits) (hb : b < 2 ^ gate.numBits)
    (h : min a b + goldilocksOrder < 2 ^ (gate.chunkBits * gate.numChunks)) :
    ¬ gate.SoundAt a b := by
  intro hsound
  have horder := goldilocksOrder_eq
  have hpow : 2 ^ gate.numBits ≤ 2 ^ (gate.chunkBits * gate.numChunks) :=
    Nat.pow_le_pow_right (by decide) gate.numBits_le
  have hbits : 2 ^ gate.numBits ≤ 2 ^ 63 :=
    Nat.pow_le_pow_right (by decide) (Nat.lt_succ_iff.mp gate.numBits_lt)
  rcases le_or_gt a b with hab | hab
  · obtain ⟨wires, hfirst, hsecond, hcons, hresult⟩ :=
      exists_row_compare (by omega : a + goldilocksOrder < 2 ^ (gate.chunkBits * gate.numChunks))
        (by omega : b < 2 ^ (gate.chunkBits * gate.numChunks))
    have hone := (hsound wires (hfirst.trans (natCast_add_order a)) hsecond (.inl hcons)).mpr hab
    have hle := hresult.mp hone
    omega
  · obtain ⟨wires, hfirst, hsecond, hcons, hresult⟩ :=
      exists_row_compare (by omega : a < 2 ^ (gate.chunkBits * gate.numChunks))
        (by omega : b + goldilocksOrder < 2 ^ (gate.chunkBits * gate.numChunks))
    have hone := hresult.mpr (by omega)
    have hle := (hsound wires hfirst (hsecond.trans (natCast_add_order b)) (.inl hcons)).mp hone
    omega

/-- The bits of the difference and the order, or of the difference less the order. -/
lemma not_soundAt_of_bits (ha : a < 2 ^ 63) (hb : b < 2 ^ 63) (hbits : gate.chunkBits = 63)
    (h : b + 2 ^ 63 < a + (2 ^ 32 - 1) ∨ a + goldilocksOrder ≤ b + 2 ^ 63) :
    ¬ gate.SoundAt a b := by
  intro hsound
  have horder := goldilocksOrder_eq
  have hone := numChunks_eq_one hbits
  have hdiff := valueDiff_eq_sub gate ha hb hbits
  have hA : a < 2 ^ (gate.chunkBits * gate.numChunks) := by rwa [hbits, hone]
  have hB : b < 2 ^ (gate.chunkBits * gate.numChunks) := by rwa [hbits, hone]
  have hrow : ∀ W : ℕ, W < 2 ^ 64 → W % goldilocksOrder = (b + 2 ^ 63 - a) % goldilocksOrder →
      (2 ^ 63 ≤ W ↔ a ≤ b) := by
    intro W hW hmod
    have hcast : (W : GoldilocksField) =
        ((2 ^ gate.chunkBits + gate.valueDiff a b : ℤ) : GoldilocksField) := by
      rw [(ZMod.natCast_eq_natCast_iff' W (b + 2 ^ 63 - a) goldilocksOrder).mpr hmod, hdiff, hbits,
        ← Int.cast_natCast]
      congr 1
      omega
    obtain ⟨wires, hfirst, hsecond, hcons, hresult⟩ := exists_row hA hB (by rwa [hbits]) hcast
    rw [hbits] at hresult
    exact hresult.symm.trans (hsound wires hfirst hsecond (.inl hcons))
  rcases h with hwrap | hover
  · have hle := (hrow (b + 2 ^ 63 - a + goldilocksOrder) (by omega) (Nat.add_mod_right _ _)).mp
      (by omega)
    omega
  · have hle := (hrow (b + 2 ^ 63 - a - goldilocksOrder) (by omega)
      (Nat.mod_eq_sub_mod (by omega)).symm).mpr (by omega)
    omega

end NotSound

/-- The gate tells which input is smaller exactly where no other number of the chunks or of the bits
is equal to the inputs or their difference in the field. -/
theorem soundAt_iff (gate : ComparisonGate) (a b : Fin (2 ^ gate.numBits)) :
    gate.SoundAt a b ↔ gate.Unambiguous a b := by
  have hbits : 2 ^ gate.numBits ≤ 2 ^ 63 :=
    Nat.pow_le_pow_right (by decide) (Nat.lt_succ_iff.mp gate.numBits_lt)
  constructor
  · intro h
    constructor
    · by_contra hlt
      exact not_soundAt_of_chunks a.isLt b.isLt (not_le.mp hlt) h
    · intro hk
      by_contra hne
      exact not_soundAt_of_bits (by omega) (by omega) hk (by omega) h
  · intro hab wires hfirst hsecond hcons
    rw [comparisonGatePartial_eq, or_self, forall_mem_evalUnfiltered] at hcons
    rw [hcons.2]
    exact hcons.1.topBit_iff (by omega) (by omega) hfirst hsecond hab

lemma sixtyThree_lt : 63 < 64 := by decide

/-- 63 bits in 22 chunks of 3 bits. -/
def threeBitChunks : ComparisonGate := ⟨63, 22, sixtyThree_lt, by decide⟩

/-- The chunks of the order stand for zero, and zero is compared as larger than itself. -/
theorem not_soundAt_threeBitChunks :
    ¬ ∀ (gate : ComparisonGate) (a b : Fin (2 ^ gate.numBits)), gate.SoundAt a b := by
  intro h
  have hsound : threeBitChunks.SoundAt 0 0 := h threeBitChunks ⟨0, by decide⟩ ⟨0, by decide⟩
  exact not_soundAt_of_chunks (by decide) (by decide) (by decide) hsound

end ComparisonGate

end MegaZK
