import MegaZK.U32.Limbs

/-! # The uninterleave gate

The gate splits the number that 64 bits denote. An element below `2 ^ 32 - 1` has a second number of
64 bits, the one above the order, and the gate accepts its bits as well. -/

namespace MegaZK

open Horner Radix

/-! ### One operation -/

section Op

variable {F : Type} [Field F] (wires : ℕ → F) (numOps i : ℕ)

/-- The constraints of operation `i`. -/
def UninterleaveToU32Gate.evalOp : List F :=
  let xInterleaved := wires (3 * i)
  let bit j := wires (numOps * 3 + 64 * i + j)
  let bits := (List.range 64).map bit
  let computedXInterleaved := reduceWithPowers ((2 : ℕ) : F) bits.reverse
  let xEvens := wires (3 * i + 1)
  let xOdds := wires (3 * i + 2)
  let computed := (List.range (64 / 2)).foldl
    (fun (s : F × F) j =>
      let coeff : F := ((1 <<< (64 / 2 - j - 1) : ℕ) : F)
      (s.1 + coeff * bit (2 * j), s.2 + coeff * bit (2 * j + 1)))
    (0, 0)
  [computedXInterleaved - xInterleaved, computed.1 - xEvens, computed.2 - xOdds] ++
    bits.map (rangeProduct 2)

/-- The constraints that `uninterleave_to_u32_gate_partial` adds for operation `i`. -/
def uninterleaveToU32OpPartial : List F :=
  let xInterleaved := wires (3 * i)
  let bit j := wires (3 * numOps + 64 * i + j)
  let xEvens := wires (3 * i + 1)
  let xOdds := wires (3 * i + 2)
  let computed := (List.range 32).foldl
    (fun (s : F × F) j =>
      let jthEven := wires (3 * numOps + 64 * i + 2 * j)
      let jthOdd := wires (3 * numOps + 64 * i + 2 * j + 1)
      let coeff : F := ((1 <<< (32 - j - 1) : ℕ) : F)
      (s.1 + jthEven * coeff, s.2 + jthOdd * coeff))
    (0, 0)
  [bitLoop ((2 : ℕ) : F) bit 64 - xInterleaved, computed.1 - xEvens, computed.2 - xOdds] ++
    (List.range 64).map fun j => productLoop (bit j) 2

lemma UninterleaveToU32Gate.evalUnfiltered_eq_flatMap :
    UninterleaveToU32Gate.evalUnfiltered wires numOps =
      (List.range numOps).flatMap (UninterleaveToU32Gate.evalOp wires numOps) := rfl

lemma uninterleaveToU32GatePartial_eq_flatMap :
    uninterleaveToU32GatePartial wires numOps =
      (List.range numOps).flatMap (uninterleaveToU32OpPartial wires numOps) := rfl

lemma uninterleaveToU32OpPartial_eq :
    uninterleaveToU32OpPartial wires numOps i = UninterleaveToU32Gate.evalOp wires numOps i := by
  simp only [uninterleaveToU32OpPartial, UninterleaveToU32Gate.evalOp, bitLoop_eq,
    productLoop_eq, List.map_map, mul_comm numOps, mul_comm (wires _), add_assoc]
  rfl

end Op

/-! ### The bits of a number -/

/-- The bits at even places, where the highest of the 64 has place 0. -/
def evenBits (v : ℕ) : ℕ := evalSum (fun j => v / 2 ^ (2 * j + 1) % 2) 32 2

/-- The bits at odd places. -/
def oddBits (v : ℕ) : ℕ := evalSum (fun j => v / 2 ^ (2 * j) % 2) 32 2

lemma evenBits_lt (v : ℕ) : evenBits v < 2 ^ 32 :=
  evalSum_lt fun _ _ => Nat.mod_lt _ (by decide)

lemma oddBits_lt (v : ℕ) : oddBits v < 2 ^ 32 :=
  evalSum_lt fun _ _ => Nat.mod_lt _ (by decide)

/-- A number is split without loss. -/
lemma eq_of_evenBits_of_oddBits {v v' : ℕ} (hv : v < 2 ^ 64) (hv' : v' < 2 ^ 64)
    (heven : evenBits v = evenBits v') (hodd : oddBits v = oddBits v') : v = v' := by
  have hbit : ∀ j < 64, v / 2 ^ j % 2 = v' / 2 ^ j % 2 := by
    intro j hj
    have hmod : ∀ w < 32, ∀ u : ℕ → ℕ, evalSum (fun k => u k % 2) 32 2 / 2 ^ w % 2 = u w % 2 := by
      intro w hw u
      exact PrimeDigits.evalSum_div_mod (fun k _ => Nat.mod_lt _ (by decide)) hw
    rcases Nat.even_or_odd' j with ⟨k, rfl | rfl⟩
    · rw [← hmod k (by omega) fun k => v / 2 ^ (2 * k),
        ← hmod k (by omega) fun k => v' / 2 ^ (2 * k)]
      exact congrArg (fun n => n / 2 ^ k % 2) hodd
    · rw [← hmod k (by omega) fun k => v / 2 ^ (2 * k + 1),
        ← hmod k (by omega) fun k => v' / 2 ^ (2 * k + 1)]
      exact congrArg (fun n => n / 2 ^ k % 2) heven
  rw [← PrimeDigits.evalSum_digits hv, ← PrimeDigits.evalSum_digits hv']
  exact evalSum_congr hbit 2

namespace UninterleaveToU32Gate

/-! ### Satisfied constraints -/

section Satisfied

variable (wires : ℕ → GoldilocksField) (numOps i : ℕ)

/-- What the constraints of an operation say of its bits and outputs. -/
structure Satisfied : Prop where
  bit_lt : ∀ j < 64, (wires (numOps * 3 + 64 * i + j)).val < 2
  interleaved : evalSum (fun j => wires (numOps * 3 + 64 * i + (63 - j))) 64
    ((2 : ℕ) : GoldilocksField) = wires (3 * i)
  evens : evalSum (fun j => wires (numOps * 3 + 64 * i + 2 * (31 - j))) 32
    ((2 : ℕ) : GoldilocksField) = wires (3 * i + 1)
  odds : evalSum (fun j => wires (numOps * 3 + 64 * i + (2 * (31 - j) + 1))) 32
    ((2 : ℕ) : GoldilocksField) = wires (3 * i + 2)

lemma forall_mem_evalOp :
    (∀ cons ∈ evalOp wires numOps i, cons = 0) ↔ Satisfied wires numOps i := by
  have hhalf : 64 / 2 = 32 := rfl
  simp only [evalOp, hhalf]
  rw [foldl_add_pair, sum_coeff_eq fun j => wires (numOps * 3 + 64 * i + 2 * j),
    sum_coeff_eq fun j => wires (numOps * 3 + 64 * i + (2 * j + 1)),
    reduceWithPowers_range_reverse, List.forall_mem_append, List.forall_mem_cons,
    List.forall_mem_cons, List.forall_mem_singleton]
  simp only [List.map_map, List.forall_mem_map, List.mem_range, Function.comp_apply, sub_eq_zero,
    rangeProduct_eq_zero_iff (by decide : 2 ≤ goldilocksOrder)]
  constructor
  · rintro ⟨⟨hinterleaved, hevens, hodds⟩, hbit⟩
    exact ⟨hbit, hinterleaved, hevens, hodds⟩
  · rintro ⟨hbit, hinterleaved, hevens, hodds⟩
    exact ⟨⟨hinterleaved, hevens, hodds⟩, hbit⟩

end Satisfied

variable {wires : ℕ → GoldilocksField} {numOps i : ℕ}

/-- The number that the bits denote. -/
def bitsValue (wires : ℕ → GoldilocksField) (numOps i : ℕ) : ℕ :=
  evalSum (fun j => (wires (numOps * 3 + 64 * i + (63 - j))).val) 64 2

namespace Satisfied

lemma bitsValue_lt (h : Satisfied wires numOps i) : bitsValue wires numOps i < 2 ^ 64 :=
  evalSum_lt fun _ _ => h.bit_lt _ (by omega)

lemma natCast_bitsValue (h : Satisfied wires numOps i) :
    (bitsValue wires numOps i : GoldilocksField) = wires (3 * i) := by
  rw [← h.interleaved, PrimeDigits.evalSum_val, bitsValue]

lemma bitsValue_mod (h : Satisfied wires numOps i) :
    bitsValue wires numOps i % goldilocksOrder = (wires (3 * i)).val := by
  rw [← h.natCast_bitsValue, ZMod.val_natCast]

/-- A bit of the number, from the lowest. -/
lemma bitsValue_bit (h : Satisfied wires numOps i) {j : ℕ} (hj : j < 64) :
    bitsValue wires numOps i / 2 ^ j % 2 = (wires (numOps * 3 + 64 * i + (63 - j))).val :=
  PrimeDigits.evalSum_div_mod (fun _ _ => h.bit_lt _ (by omega)) hj

lemma val_evens (h : Satisfied wires numOps i) :
    (wires (3 * i + 1)).val = evenBits (bitsValue wires numOps i) := by
  have horder := goldilocksOrder_eq
  rw [← h.evens, PrimeDigits.val_evalSum (fun _ _ => h.bit_lt _ (by omega)) (by omega)]
  apply evalSum_congr
  intro j hj
  have hplace : 63 - (2 * j + 1) = 2 * (31 - j) := by omega
  rw [h.bitsValue_bit (by omega), hplace]

lemma val_odds (h : Satisfied wires numOps i) :
    (wires (3 * i + 2)).val = oddBits (bitsValue wires numOps i) := by
  have horder := goldilocksOrder_eq
  rw [← h.odds, PrimeDigits.val_evalSum (fun _ _ => h.bit_lt _ (by omega)) (by omega)]
  apply evalSum_congr
  intro j hj
  have hplace : 63 - 2 * j = 2 * (31 - j) + 1 := by omega
  rw [h.bitsValue_bit (by omega), hplace]

end Satisfied

/-! ### The rows that the gate accepts -/

/-- The row in which every operation holds the bits of `v`, for the element `v`. -/
def bitsRow (numOps v column : ℕ) : GoldilocksField :=
  if column < numOps * 3 then
    if column % 3 = 0 then (v : GoldilocksField)
    else if column % 3 = 1 then (evenBits v : GoldilocksField)
    else (oddBits v : GoldilocksField)
  else ((v / 2 ^ (63 - (column - numOps * 3) % 64) % 2 : ℕ) : GoldilocksField)

section BitsRow

variable (v : ℕ) (hi : i < numOps)

lemma bitsRow_bit {j : ℕ} (hj : j < 64) :
    bitsRow numOps v (numOps * 3 + 64 * i + j) = (v / 2 ^ (63 - j) % 2 : ℕ) := by
  have hcolumn : (numOps * 3 + 64 * i + j - numOps * 3) % 64 = j := by omega
  rw [bitsRow, if_neg (by omega), hcolumn]

include hi

lemma bitsRow_interleaved : bitsRow numOps v (3 * i) = v := by
  rw [bitsRow, if_pos (by omega), if_pos (by omega)]

lemma bitsRow_evens : bitsRow numOps v (3 * i + 1) = evenBits v := by
  rw [bitsRow, if_pos (by omega), if_neg (by omega), if_pos (by omega)]

lemma bitsRow_odds : bitsRow numOps v (3 * i + 2) = oddBits v := by
  rw [bitsRow, if_pos (by omega), if_neg (by omega), if_neg (by omega)]

lemma satisfied_bitsRow (hv : v < 2 ^ 64) : Satisfied (bitsRow numOps v) numOps i where
  bit_lt := by
    intro j hj
    have hlt : v / 2 ^ (63 - j) % 2 < 2 := Nat.mod_lt _ (by decide)
    have horder := goldilocksOrder_eq
    rw [bitsRow_bit v hj, ZMod.val_natCast_of_lt (by omega)]
    exact hlt
  interleaved := by
    rw [bitsRow_interleaved v hi]
    apply evalSum_digits hv
    intro j hj
    have hplace : 63 - (63 - j) = j := by omega
    rw [bitsRow_bit v (by omega), hplace]
  evens := by
    rw [bitsRow_evens v hi, evenBits]
    apply PrimeDigits.evalSum_natCast
    intro j hj
    have hplace : 63 - 2 * (31 - j) = 2 * j + 1 := by omega
    rw [bitsRow_bit v (by omega), hplace]
  odds := by
    rw [bitsRow_odds v hi, oddBits]
    apply PrimeDigits.evalSum_natCast
    intro j hj
    have hplace : 63 - (2 * (31 - j) + 1) = 2 * j := by omega
    rw [bitsRow_bit v (by omega), hplace]

end BitsRow

/-! ### Soundness -/

/-- Every row whose constraints of operation `i` vanish, in the gate or in its kernel, splits the
bits of `x`. -/
def OpSound (numOps i : ℕ) (x : GoldilocksField) : Prop :=
  ∀ wires : ℕ → GoldilocksField, wires (3 * i) = x →
    ((∀ cons ∈ evalOp wires numOps i, cons = 0) ∨
      ∀ cons ∈ uninterleaveToU32OpPartial wires numOps i, cons = 0) →
    (wires (3 * i + 1)).val = evenBits x.val ∧ (wires (3 * i + 2)).val = oddBits x.val

/-- The bits of the number above the order. -/
lemma not_opSound_of_lt (hi : i < numOps) {x : GoldilocksField} (hx : x.val < 2 ^ 32 - 1) :
    ¬ OpSound numOps i x := by
  intro h
  have horder := goldilocksOrder_eq
  have hv : x.val + goldilocksOrder < 2 ^ 64 := by omega
  have hcast : ((x.val + goldilocksOrder : ℕ) : GoldilocksField) = x := by
    rw [Nat.cast_add, ZMod.natCast_self, add_zero, ZMod.natCast_zmod_val]
  obtain ⟨heven, hodd⟩ := h (bitsRow numOps (x.val + goldilocksOrder))
    ((bitsRow_interleaved _ hi).trans hcast)
    (.inl ((forall_mem_evalOp _ _ _).mpr (satisfied_bitsRow _ hi hv)))
  have heven' := evenBits_lt (x.val + goldilocksOrder)
  have hodd' := oddBits_lt (x.val + goldilocksOrder)
  rw [bitsRow_evens _ hi, ZMod.val_natCast_of_lt (by omega)] at heven
  rw [bitsRow_odds _ hi, ZMod.val_natCast_of_lt (by omega)] at hodd
  have heq := eq_of_evenBits_of_oddBits hv (by omega) heven hodd
  omega

/-- An operation splits the bits of its input exactly where no other number of 64 bits is equal to
it in the field. -/
theorem opSound_iff (i : Fin numOps) (x : GoldilocksField) :
    OpSound numOps i x ↔ 2 ^ 32 - 1 ≤ x.val := by
  constructor
  · intro h
    by_contra hlt
    exact not_opSound_of_lt i.isLt (not_le.mp hlt) h
  · rintro hx wires rfl hcons
    rw [uninterleaveToU32OpPartial_eq, or_self, forall_mem_evalOp] at hcons
    have horder := goldilocksOrder_eq
    have hlt := hcons.bitsValue_lt
    have hmod : bitsValue wires numOps i % 18446744069414584321 = (wires (3 * i)).val :=
      hcons.bitsValue_mod
    have hvalue : bitsValue wires numOps i = (wires (3 * i)).val := by omega
    rw [← hvalue]
    exact ⟨hcons.val_evens, hcons.val_odds⟩

/-- The bits of the order are accepted for zero, which is two interleaved zeros added. -/
theorem not_opSound_zero :
    ¬ ∀ (numOps : ℕ) (i : Fin numOps) (x : GoldilocksField), OpSound numOps i x := by
  intro h
  exact not_opSound_of_lt (x := 0) Nat.one_pos (by decide) (h 1 0 0)

end UninterleaveToU32Gate

end MegaZK
