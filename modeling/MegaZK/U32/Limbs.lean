import MegaZK.Lib.PrimeDigits
import MegaZK.Quotient.GateKernels

/-! # Range-checked limbs

When the constraints on limbs and bits vanish: every limb stays below the bound of its product, and
a combination of limbs is their number. -/

namespace MegaZK

open Horner Radix

lemma goldilocksOrder_eq : goldilocksOrder = 18446744069414584321 := rfl

/-! ### Range checks -/

lemma rangeProduct_eq_zero_iff {bound : ℕ} (hbound : bound ≤ goldilocksOrder)
    {limb : GoldilocksField} : rangeProduct bound limb = 0 ↔ limb.val < bound := by
  constructor
  · exact PrimeDigits.val_lt_of_prod_eq_zero hbound
  · intro h
    exact PrimeDigits.prod_sub_eq_zero_iff.mpr ⟨limb.val, h, (ZMod.natCast_zmod_val limb).symm⟩

lemma rangeProduct_natCast {bound k : ℕ} (hk : k < bound) :
    rangeProduct bound ((k : ℕ) : GoldilocksField) = 0 :=
  PrimeDigits.prod_sub_eq_zero_iff.mpr ⟨k, hk, rfl⟩

/-- A bit, as the comparison gate checks it. -/
lemma bit_eq_zero_iff {bit : GoldilocksField} : bit * (1 - bit) = 0 ↔ bit.val < 2 := by
  rw [← rangeProduct_eq_zero_iff (by decide : 2 ≤ goldilocksOrder), rangeProduct]
  simp only [List.range_succ, List.range_zero, List.nil_append, List.map_append, List.map_cons,
    List.map_nil, List.prod_append, List.prod_cons, List.prod_nil, Nat.cast_zero, Nat.cast_one,
    sub_zero, mul_one, mul_eq_zero]
  rw [sub_eq_zero, sub_eq_zero, eq_comm (a := (1 : GoldilocksField))]

lemma bit_eq_one_iff {bit : GoldilocksField} (h : bit.val < 2) : bit = 1 ↔ bit.val = 1 := by
  constructor
  · rintro rfl
    rfl
  · intro hval
    rw [← ZMod.natCast_zmod_val bit, hval, Nat.cast_one]

/-! ### Combinations -/

section Combine

variable {F : Type} [Field F]

lemma reduceWithPowers_range (f : ℕ → F) (base : F) (n : ℕ) :
    reduceWithPowers base ((List.range n).map f) = evalSum f n base := by
  rw [← hornerFrom_eq_reduceWithPowers, hornerFrom_eq, zero_mul, zero_add]

/-- Bits from the highest to the lowest. -/
lemma reduceWithPowers_range_reverse (f : ℕ → F) (base : F) (n : ℕ) :
    reduceWithPowers base ((List.range n).map f).reverse =
      evalSum (fun j => f (n - 1 - j)) n base := by
  rw [← reduceWithPowers_range, ← List.map_reverse, List.range_eq_range', List.reverse_range',
    ← List.range_eq_range', List.map_map]
  congr 1
  apply List.map_congr_left
  intro j hj
  have := List.mem_range.mp hj
  simp only [Function.comp_apply]
  congr 1
  omega

variable (base bound midpoint : ℕ) (limb : ℕ → F)

/-- The limbs below the midpoint. -/
lemma foldl_limbs_low {n : ℕ} (hn : n ≤ midpoint) (cons : List F) (low high : F) :
    (List.range n).reverse.foldl
        (fun (s : List F × F × F) j => (s.1 ++ [rangeProduct bound (limb j)],
          if j < midpoint then base * s.2.1 + limb j else s.2.1,
          if j < midpoint then s.2.2 else base * s.2.2 + limb j))
        (cons, low, high) =
      (cons ++ (List.range n).reverse.map fun j => rangeProduct bound (limb j),
        hornerFrom limb base n low, high) := by
  induction n generalizing cons low with
  | zero => simp [hornerFrom]
  | succ n ih =>
    rw [List.range_succ, List.reverse_append, List.reverse_singleton, List.singleton_append,
      List.foldl_cons, if_pos (Nat.lt_of_succ_le hn), if_pos (Nat.lt_of_succ_le hn),
      ih (Nat.le_of_succ_le hn), hornerFrom, List.map_cons, mul_comm (base : F)]
    simp only [List.append_assoc, List.singleton_append]

/-- The fold over limbs: the range checks, the combination of the limbs below the midpoint and that
of the limbs from it on. -/
lemma limbFold_eq (n : ℕ) :
    limbFold base bound midpoint (midpoint + n) limb =
      ((List.range (midpoint + n)).reverse.map fun j => rangeProduct bound (limb j),
        evalSum limb midpoint base, evalSum (fun j => limb (midpoint + j)) n base) := by
  have hfold : ∀ (cons : List F) (high : F), (List.range (midpoint + n)).reverse.foldl
        (fun (s : List F × F × F) j => (s.1 ++ [rangeProduct bound (limb j)],
          if j < midpoint then base * s.2.1 + limb j else s.2.1,
          if j < midpoint then s.2.2 else base * s.2.2 + limb j))
        (cons, 0, high) =
      (cons ++ (List.range (midpoint + n)).reverse.map fun j => rangeProduct bound (limb j),
        evalSum limb midpoint base, hornerFrom (fun j => limb (midpoint + j)) base n high) := by
    induction n with
    | zero =>
      intro cons high
      rw [add_zero, foldl_limbs_low base bound midpoint limb le_rfl, hornerFrom_eq, zero_mul,
        zero_add, hornerFrom]
    | succ n ih =>
      intro cons high
      rw [← add_assoc, List.range_succ, List.reverse_append, List.reverse_singleton,
        List.singleton_append, List.foldl_cons, if_neg (Nat.not_lt.mpr (Nat.le_add_right _ _)),
        if_neg (Nat.not_lt.mpr (Nat.le_add_right _ _)), ih, hornerFrom, List.map_cons,
        mul_comm (base : F)]
      simp only [List.append_assoc, List.singleton_append]
  rw [limbFold, hfold, hornerFrom_eq, zero_mul, zero_add, List.nil_append]

end Combine

section Sums

variable {R : Type} [CommSemiring R]

lemma foldl_add_range (f : ℕ → R) (n : ℕ) :
    (List.range n).foldl (fun s j => s + f j) 0 = ∑ j ∈ Finset.range n, f j := by
  induction n with
  | zero => rfl
  | succ n ih =>
    rw [List.range_succ, List.foldl_append, ih, Finset.sum_range_succ]
    rfl

/-- Two sums in one loop. -/
lemma foldl_add_pair (f g : ℕ → R) (n : ℕ) :
    (List.range n).foldl (fun (s : R × R) j => (s.1 + f j, s.2 + g j)) (0, 0) =
      (∑ j ∈ Finset.range n, f j, ∑ j ∈ Finset.range n, g j) := by
  induction n with
  | zero => rfl
  | succ n ih =>
    rw [List.range_succ, List.foldl_append, ih, Finset.sum_range_succ, Finset.sum_range_succ]
    rfl

/-- Digits from the highest to the lowest, each with its coefficient. -/
lemma sum_reflect_eq (f : ℕ → R) (n : ℕ) (base : R) :
    ∑ j ∈ Finset.range n, f j * base ^ (n - 1 - j) = evalSum (fun j => f (n - 1 - j)) n base := by
  rw [← Finset.sum_range_reflect, evalSum]
  apply Finset.sum_congr rfl
  intro j hj
  have hlt := Finset.mem_range.mp hj
  have hplace : n - 1 - (n - 1 - j) = j := by omega
  rw [hplace]

/-- Bits from the highest to the lowest, with shifts as their coefficients. -/
lemma sum_coeff_eq (f : ℕ → R) (n : ℕ) :
    ∑ j ∈ Finset.range n, ((1 <<< (n - j - 1) : ℕ) : R) * f j =
      evalSum (fun j => f (n - 1 - j)) n ((2 : ℕ) : R) := by
  rw [← sum_reflect_eq]
  apply Finset.sum_congr rfl
  intro j _
  rw [Nat.shiftLeft_eq, one_mul, Nat.cast_pow, mul_comm, Nat.sub_right_comm]

end Sums

section Values

variable {midpoint n : ℕ} {limb : ℕ → GoldilocksField}

/-- The range checks of the fold over limbs. -/
lemma forall_mem_limbFold {base bound : ℕ} (hbound : bound ≤ goldilocksOrder) :
    (∀ cons ∈ (limbFold base bound midpoint (midpoint + n) limb).1, cons = 0) ↔
      ∀ j < midpoint + n, (limb j).val < bound := by
  rw [limbFold_eq]
  simp only [List.forall_mem_map, List.mem_reverse, List.mem_range, rangeProduct_eq_zero_iff hbound]

/-- The constraints on the limbs of a low and a high output. -/
lemma forall_mem_limbs {base : ℕ} (hbase : base ≤ goldilocksOrder) {low high : GoldilocksField} :
    (∀ cons ∈ (limbFold base base midpoint (midpoint + n) limb).1 ++
        [(limbFold base base midpoint (midpoint + n) limb).2.1 - low,
          (limbFold base base midpoint (midpoint + n) limb).2.2 - high], cons = 0) ↔
      (∀ j < midpoint + n, (limb j).val < base) ∧
        evalSum limb midpoint (base : GoldilocksField) = low ∧
        evalSum (fun j => limb (midpoint + j)) n (base : GoldilocksField) = high := by
  rw [List.forall_mem_append, forall_mem_limbFold hbase, limbFold_eq, List.forall_mem_cons,
    List.forall_mem_singleton, sub_eq_zero, sub_eq_zero]

/-- The low digits of a number, written as limbs. -/
lemma evalSum_digits_mod {b x : ℕ} (h : ∀ j < n, limb j = (x / b ^ j % b : ℕ)) :
    evalSum limb n (b : GoldilocksField) = (x % b ^ n : ℕ) := by
  rw [PrimeDigits.evalSum_natCast h, PrimeDigits.evalSum_digits_mod]

/-- Digits written as limbs combine to the number. -/
lemma evalSum_digits {b x : ℕ} (hx : x < b ^ n) (h : ∀ j < n, limb j = (x / b ^ j % b : ℕ)) :
    evalSum limb n (b : GoldilocksField) = x := by
  rw [evalSum_digits_mod h, Nat.mod_eq_of_lt hx]

end Values

end MegaZK
