import MegaZK.BigUint.Orders
import MegaZK.Curve25519.FieldElement51
import Mathlib.Algebra.Field.ZMod
import Mathlib.Tactic.LinearCombination

/-! # Arithmetic modulo `2 ^ 255 - 19`

No operation on limbs below `2 ^ 54` wraps, and its result denotes that of the field. -/

namespace MegaZK

open Words

/-- The order of the base field of the curve. -/
def ed25519Order : ℕ := 2 ^ 255 - 19

abbrev Ed25519Field := ZMod ed25519Order

instance : Fact ed25519Order.Prime := ⟨prime_of_mem_orders ed25519Order (by decide)⟩

@[simp] lemma and_low51BitMask (x : ℕ) : x &&& low51BitMask = x % 2 ^ 51 :=
  Nat.and_two_pow_sub_one_eq_mod x 51

namespace FieldElement51

/-- The number that the limbs stand for. -/
def value (a : FieldElement51) : ℕ :=
  a.l0 + 2 ^ 51 * a.l1 + 2 ^ 102 * a.l2 + 2 ^ 153 * a.l3 + 2 ^ 204 * a.l4

/-- The field element that the limbs denote. -/
def toField (a : FieldElement51) : Ed25519Field := (a.value : ℕ)

/-- Every limb is below `b`. -/
structure Below (a : FieldElement51) (b : ℕ) : Prop where
  l0 : a.l0 < b
  l1 : a.l1 < b
  l2 : a.l2 < b
  l3 : a.l3 < b
  l4 : a.l4 < b

lemma Below.mono {a : FieldElement51} {b c : ℕ} (h : a.Below b) (hbc : b ≤ c) : a.Below c :=
  ⟨h.l0.trans_le hbc, h.l1.trans_le hbc, h.l2.trans_le hbc, h.l3.trans_le hbc,
    h.l4.trans_le hbc⟩

lemma below_mk {l0 l1 l2 l3 l4 b : ℕ} (h0 : l0 < b) (h1 : l1 < b) (h2 : l2 < b) (h3 : l3 < b)
    (h4 : l4 < b) : Below ⟨l0, l1, l2, l3, l4⟩ b := ⟨h0, h1, h2, h3, h4⟩

local instance atLeastTwo_radixBase : Nat.AtLeastTwo 2 := ⟨le_refl 2⟩

/-- The weight of the second limb. -/
def radix : Ed25519Field := 2 ^ 51

/-- The weight past the last limb. -/
lemma radix_pow_five : radix ^ 5 = 19 := by
  have horder : ((2 ^ 255 - 19 + 19 : ℕ) : Ed25519Field) = 19 := by
    rw [Nat.cast_add, show ((2 ^ 255 - 19 : ℕ) : Ed25519Field) = 0 from ZMod.natCast_self _,
      zero_add]
    rfl
  rw [radix, ← pow_mul, ← horder, Nat.sub_add_cancel (by norm_num), Nat.cast_pow]
  rfl

lemma toField_eq (a : FieldElement51) : a.toField =
    a.l0 + radix * a.l1 + radix ^ 2 * a.l2 + radix ^ 3 * a.l3 + radix ^ 4 * a.l4 := by
  rw [toField, value, radix]
  push_cast
  ring

/-- The low bits and the carry of a limb. -/
lemma natCast_mod (x : ℕ) :
    ((x % 2 ^ 51 : ℕ) : Ed25519Field) = x - radix * (x / 2 ^ 51 : ℕ) := by
  rw [eq_sub_iff_add_eq, radix]
  exact_mod_cast congrArg Nat.cast (Nat.mod_add_div x (2 ^ 51))

variable {a b : FieldElement51}

/-! ### Sums and differences -/

/-- The limbs of a sum. -/
lemma add_exact {m n : ℕ} (ha : a.Below m) (hb : b.Below n) (h : m + n ≤ 2 ^ 64) :
    Exact (a.add b) (· = ⟨a.l0 + b.l0, a.l1 + b.l1, a.l2 + b.l2, a.l3 + b.l3, a.l4 + b.l4⟩) := by
  obtain ⟨ha0, ha1, ha2, ha3, ha4⟩ := ha
  obtain ⟨hb0, hb1, hb2, hb3, hb4⟩ := hb
  unfold add
  refine .bind (.word (by omega)) fun l0 h0 => ?_
  refine .bind (.word (by omega)) fun l1 h1 => ?_
  refine .bind (.word (by omega)) fun l2 h2 => ?_
  refine .bind (.word (by omega)) fun l3 h3 => ?_
  refine .bind (.word (by omega)) fun l4 h4 => ?_
  rw [h0, h1, h2, h3, h4]
  exact .pure rfl

lemma toField_add_limbs (a b : FieldElement51) :
    toField ⟨a.l0 + b.l0, a.l1 + b.l1, a.l2 + b.l2, a.l3 + b.l3, a.l4 + b.l4⟩ =
      a.toField + b.toField := by
  simp only [toField_eq, Nat.cast_add]
  ring

/-- `reduce` keeps the field element. -/
lemma reduce_exact (ha : a.Below (2 ^ 64)) :
    Exact a.reduce fun r => r.toField = a.toField ∧ r.Below (2 ^ 51 + 2 ^ 18) := by
  obtain ⟨ha0, ha1, ha2, ha3, ha4⟩ := ha
  unfold reduce
  simp only [and_low51BitMask, Nat.shiftRight_eq_div_pow]
  refine .bind (.word (by omega)) fun fold hfold => ?_
  refine .bind (.word (by omega)) fun l0 h0 => ?_
  refine .bind (.word (by omega)) fun l1 h1 => ?_
  refine .bind (.word (by omega)) fun l2 h2 => ?_
  refine .bind (.word (by omega)) fun l3 h3 => ?_
  refine .bind (.word (by omega)) fun l4 h4 => ?_
  refine .pure ⟨?_, below_mk (by omega) (by omega) (by omega) (by omega) (by omega)⟩
  rw [toField_eq, toField_eq, h0, h1, h2, h3, h4, hfold]
  simp only [Nat.cast_add, Nat.cast_mul, Nat.cast_ofNat, natCast_mod]
  linear_combination -((a.l4 / 2 ^ 51 : ℕ) : Ed25519Field) * radix_pow_five

lemma subLimbs_exact {c : FieldElement51} (hc : c.Below (2 ^ 64)) (h0 : b.l0 ≤ c.l0)
    (h1 : b.l1 ≤ c.l1) (h2 : b.l2 ≤ c.l2) (h3 : b.l3 ≤ c.l3) (h4 : b.l4 ≤ c.l4) :
    Exact (c.subLimbs b) fun r => r.toField = c.toField - b.toField ∧ r.Below (2 ^ 64) := by
  obtain ⟨hc0, hc1, hc2, hc3, hc4⟩ := hc
  unfold subLimbs
  refine .bind (.wordSub hc0 h0) fun l0 hl0 => ?_
  refine .bind (.wordSub hc1 h1) fun l1 hl1 => ?_
  refine .bind (.wordSub hc2 h2) fun l2 hl2 => ?_
  refine .bind (.wordSub hc3 h3) fun l3 hl3 => ?_
  refine .bind (.wordSub hc4 h4) fun l4 hl4 => ?_
  refine .pure ⟨?_, below_mk (by omega) (by omega) (by omega) (by omega) (by omega)⟩
  rw [toField_eq, toField_eq, toField_eq, hl0, hl1, hl2, hl3, hl4, Nat.cast_sub h0,
    Nat.cast_sub h1, Nat.cast_sub h2, Nat.cast_sub h3, Nat.cast_sub h4]
  ring

/-- The bias is sixteen times the order. -/
lemma toField_bias : bias.toField = 0 := by
  rw [toField, show bias.value = 16 * ed25519Order by decide, Nat.cast_mul,
    ZMod.natCast_self, mul_zero]

/-- Subtracting from limbs that are not below the bias. -/
lemma biased_sub_exact {c : FieldElement51} (hc : c.Below (2 ^ 64)) (hb : b.Below (2 ^ 54))
    (h0 : bias.l0 ≤ c.l0) (h1 : bias.l1 ≤ c.l1) (h2 : bias.l2 ≤ c.l2) (h3 : bias.l3 ≤ c.l3)
    (h4 : bias.l4 ≤ c.l4) :
    Exact (c.subLimbs b >>= reduce) fun r =>
      r.toField = c.toField - b.toField ∧ r.Below (2 ^ 51 + 2 ^ 18) := by
  obtain ⟨hb0, hb1, hb2, hb3, hb4⟩ := hb
  have hlow : 2 ^ 54 ≤ bias.l0 ∧ 2 ^ 54 ≤ bias.l1 ∧ 2 ^ 54 ≤ bias.l2 ∧ 2 ^ 54 ≤ bias.l3 ∧
      2 ^ 54 ≤ bias.l4 := by decide
  refine .bind (subLimbs_exact hc (by omega) (by omega) (by omega) (by omega) (by omega)) ?_
  rintro limbs ⟨hlimbs, hbelow⟩
  rw [← hlimbs]
  exact reduce_exact hbelow

lemma sub_exact (ha : a.Below (2 ^ 54)) (hb : b.Below (2 ^ 54)) :
    Exact (a.sub b) fun r =>
      r.toField = a.toField - b.toField ∧ r.Below (2 ^ 51 + 2 ^ 18) := by
  have hbias : bias.Below (2 ^ 63) := by constructor <;> decide
  have hadd := add_exact ha hbias (by norm_num)
  refine .bind hadd ?_
  rintro biased rfl
  rw [← add_zero a.toField, ← toField_bias, ← toField_add_limbs]
  obtain ⟨ha0, ha1, ha2, ha3, ha4⟩ := ha
  obtain ⟨h0, h1, h2, h3, h4⟩ := hbias
  refine biased_sub_exact ?_ hb (Nat.le_add_left _ _) (Nat.le_add_left _ _) (Nat.le_add_left _ _)
    (Nat.le_add_left _ _) (Nat.le_add_left _ _)
  exact below_mk (by omega) (by omega) (by omega) (by omega) (by omega)

lemma neg_exact (ha : a.Below (2 ^ 54)) :
    Exact a.neg fun r => r.toField = -a.toField ∧ r.Below (2 ^ 51 + 2 ^ 18) := by
  have hbias : bias.Below (2 ^ 64) := by constructor <;> decide
  rw [← zero_sub, ← toField_bias]
  exact biased_sub_exact hbias ha le_rfl le_rfl le_rfl le_rfl le_rfl

/-! ### Products -/

/-- Columns that the carries do not wrap. -/
lemma carryColumns_exact {c0 c1 c2 c3 c4 : ℕ} (h0 : c0 < 95 * 2 ^ 108) (h1 : c1 < 95 * 2 ^ 108)
    (h2 : c2 < 95 * 2 ^ 108) (h3 : c3 < 95 * 2 ^ 108) (h4 : c4 < 5 * 2 ^ 108) :
    Exact (carryColumns c0 c1 c2 c3 c4) fun r =>
      r.toField = c0 + radix * c1 + radix ^ 2 * c2 + radix ^ 3 * c3 + radix ^ 4 * c4 ∧
        r.Below (2 ^ 51 + 2 ^ 18) := by
  have hlow : ∀ c : ℕ, c % 2 ^ 64 % 2 ^ 51 = c % 2 ^ 51 := fun c =>
    Nat.mod_mod_of_dvd c (Nat.pow_dvd_pow 2 (by decide))
  unfold carryColumns
  simp only [and_low51BitMask, Nat.shiftRight_eq_div_pow, hlow]
  refine .bind (.word (by omega)) fun carry0 hcarry0 => ?_
  refine .bind (.word (by omega)) fun c1' hc1 => ?_
  refine .bind (.word (by omega)) fun carry1 hcarry1 => ?_
  refine .bind (.word (by omega)) fun c2' hc2 => ?_
  refine .bind (.word (by omega)) fun carry2 hcarry2 => ?_
  refine .bind (.word (by omega)) fun c3' hc3 => ?_
  refine .bind (.word (by omega)) fun carry3 hcarry3 => ?_
  refine .bind (.word (by omega)) fun c4' hc4 => ?_
  refine .bind (.word (by omega)) fun carry4 hcarry4 => ?_
  refine .bind (.word (by omega)) fun fold hfold => ?_
  refine .bind (.word (by omega)) fun l0 hl0 => ?_
  refine .bind (.word (by omega)) fun l1 hl1 => ?_
  refine .pure ⟨?_, below_mk (by omega) (by omega) (by omega) (by omega) (by omega)⟩
  have hcolumn : ∀ {c c' carry low : ℕ}, c' = c + carry → carry = low / 2 ^ 51 →
      (c' : Ed25519Field) = c + (low / 2 ^ 51 : ℕ) := by
    rintro c c' carry low rfl rfl
    exact Nat.cast_add _ _
  have hl0' : (l0 : Ed25519Field) = c0 - radix * (c0 / 2 ^ 51 : ℕ) + 19 * (c4' / 2 ^ 51 : ℕ) := by
    rw [hl0, hfold, hcarry4, Nat.cast_add, Nat.cast_mul, natCast_mod, Nat.cast_ofNat]
    ring
  rw [toField_eq, hl1, Nat.cast_add]
  simp only [natCast_mod]
  linear_combination hl0' + radix * hcolumn hc1 hcarry0 + radix ^ 2 * hcolumn hc2 hcarry1 +
    radix ^ 3 * hcolumn hc3 hcarry2 + radix ^ 4 * hcolumn hc4 hcarry3 -
    ((c4' / 2 ^ 51 : ℕ) : Ed25519Field) * radix_pow_five

/-- A column of five products. -/
lemma column_exact {x0 x1 x2 x3 x4 y0 y1 y2 y3 y4 m : ℕ} (h0 : x0 * y0 < m) (h1 : x1 * y1 < m)
    (h2 : x2 * y2 < m) (h3 : x3 * y3 < m) (h4 : x4 * y4 < m) (hm : 5 * m ≤ 2 ^ 128) :
    Exact (dot 128 [(x0, y0), (x1, y1), (x2, y2), (x3, y3), (x4, y4)] 0) fun c =>
      c = x0 * y0 + x1 * y1 + x2 * y2 + x3 * y3 + x4 * y4 ∧ c < 5 * m := by
  have hsum : ([(x0, y0), (x1, y1), (x2, y2), (x3, y3), (x4, y4)].map fun f => f.1 * f.2).sum =
      x0 * y0 + x1 * y1 + x2 * y2 + x3 * y3 + x4 * y4 := by
    simp only [List.map_cons, List.map_nil, List.sum_cons, List.sum_nil]
    ring
  refine (Exact.dot (by omega)).mono ?_
  rintro c rfl
  exact ⟨hsum, by omega⟩

lemma mul_lt {x y : ℕ} (hx : x < 2 ^ 54) (hy : y < 2 ^ 54) : x * y < 2 ^ 108 :=
  (Nat.mul_lt_mul'' hx hy).trans_eq (by norm_num)

lemma mul_nineteen_lt {x y : ℕ} (hx : x < 2 ^ 54) (hy : y < 2 ^ 54) :
    x * (y * 19) < 19 * 2 ^ 108 := by
  have hxy := mul_lt hx hy
  rw [← mul_assoc]
  omega

lemma mul_exact (ha : a.Below (2 ^ 54)) (hb : b.Below (2 ^ 54)) :
    Exact (a.mul b) fun r =>
      r.toField = a.toField * b.toField ∧ r.Below (2 ^ 51 + 2 ^ 18) := by
  have hle : 2 ^ 108 ≤ 19 * 2 ^ 108 := by norm_num
  obtain ⟨ha0, ha1, ha2, ha3, ha4⟩ := ha
  obtain ⟨hb0, hb1, hb2, hb3, hb4⟩ := hb
  unfold mul
  refine .bind (.word (by omega)) fun b1_19 hb1_19 => ?_
  refine .bind (.word (by omega)) fun b2_19 hb2_19 => ?_
  refine .bind (.word (by omega)) fun b3_19 hb3_19 => ?_
  refine .bind (.word (by omega)) fun b4_19 hb4_19 => ?_
  rw [hb1_19, hb2_19, hb3_19, hb4_19]
  refine .bind (column_exact ((mul_lt ha0 hb0).trans_le hle) (mul_nineteen_lt ha4 hb1)
    (mul_nineteen_lt ha3 hb2) (mul_nineteen_lt ha2 hb3) (mul_nineteen_lt ha1 hb4)
    (by norm_num)) ?_
  rintro c0 ⟨hc0, hlt0⟩
  refine .bind (column_exact ((mul_lt ha1 hb0).trans_le hle) ((mul_lt ha0 hb1).trans_le hle)
    (mul_nineteen_lt ha4 hb2) (mul_nineteen_lt ha3 hb3) (mul_nineteen_lt ha2 hb4)
    (by norm_num)) ?_
  rintro c1 ⟨hc1, hlt1⟩
  refine .bind (column_exact ((mul_lt ha2 hb0).trans_le hle) ((mul_lt ha1 hb1).trans_le hle)
    ((mul_lt ha0 hb2).trans_le hle) (mul_nineteen_lt ha4 hb3) (mul_nineteen_lt ha3 hb4)
    (by norm_num)) ?_
  rintro c2 ⟨hc2, hlt2⟩
  refine .bind (column_exact ((mul_lt ha3 hb0).trans_le hle) ((mul_lt ha2 hb1).trans_le hle)
    ((mul_lt ha1 hb2).trans_le hle) ((mul_lt ha0 hb3).trans_le hle) (mul_nineteen_lt ha4 hb4)
    (by norm_num)) ?_
  rintro c3 ⟨hc3, hlt3⟩
  refine .bind (column_exact (mul_lt ha4 hb0) (mul_lt ha3 hb1) (mul_lt ha2 hb2)
    (mul_lt ha1 hb3) (mul_lt ha0 hb4) (by norm_num)) ?_
  rintro c4 ⟨hc4, hlt4⟩
  refine (carryColumns_exact (by omega) (by omega) (by omega) (by omega) hlt4).mono ?_
  rintro r ⟨hr, hbelow⟩
  refine ⟨?_, hbelow⟩
  rw [hr, hc0, hc1, hc2, hc3, hc4, toField_eq, toField_eq]
  push_cast
  -- The products past the last limb come back multiplied by 19.
  linear_combination -(a.l4 * b.l1 + a.l3 * b.l2 + a.l2 * b.l3 + a.l1 * b.l4 +
    radix * (a.l4 * b.l2 + a.l3 * b.l3 + a.l2 * b.l4) +
    radix ^ 2 * (a.l4 * b.l3 + a.l3 * b.l4) + radix ^ 3 * a.l4 * b.l4) * radix_pow_five

/-- The column of a square. -/
lemma squareColumn_exact {x y x1 y1 x2 y2 m : ℕ} (h : x * y < m) (h1 : x1 * y1 < m)
    (h2 : x2 * y2 < m) (hm : 5 * m ≤ 2 ^ 128) :
    Exact (squareColumn x y x1 y1 x2 y2) fun c =>
      c = x * y + 2 * (x1 * y1 + x2 * y2) ∧ c < 5 * m := by
  have hsum : ([(x1, y1), (x2, y2)].map fun f => f.1 * f.2).sum = x1 * y1 + x2 * y2 := rfl
  unfold squareColumn
  refine .bind (.word (by omega)) fun product hproduct => ?_
  refine .bind (.dot (by omega)) fun sum hdot => ?_
  refine .bind (.word (by omega)) fun double hdouble => ?_
  refine (Exact.word (by omega)).mono fun c hc => ?_
  omega

lemma pow2kStep_exact (ha : a.Below (2 ^ 54)) :
    Exact a.pow2kStep fun r => r.toField = a.toField ^ 2 ∧ r.Below (2 ^ 51 + 2 ^ 18) := by
  have hle : 2 ^ 108 ≤ 19 * 2 ^ 108 := by norm_num
  obtain ⟨h0, h1, h2, h3, h4⟩ := ha
  unfold pow2kStep
  refine .bind (.word (by omega)) fun a3_19 ha3_19 => ?_
  refine .bind (.word (by omega)) fun a4_19 ha4_19 => ?_
  rw [ha3_19, ha4_19, mul_comm 19 a.l3, mul_comm 19 a.l4]
  refine .bind (squareColumn_exact ((mul_lt h0 h0).trans_le hle) (mul_nineteen_lt h1 h4)
    (mul_nineteen_lt h2 h3) (by norm_num)) ?_
  rintro c0 ⟨hc0, hlt0⟩
  refine .bind (squareColumn_exact (mul_nineteen_lt h3 h3) ((mul_lt h0 h1).trans_le hle)
    (mul_nineteen_lt h2 h4) (by norm_num)) ?_
  rintro c1 ⟨hc1, hlt1⟩
  refine .bind (squareColumn_exact ((mul_lt h1 h1).trans_le hle) ((mul_lt h0 h2).trans_le hle)
    (mul_nineteen_lt h4 h3) (by norm_num)) ?_
  rintro c2 ⟨hc2, hlt2⟩
  refine .bind (squareColumn_exact (mul_nineteen_lt h4 h4) ((mul_lt h0 h3).trans_le hle)
    ((mul_lt h1 h2).trans_le hle) (by norm_num)) ?_
  rintro c3 ⟨hc3, hlt3⟩
  refine .bind (squareColumn_exact (mul_lt h2 h2) (mul_lt h0 h4) (mul_lt h1 h3)
    (by norm_num)) ?_
  rintro c4 ⟨hc4, hlt4⟩
  refine (carryColumns_exact (by omega) (by omega) (by omega) (by omega) hlt4).mono ?_
  rintro r ⟨hr, hbelow⟩
  refine ⟨?_, hbelow⟩
  rw [hr, hc0, hc1, hc2, hc3, hc4, toField_eq]
  push_cast
  linear_combination -(2 * a.l1 * a.l4 + 2 * a.l2 * a.l3 +
    radix * (a.l3 * a.l3 + 2 * a.l2 * a.l4) + radix ^ 2 * (2 * a.l4 * a.l3) +
    radix ^ 3 * a.l4 * a.l4) * radix_pow_five

lemma pow2kLoop_exact (k : ℕ) (ha : a.Below (2 ^ 54)) :
    Exact (pow2kLoop k a) fun r =>
      r.toField = a.toField ^ 2 ^ (k + 1) ∧ r.Below (2 ^ 51 + 2 ^ 18) := by
  induction k generalizing a with
  | zero => exact pow2kStep_exact ha
  | succ k ih =>
    refine .bind (pow2kStep_exact ha) ?_
    rintro b ⟨hb, hbelow⟩
    rw [pow_succ', pow_mul, ← hb]
    exact ih (hbelow.mono (by norm_num))

/-- The number of rounds of `pow2k`. -/
def pow2kRounds (k : ℕ) : ℕ := (k + 2 ^ 32 - 1) % 2 ^ 32 + 1

lemma pow2kRounds_eq {k : ℕ} (hk : 0 < k) (hlt : k < 2 ^ 32) : pow2kRounds k = k := by
  unfold pow2kRounds
  omega

lemma pow2k_exact (k : ℕ) (ha : a.Below (2 ^ 54)) :
    Exact (a.pow2k k) fun r =>
      r.toField = a.toField ^ 2 ^ pow2kRounds k ∧ r.Below (2 ^ 51 + 2 ^ 18) :=
  pow2kLoop_exact _ ha

lemma square_exact (ha : a.Below (2 ^ 54)) :
    Exact a.square fun r => r.toField = a.toField ^ 2 ∧ r.Below (2 ^ 51 + 2 ^ 18) :=
  pow2k_exact 1 ha

end FieldElement51

end MegaZK
