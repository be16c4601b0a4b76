import MegaZK.Curve25519.Encoding
import Mathlib.NumberTheory.LegendreSymbol.Basic

/-! # Square roots of ratios

`sqrt_ratio_i` raises to the power `(p - 5) / 8` by a chain of squarings and corrects the result by
a root of `-1`. -/

namespace MegaZK.FieldElement51

open Words

def pow22501 (a : FieldElement51) : Words FieldElement51 := do
  let t0 ← a.square
  let t1 ← (← t0.square).square
  let t2 ← a.mul t1
  let t3 ← t0.mul t2
  let t4 ← t3.square
  let t5 ← t2.mul t4
  let t6 ← t5.pow2k 5
  let t7 ← t6.mul t5
  let t8 ← t7.pow2k 10
  let t9 ← t8.mul t7
  let t10 ← t9.pow2k 20
  let t11 ← t10.mul t9
  let t12 ← t11.pow2k 10
  let t13 ← t12.mul t7
  let t14 ← t13.pow2k 50
  let t15 ← t14.mul t13
  let t16 ← t15.pow2k 100
  let t17 ← t16.mul t15
  let t18 ← t17.pow2k 50
  t18.mul t13

def powP58 (a : FieldElement51) : Words FieldElement51 := do
  let t19 ← a.pow22501
  let t20 ← t19.pow2k 2
  a.mul t20

/-- `operator==`. -/
def eq (a b : FieldElement51) : Words Bool := do
  let aBytes ← a.asBytes
  let bBytes ← b.asBytes
  return aBytes == bBytes

/-- `check == -u || check == -u * i`. -/
def isFlipped (check u i : FieldElement51) : Words Bool := do
  if ← check.eq (← u.neg) then
    return true
  else
    check.eq (← (← u.neg).mul i)

def sqrtRatioI (u v : FieldElement51) : Words FieldElement51 := do
  let v3 ← (← u.square).mul v
  let v7 ← (← v3.square).mul v
  let r ← (← u.mul v3).mul (← (← u.mul v7).powP58)
  let check ← v.mul (← r.square)
  let i := sqrtM1
  let rPrime ← i.mul r
  let r := if ← check.isFlipped u i then rPrime else r
  let bytes ← r.asBytes
  if bytes.getD 0 0 &&& 1 = 1 then r.neg else return r

/-! ### The chain of squarings -/

/-- Reduced limbs of a field element. -/
def Denotes (a : FieldElement51) (x : Ed25519Field) : Prop := a.toField = x ∧ a.Below (2 ^ 54)

variable {a b : FieldElement51} {x y : Ed25519Field}

lemma Denotes.mul (ha : a.Denotes x) (hb : b.Denotes y) :
    Exact (a.mul b) fun r => r.Denotes (x * y) := by
  refine (mul_exact ha.2 hb.2).mono fun r hr => ?_
  rw [← ha.1, ← hb.1]
  exact ⟨hr.1, hr.2.mono (by norm_num)⟩

lemma Denotes.pow2k (ha : a.Denotes x) {k : ℕ} (hk : 0 < k) (hlt : k < 2 ^ 32) :
    Exact (a.pow2k k) fun r => r.Denotes (x ^ 2 ^ k) := by
  refine (pow2k_exact k ha.2).mono fun r hr => ?_
  rw [← ha.1, ← pow2kRounds_eq hk hlt]
  exact ⟨hr.1, hr.2.mono (by norm_num)⟩

lemma Denotes.square (ha : a.Denotes x) : Exact a.square fun r => r.Denotes (x ^ 2) :=
  ha.pow2k one_pos (by norm_num)

lemma Denotes.neg (ha : a.Denotes x) : Exact a.neg fun r => r.Denotes (-x) := by
  refine (neg_exact ha.2).mono fun r hr => ?_
  rw [← ha.1]
  exact ⟨hr.1, hr.2.mono (by norm_num)⟩

section Powers

variable {e f : ℕ}

lemma Denotes.mul_pow (ha : a.Denotes (x ^ e)) (hb : b.Denotes (x ^ f)) :
    Exact (a.mul b) fun r => r.Denotes (x ^ (e + f)) := by
  rw [pow_add]
  exact ha.mul hb

lemma Denotes.pow2k_pow (ha : a.Denotes (x ^ e)) {k : ℕ} (hk : 0 < k) (hlt : k < 2 ^ 32) :
    Exact (a.pow2k k) fun r => r.Denotes (x ^ (e * 2 ^ k)) := by
  rw [pow_mul]
  exact ha.pow2k hk hlt

lemma Denotes.square_pow (ha : a.Denotes (x ^ e)) :
    Exact a.square fun r => r.Denotes (x ^ (e * 2)) :=
  ha.pow2k_pow one_pos (by norm_num)

end Powers

lemma pow22501_exact (ha : a.Denotes x) :
    Exact a.pow22501 fun r => r.Denotes (x ^ (2 ^ 250 - 1)) := by
  have ha1 : a.Denotes (x ^ 1) := by rwa [pow_one]
  unfold pow22501
  refine .bind ha1.square_pow fun t0 h0 => ?_
  refine .bind h0.square_pow fun t h => ?_
  refine .bind h.square_pow fun t1 h1 => ?_
  refine .bind (ha1.mul_pow h1) fun t2 h2 => ?_
  refine .bind (h0.mul_pow h2) fun t3 h3 => ?_
  refine .bind h3.square_pow fun t4 h4 => ?_
  refine .bind (h2.mul_pow h4) fun t5 h5 => ?_
  refine .bind (h5.pow2k_pow (by norm_num) (by norm_num)) fun t6 h6 => ?_
  refine .bind (h6.mul_pow h5) fun t7 h7 => ?_
  refine .bind (h7.pow2k_pow (by norm_num) (by norm_num)) fun t8 h8 => ?_
  refine .bind (h8.mul_pow h7) fun t9 h9 => ?_
  refine .bind (h9.pow2k_pow (by norm_num) (by norm_num)) fun t10 h10 => ?_
  refine .bind (h10.mul_pow h9) fun t11 h11 => ?_
  refine .bind (h11.pow2k_pow (by norm_num) (by norm_num)) fun t12 h12 => ?_
  refine .bind (h12.mul_pow h7) fun t13 h13 => ?_
  refine .bind (h13.pow2k_pow (by norm_num) (by norm_num)) fun t14 h14 => ?_
  refine .bind (h14.mul_pow h13) fun t15 h15 => ?_
  refine .bind (h15.pow2k_pow (by norm_num) (by norm_num)) fun t16 h16 => ?_
  refine .bind (h16.mul_pow h15) fun t17 h17 => ?_
  refine .bind (h17.pow2k_pow (by norm_num) (by norm_num)) fun t18 h18 => ?_
  refine (h18.mul_pow h13).mono fun r hr => ?_
  convert hr using 2
  norm_num

/-- The exponent `(p - 5) / 8`. -/
lemma powP58_exact (ha : a.Denotes x) :
    Exact a.powP58 fun r => r.Denotes (x ^ (2 ^ 252 - 3)) := by
  have ha1 : a.Denotes (x ^ 1) := by rwa [pow_one]
  unfold powP58
  refine .bind (pow22501_exact ha) fun t19 h19 => ?_
  refine .bind (h19.pow2k_pow (by norm_num) (by norm_num)) fun t20 h20 => ?_
  refine (ha1.mul_pow h20).mono fun r hr => ?_
  convert hr using 2
  norm_num

/-! ### The correction by a root of `-1` -/

lemma Denotes.asBytes (ha : a.Denotes x) : Exact a.asBytes (· = bytesOf x.val) := by
  rw [← ha.1]
  exact asBytes_exact (ha.2.mono (by norm_num))

lemma bytesOf_inj : bytesOf x.val = bytesOf y.val ↔ x = y := by
  constructor
  · intro h
    have hx := (encodes_bytesOf x).value
    rw [h, (encodes_bytesOf y).value] at hx
    exact (ZMod.val_injective _ hx).symm
  · rintro rfl
    rfl

lemma Denotes.eq (ha : a.Denotes x) (hb : b.Denotes y) :
    Exact (a.eq b) (· = decide (x = y)) := by
  refine .bind ha.asBytes ?_
  rintro aBytes rfl
  refine .bind hb.asBytes ?_
  rintro bBytes rfl
  refine .pure ?_
  rw [Bool.eq_iff_iff, beq_iff_eq, decide_eq_true_iff, bytesOf_inj]

lemma isFlipped_exact {i : FieldElement51} {c z : Ed25519Field} (ha : a.Denotes c)
    (hb : b.Denotes y) (hi : i.Denotes z) :
    Exact (a.isFlipped b i) (· = decide (c = -y ∨ c = -y * z)) := by
  unfold isFlipped
  refine .bind hb.neg fun negU hneg => ?_
  refine .bind (ha.eq hneg) ?_
  rintro first rfl
  by_cases hfirst : c = -y
  · rw [decide_eq_true hfirst, if_pos rfl]
    exact .pure (decide_eq_true (.inl hfirst)).symm
  · rw [decide_eq_false hfirst, if_neg Bool.false_ne_true]
    refine .bind hb.neg fun negU hneg => ?_
    refine .bind (hneg.mul hi) fun product hproduct => ?_
    refine (ha.eq hproduct).mono ?_
    rintro second rfl
    rw [decide_eq_decide]
    exact (or_iff_right hfirst).symm

/-- The root of `-1`. -/
lemma denotes_sqrtM1 : sqrtM1.Denotes sqrtM1.toField :=
  ⟨rfl, by constructor <;> decide⟩

lemma sqrtM1_sq : sqrtM1.toField ^ 2 = -1 := by
  rw [toField, ← Nat.cast_pow, eq_neg_iff_add_eq_zero, ← Nat.cast_one (R := Ed25519Field),
    ← Nat.cast_add, ZMod.natCast_eq_zero_iff]
  decide

section Root

variable {u v s : Ed25519Field}

/-- The first estimate of the root. -/
def firstRoot (u v : Ed25519Field) : Ed25519Field :=
  u * (u ^ 2 * v) * (u * ((u ^ 2 * v) ^ 2 * v)) ^ (2 ^ 252 - 3)

/-- Up to its sign it is right for squares. -/
lemma firstRoot_sq (h : u = v * s ^ 2) :
    v * firstRoot u v ^ 2 = u ∨ v * firstRoot u v ^ 2 = -u := by
  have hsquare : u * ((u ^ 2 * v) ^ 2 * v) = (v ^ 4 * s ^ 5) ^ 2 := by
    rw [h]
    ring
  have hhalf : 2 * (2 * (2 ^ 252 - 3) + 1) = ed25519Order / 2 := by decide
  have hpow : v * firstRoot u v ^ 2 = u * (v ^ 4 * s ^ 5) ^ (ed25519Order / 2) := by
    rw [firstRoot, ← hhalf, pow_mul, ← hsquare]
    generalize 2 ^ 252 - 3 = e
    ring
  rw [hpow]
  by_cases hzero : v ^ 4 * s ^ 5 = 0
  · left
    rcases mul_eq_zero.mp hzero with hv | hs
    · rw [h, pow_eq_zero_iff (by norm_num) |>.mp hv, zero_mul, zero_mul]
    · rw [h, pow_eq_zero_iff (by norm_num) |>.mp hs, zero_pow two_ne_zero, mul_zero, zero_mul]
  · rcases ZMod.pow_div_two_eq_neg_one_or_one ed25519Order hzero with hone | hneg
    · left
      rw [hone, mul_one]
    · right
      rw [hneg, mul_neg, mul_one]

/-- The root after the correction by a root `i` of `-1`. -/
lemma corrected_sq {r i : Ed25519Field} (hi : i ^ 2 = -1)
    (h : v * r ^ 2 = u ∨ v * r ^ 2 = -u) :
    v * (if v * r ^ 2 = -u ∨ v * r ^ 2 = -u * i then i * r else r) ^ 2 = u := by
  by_cases hneg : v * r ^ 2 = -u
  · rw [if_pos (.inl hneg), mul_pow, hi, neg_one_mul, mul_neg, hneg, neg_neg]
  · have hpos := h.resolve_right hneg
    have hno : v * r ^ 2 ≠ -u * i := by
      intro hflip
      rw [hpos] at hflip hneg
      have hmul : u * i = u := by
        calc u * i = -u * i * i := by rw [← hflip]
          _ = u := by rw [mul_assoc, ← pow_two, hi, neg_mul_neg, mul_one]
      rw [neg_mul, hmul] at hflip
      exact hneg hflip
    rw [if_neg (not_or.mpr ⟨hneg, hno⟩), hpos]

/-- One of two opposite elements is even. -/
lemma even_val_neg {x : Ed25519Field} (h : ¬ Even x.val) : Even (-x).val := by
  have hx : x ≠ 0 := by
    rintro rfl
    rw [ZMod.val_zero] at h
    exact h Even.zero
  have hlt : x.val ≤ ed25519Order := (ZMod.val_lt x).le
  have hodd : Odd ed25519Order := by decide
  rw [ZMod.neg_val, if_neg hx]
  exact Nat.Odd.sub_odd hodd (Nat.not_even_iff_odd.mp h)

end Root

lemma getD_bytesOf_and_one (n : ℕ) : (bytesOf n).getD 0 0 &&& 1 = n % 2 := by
  rw [getD_bytesOf n (by norm_num), Nat.and_one_is_mod, pow_zero, Nat.div_one]
  omega

/-- The even root of a ratio that is a square. -/
lemma sqrtRatioI_exact {u v : FieldElement51} {s : Ed25519Field} (hu : u.Denotes x)
    (hv : v.Denotes y) (h : x = y * s ^ 2) :
    Exact (sqrtRatioI u v) fun r =>
      ∃ root, r.Denotes root ∧ Even root.val ∧ y * root ^ 2 = x := by
  unfold sqrtRatioI
  refine .bind hu.square fun uu huu => ?_
  refine .bind (huu.mul hv) fun v3 hv3 => ?_
  refine .bind hv3.square fun v6 hv6 => ?_
  refine .bind (hv6.mul hv) fun v7 hv7 => ?_
  refine .bind (hu.mul hv3) fun uv3 huv3 => ?_
  refine .bind (hu.mul hv7) fun uv7 huv7 => ?_
  refine .bind (powP58_exact huv7) fun power hpower => ?_
  refine .bind (huv3.mul hpower) fun r (hr : r.Denotes (firstRoot x y)) => ?_
  refine .bind hr.square fun rr hrr => ?_
  refine .bind (hv.mul hrr) fun check hcheck => ?_
  refine .bind (denotes_sqrtM1.mul hr) fun rPrime hrPrime => ?_
  refine .bind (isFlipped_exact hcheck hu denotes_sqrtM1) ?_
  intro flipped hflipped
  have hroot := corrected_sq sqrtM1_sq (firstRoot_sq h)
  generalize firstRoot x y = estimate at hr hrr hcheck hrPrime hflipped hroot
  have hcorrected : (if flipped = true then rPrime else r).Denotes
      (if y * estimate ^ 2 = -x ∨ y * estimate ^ 2 = -x * sqrtM1.toField then
        sqrtM1.toField * estimate else estimate) := by
    simp only [hflipped, decide_eq_true_eq]
    split_ifs
    · exact hrPrime
    · exact hr
  revert hroot hcorrected
  generalize (if flipped = true then rPrime else r) = r
  generalize (if y * estimate ^ 2 = -x ∨ y * estimate ^ 2 = -x * sqrtM1.toField then
    sqrtM1.toField * estimate else estimate) = root
  intro hroot hr
  refine .bind hr.asBytes ?_
  rintro bytes rfl
  rw [getD_bytesOf_and_one]
  split_ifs with hodd
  · refine hr.neg.mono fun negR hneg => ⟨-root, hneg, even_val_neg ?_, ?_⟩
    · rw [Nat.even_iff]
      omega
    · rw [neg_sq, hroot]
  · refine .pure ⟨root, hr, ?_, hroot⟩
    rw [Nat.even_iff]
    omega

end MegaZK.FieldElement51
