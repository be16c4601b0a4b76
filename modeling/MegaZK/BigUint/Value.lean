import Mathlib.Tactic.LinearCombination
import MegaZK.BigUint.Basic

/-! # Values of big numbers

Every operation gives the number that it stands for, as long as no length passes the digit
array. -/

namespace MegaZK

open Horner Radix

namespace DigitArray

variable {d : DigitArray}

lemma load_of_lt {i : ℕ} (hi : i < maxDigits) : d.load i = some (d.digit i) := if_pos hi

lemma store_of_lt {i : ℕ} (hi : i < maxDigits) (x : ℕ) : d.store i x = some (d.update i x) :=
  if_pos hi

@[simp] lemma digit_init (i : ℕ) : init.digit i = 0 := rfl

@[simp] lemma digit_update_self (d : DigitArray) (i x : ℕ) :
    (d.update i x).digit i = x % 2 ^ 32 := by
  simp [update]

lemma digit_update_of_ne (d : DigitArray) {i k : ℕ} (hk : k ≠ i) (x : ℕ) :
    (d.update i x).digit k = d.digit k := by
  simp [update, Function.update_of_ne hk]

/-- A store above the counted digits does not change their value. -/
lemma evalSum_update_of_le (d : DigitArray) {n i : ℕ} (hn : n ≤ i) (x b : ℕ) :
    evalSum (d.update i x).digit n b = evalSum d.digit n b := by
  apply evalSum_congr
  intro k hk
  exact d.digit_update_of_ne (by omega) x

/-- A store of the next digit. -/
lemma evalSum_update_succ (d : DigitArray) (i x b : ℕ) :
    evalSum (d.update i x).digit (i + 1) b = evalSum d.digit i b + x % 2 ^ 32 * b ^ i := by
  rw [evalSum_succ, d.evalSum_update_of_le le_rfl, digit_update_self]

lemma evalSum_trimLength (d : DigitArray) (n : ℕ) :
    evalSum d.digit (d.trimLength n) (2 ^ 32) = evalSum d.digit n (2 ^ 32) := by
  induction n with
  | zero => rfl
  | succ n ih =>
    rw [trimLength]
    split_ifs with htop
    · rw [ih, evalSum_succ, htop, zero_mul, add_zero]
    · rfl

lemma digit_trimLength_ne_zero {n k : ℕ} (h : d.trimLength n = k + 1) : d.digit k ≠ 0 := by
  induction n with
  | zero => cases h
  | succ n ih =>
    rw [trimLength] at h
    split_ifs at h with htop
    · exact ih h
    · obtain rfl : n = k := Nat.succ.inj h
      exact htop

lemma digit_eq_zero_of_trimLength_le {n i : ℕ} (h : d.trimLength n ≤ i) (hi : i < n) :
    d.digit i = 0 := by
  induction n with
  | zero => cases hi
  | succ n ih =>
    rw [trimLength] at h
    split_ifs at h with htop
    · rcases Nat.lt_succ_iff_lt_or_eq.mp hi with hlt | rfl
      · exact ih h hlt
      · exact htop
    · omega

end DigitArray

namespace BigUint

variable {x y : BigUint}

/-- The digits from the length on are zero. -/
def Clean (x : BigUint) : Prop := ∀ i, x.length ≤ i → x.digit i = 0

/-- The top digit is not zero. -/
structure Trimmed (x : BigUint) : Prop where
  clean : x.Clean
  top_ne_zero : ∀ n, x.length = n + 1 → x.digit n ≠ 0

lemma Clean.evalSum_eq (hx : x.Clean) {n : ℕ} (hn : x.length ≤ n) :
    evalSum x.digit n (2 ^ 32) = x.value :=
  evalSum_of_zero hn fun i hi _ => hx i hi

lemma Trimmed.le_value (hx : x.Trimmed) {n : ℕ} (hn : x.length = n + 1) :
    (2 ^ 32) ^ n ≤ x.value := by
  rw [value, hn]
  exact le_evalSum (hx.top_ne_zero n hn)

lemma value_lt (x : BigUint) : x.value < (2 ^ 32) ^ x.length :=
  evalSum_lt fun i _ => x.digit_lt i

lemma trim_spec {d : DigitArray} {n : ℕ} (hn : n ≤ maxDigits) (hd : ∀ i, n ≤ i → d.digit i = 0) :
    ∃ r, trim d n = some r ∧ r.value = evalSum d.digit n (2 ^ 32) ∧ r.Trimmed := by
  refine ⟨_, dif_pos hn, d.evalSum_trimLength n, ?_, ?_⟩
  · intro i hi
    by_cases hlt : i < n
    · exact DigitArray.digit_eq_zero_of_trimLength_le hi hlt
    · exact hd i (Nat.not_lt.mp hlt)
  · intro k hk
    exact DigitArray.digit_trimLength_ne_zero hk

lemma Trimmed.value_eq_zero (hx : x.Trimmed) : x.value = 0 ↔ x.length = 0 := by
  constructor
  · intro hzero
    cases hlength : x.length with
    | zero => rfl
    | succ n =>
      have := hx.le_value hlength
      have : 0 < (2 ^ 32) ^ n := by positivity
      omega
  · intro hlength
    rw [value, hlength, evalSum_zero]

lemma isZero_iff : x.isZero = true ↔ (x.length = 1 ∧ x.digit 0 = 0) ∨ x.length = 0 := by
  simp [isZero]

lemma isOne_iff : x.isOne = true ↔ x.length = 1 ∧ x.digit 0 = 1 := by
  simp [isOne]

lemma value_of_isZero (h : x.isZero = true) : x.value = 0 := by
  rcases isZero_iff.mp h with ⟨hlength, hdigit⟩ | hlength
  · simp [value, hlength, evalSum_succ, hdigit]
  · simp [value, hlength]

lemma value_of_isOne (h : x.isOne = true) : x.value = 1 := by
  obtain ⟨hlength, hdigit⟩ := isOne_iff.mp h
  simp [value, hlength, evalSum_succ, hdigit]

/-! ### Sums -/

/-- The digits below `i` are the sum of those of the operands, up to the carry. -/
structure AddInv (x y : BigUint) (i carry : ℕ) (result : DigitArray) : Prop where
  sum_eq : evalSum result.digit i (2 ^ 32) + carry * (2 ^ 32) ^ i =
    evalSum x.digit i (2 ^ 32) + evalSum y.digit i (2 ^ 32)
  carry_le : carry ≤ 1
  above : ∀ k, i ≤ k → result.digit k = 0

lemma AddInv.step {i carry : ℕ} {result : DigitArray} (h : AddInv x y i carry result) :
    AddInv x y (i + 1) ((carry + x.digit i + y.digit i) >>> 32)
      (result.update i (carry + x.digit i + y.digit i)) where
  sum_eq := by
    have hdiv := Nat.mod_add_div (carry + x.digit i + y.digit i) (2 ^ 32)
    rw [DigitArray.evalSum_update_succ, Nat.shiftRight_eq_div_pow, evalSum_succ, evalSum_succ]
    calc _ = evalSum result.digit i (2 ^ 32) + ((carry + x.digit i + y.digit i) % 2 ^ 32 +
          2 ^ 32 * ((carry + x.digit i + y.digit i) / 2 ^ 32)) * (2 ^ 32) ^ i := by ring
      _ = evalSum result.digit i (2 ^ 32) + carry * (2 ^ 32) ^ i +
          (x.digit i + y.digit i) * (2 ^ 32) ^ i := by rw [hdiv]; ring
      _ = _ := by rw [h.sum_eq]; ring
  carry_le := by
    have := x.digit_lt i
    have := y.digit_lt i
    have := h.carry_le
    rw [Nat.shiftRight_eq_div_pow]
    omega
  above := by
    intro k hk
    rw [DigitArray.digit_update_of_ne _ (by omega)]
    exact h.above k (by omega)

lemma addLoop_spec (hx : x.Clean) (hy : y.Clean) {maxLength : ℕ} (hxl : x.length ≤ maxLength)
    (hyl : y.length ≤ maxLength) (hle : maxLength < maxDigits) (k fuel : ℕ) {i carry : ℕ}
    {result : DigitArray} (hi : i + k = maxLength) (hfuel : k + 2 ≤ fuel)
    (hinv : AddInv x y i carry result) :
    ∃ r, addLoop x y maxLength fuel i carry result = some r ∧
      evalSum r.digit (maxLength + 1) (2 ^ 32) = x.value + y.value ∧
      ∀ j, maxLength + 1 ≤ j → r.digit j = 0 := by
  induction k generalizing i carry fuel result with
  | zero =>
    obtain rfl : i = maxLength := hi
    have hsum := hinv.sum_eq
    rw [hx.evalSum_eq hxl, hy.evalSum_eq hyl] at hsum
    obtain ⟨fuel, rfl⟩ := Nat.exists_eq_add_of_le hfuel
    rw [show 0 + 2 + fuel = fuel + 1 + 1 by omega, addLoop]
    by_cases hcarry : carry = 0
    · rw [if_neg (by omega)]
      refine ⟨result, rfl, ?_, fun j hj => hinv.above j (by omega)⟩
      rw [evalSum_succ, hinv.above i le_rfl, ← hsum, hcarry]
    · -- the last carry is stored alone
      have hone : carry = 1 := by
        have := hinv.carry_le
        omega
      have hstep := hinv.step
      rw [if_pos (.inr hcarry), DigitArray.load_of_lt hle, DigitArray.load_of_lt hle]
      simp only [Option.bind_eq_bind, Option.bind_some]
      rw [hx i hxl, hy i hyl, hone] at hstep ⊢
      rw [DigitArray.store_of_lt hle, Option.bind_some, addLoop, if_neg (by simp)]
      refine ⟨_, rfl, ?_, hstep.above⟩
      have hnext := hstep.sum_eq
      rw [evalSum_succ x.digit, evalSum_succ y.digit, hx i hxl, hy i hyl, hx.evalSum_eq hxl,
        hy.evalSum_eq hyl] at hnext
      simpa using hnext
  | succ k ih =>
    obtain ⟨fuel, rfl⟩ := Nat.exists_eq_add_of_le hfuel
    rw [show k + 1 + 2 + fuel = k + 2 + fuel + 1 by omega, addLoop, if_pos (.inl (by omega)),
      DigitArray.load_of_lt (by omega), DigitArray.load_of_lt (by omega)]
    simp only [Option.bind_eq_bind, Option.bind_some]
    rw [DigitArray.store_of_lt (by omega), Option.bind_some]
    exact ih _ (by omega) (by omega) hinv.step

lemma addInv_init (x y : BigUint) : AddInv x y 0 0 .init where
  sum_eq := by simp
  carry_le := Nat.zero_le _
  above := fun _ _ => rfl

lemma add_spec (hx : x.Clean) (hy : y.Clean)
    (hlen : x.isZero = true ∨ y.isZero = true ∨ max x.length y.length < maxDigits) :
    ∃ r, x.add y = some r ∧ r.value = x.value + y.value ∧
      (x.isZero = true ∧ r = y ∨ y.isZero = true ∧ r = x ∨
        x.isZero = false ∧ y.isZero = false ∧ r.Trimmed) := by
  unfold add
  split_ifs with hzx hzy
  · exact ⟨y, rfl, by rw [value_of_isZero hzx, zero_add], .inl ⟨hzx, rfl⟩⟩
  · exact ⟨x, rfl, by rw [value_of_isZero hzy, add_zero], .inr (.inl ⟨hzy, rfl⟩)⟩
  · have hmax : max x.length y.length < maxDigits := by
      rcases hlen with h | h | h
      · exact absurd h hzx
      · exact absurd h hzy
      · exact h
    obtain ⟨d, hd, hsum, habove⟩ := addLoop_spec hx hy (le_max_left _ _) (le_max_right _ _) hmax
      (max x.length y.length) (maxDigits + 1) (Nat.zero_add _) (by omega) (addInv_init x y)
    obtain ⟨r, hr, hvalue, htrim⟩ := trim_spec hmax habove
    refine ⟨r, ?_, hvalue.trans hsum, .inr (.inr ⟨?_, ?_, htrim⟩)⟩
    · simp only [Option.bind_eq_bind, hd, Option.bind_some, hr]
    · simpa using hzx
    · simpa using hzy

/-! ### Differences -/

/-- The digits below `i` are the difference of those of the operands, up to the borrow. -/
structure SubInv (x y : BigUint) (i : ℕ) (borrow : ℤ) (result : DigitArray) : Prop where
  diff_eq : ((evalSum result.digit i (2 ^ 32) + evalSum y.digit i (2 ^ 32) : ℕ) : ℤ) =
    (evalSum x.digit i (2 ^ 32) : ℕ) + borrow * (2 ^ 32) ^ i
  borrow_eq : borrow = 0 ∨ borrow = 1
  above : ∀ k, i ≤ k → result.digit k = 0

lemma SubInv.step {i : ℕ} {borrow diff : ℤ} {result : DigitArray}
    (h : SubInv x y i borrow result) (hdiff : diff = x.digit i - y.digit i - borrow) :
    SubInv x y (i + 1) (if diff < 0 then 1 else 0)
      (result.update i (if diff < 0 then diff + 2 ^ 32 else diff).toNat) where
  diff_eq := by
    have hx := x.digit_lt i
    have hy := y.digit_lt i
    have hdigit : (((if diff < 0 then diff + 2 ^ 32 else diff).toNat % 2 ^ 32 : ℕ) : ℤ) =
        diff + (if diff < 0 then 1 else 0) * 2 ^ 32 := by
      rcases h.borrow_eq with hb | hb <;> rw [hb] at hdiff <;> split_ifs <;> omega
    have hstep := h.diff_eq
    rw [DigitArray.evalSum_update_succ, evalSum_succ, evalSum_succ]
    push_cast at hdigit hstep ⊢
    rw [hdigit, hdiff]
    linear_combination hstep
  borrow_eq := by split_ifs <;> simp
  above := by
    intro k hk
    rw [DigitArray.digit_update_of_ne _ (by omega)]
    exact h.above k (by omega)

lemma subLoop_spec (n : ℕ) {i : ℕ} {borrow : ℤ} {result : DigitArray}
    (h : SubInv x y i borrow result) :
    ∃ borrow', SubInv x y (i + n) borrow' (subLoop x y n i borrow result) := by
  induction n generalizing i borrow result with
  | zero => exact ⟨borrow, h⟩
  | succ n ih =>
    obtain ⟨borrow', hinv⟩ := ih (h.step rfl)
    exact ⟨borrow', by rwa [show i + (n + 1) = i + 1 + n by omega]⟩

lemma sub_spec (hy : y.Clean) (hle : y.value ≤ x.value) :
    ∃ r, x.sub y = some r ∧ r.value = x.value - y.value ∧
      (y.isZero = true ∧ r = x ∨ y.isZero = false ∧ r.Trimmed) := by
  unfold sub
  split_ifs with hzy
  · exact ⟨x, rfl, by rw [value_of_isZero hzy, Nat.sub_zero], .inl ⟨hzy, rfl⟩⟩
  · have hinit : SubInv x y 0 0 .init := ⟨by simp, .inl rfl, fun _ _ => rfl⟩
    obtain ⟨borrow, hinv⟩ := subLoop_spec x.length hinit
    rw [Nat.zero_add] at hinv
    obtain ⟨r, hr, hvalue, htrim⟩ := trim_spec x.length_le hinv.above
    refine ⟨r, hr, ?_, .inr ⟨by simpa using hzy, htrim⟩⟩
    -- the digits of `y` above those of `x` are zero, and nothing is borrowed at the end
    have hlow : evalSum y.digit x.length (2 ^ 32) = y.value := by
      have hsplit := evalSum_add y.digit x.length y.length (2 ^ 32)
      rw [hy.evalSum_eq (Nat.le_add_left _ _)] at hsplit
      have hlt := x.value_lt
      have hzero : evalSum (fun i => y.digit (x.length + i)) y.length (2 ^ 32) = 0 := by
        by_contra hne
        have := Nat.mul_le_mul_left ((2 ^ 32) ^ x.length) (Nat.one_le_iff_ne_zero.mpr hne)
        omega
      rw [hzero, mul_zero, add_zero] at hsplit
      exact hsplit.symm
    have hdiff := hinv.diff_eq
    rw [hlow, ← hvalue] at hdiff
    have hxv : evalSum x.digit x.length (2 ^ 32) = x.value := rfl
    rw [hxv] at hdiff
    have hrlt : r.value < (2 ^ 32) ^ x.length := by
      rw [hvalue]
      exact evalSum_lt fun i _ => DigitArray.digit_lt _ i
    have hpow : ((2 ^ 32 : ℤ)) ^ x.length = (((2 ^ 32) ^ x.length : ℕ) : ℤ) := by push_cast; rfl
    rcases hinv.borrow_eq with hb | hb
    · rw [hb] at hdiff
      omega
    · rw [hb, one_mul, hpow] at hdiff
      omega

/-! ### Products -/

/-- Row `i` after `j` digits: the digits below `i + j` and the carry hold the row and what was
there; the digits above are untouched. -/
structure RowInv (x y : BigUint) (before : DigitArray) (i j carry : ℕ) (result : DigitArray) :
    Prop where
  sum_eq : evalSum result.digit (i + j) (2 ^ 32) + carry * (2 ^ 32) ^ (i + j) =
    evalSum before.digit (i + j) (2 ^ 32) +
      x.digit i * evalSum y.digit j (2 ^ 32) * (2 ^ 32) ^ i
  carry_lt : carry < 2 ^ 32
  above : ∀ k, i + j ≤ k → result.digit k = before.digit k

variable {before : DigitArray} {i : ℕ}

lemma RowInv.step {j carry prod : ℕ} {result : DigitArray} (h : RowInv x y before i j carry result)
    (hprod : prod = x.digit i * y.digit j + result.digit (i + j) + carry) :
    prod < 2 ^ 64 ∧ RowInv x y before i (j + 1) (prod >>> 32) (result.update (i + j) prod) := by
  have hx := x.digit_lt i
  have hy := y.digit_lt j
  have hr := result.digit_lt (i + j)
  have hc := h.carry_lt
  have hmul : x.digit i * y.digit j ≤ (2 ^ 32 - 1) * (2 ^ 32 - 1) :=
    Nat.mul_le_mul (by omega) (by omega)
  have hlt : prod < 2 ^ 64 := by omega
  refine ⟨hlt, ?_, ?_, ?_⟩
  · have hdiv := Nat.mod_add_div prod (2 ^ 32)
    have hold := h.above (i + j) le_rfl
    rw [← add_assoc, DigitArray.evalSum_update_succ, Nat.shiftRight_eq_div_pow, evalSum_succ,
      evalSum_succ]
    calc _ = evalSum result.digit (i + j) (2 ^ 32) +
          (prod % 2 ^ 32 + 2 ^ 32 * (prod / 2 ^ 32)) * (2 ^ 32) ^ (i + j) := by ring
      _ = evalSum result.digit (i + j) (2 ^ 32) + carry * (2 ^ 32) ^ (i + j) +
          (x.digit i * y.digit j + before.digit (i + j)) * (2 ^ 32) ^ (i + j) := by
        rw [hdiv, hprod, hold]; ring
      _ = _ := by rw [h.sum_eq, pow_add]; ring
  · rw [Nat.shiftRight_eq_div_pow]
    omega
  · intro k hk
    rw [DigitArray.digit_update_of_ne _ (by omega)]
    exact h.above k (by omega)

/-- One row: what was there, with nothing above its place, plus the digit times `y`. -/
lemma mulRow_spec (hy : y.Clean) (hbefore : ∀ k, i + y.length ≤ k → before.digit k = 0)
    (hle : i + y.length < maxDigits) (n fuel : ℕ) {j carry : ℕ} {result : DigitArray}
    (hj : j + n = y.length) (hfuel : n + 2 ≤ fuel) (hinv : RowInv x y before i j carry result) :
    ∃ r, mulRow x y i fuel j carry result = some r ∧
      evalSum r.digit (i + y.length + 1) (2 ^ 32) =
        evalSum before.digit (i + y.length) (2 ^ 32) + x.digit i * y.value * (2 ^ 32) ^ i ∧
      ∀ k, i + y.length + 1 ≤ k → r.digit k = 0 := by
  induction n generalizing j carry fuel result with
  | zero =>
    obtain rfl : j = y.length := hj
    have hsum := hinv.sum_eq
    have hzero : result.digit (i + y.length) = 0 := by
      rw [hinv.above _ le_rfl, hbefore _ le_rfl]
    obtain ⟨fuel, rfl⟩ := Nat.exists_eq_add_of_le hfuel
    rw [show 0 + 2 + fuel = fuel + 1 + 1 by omega, mulRow]
    by_cases hcarry : carry = 0
    · rw [if_neg (by omega)]
      refine ⟨result, rfl, ?_, ?_⟩
      · rw [hcarry, zero_mul, add_zero] at hsum
        rw [evalSum_succ, hzero, hsum]
        simp [value]
      · intro k hk
        rw [hinv.above k (by omega), hbefore k (by omega)]
    · -- the last carry is stored alone
      have hcl := hinv.carry_lt
      rw [if_pos (.inr hcarry), DigitArray.load_of_lt (by omega), DigitArray.load_of_lt hle]
      simp only [Option.bind_eq_bind, Option.bind_some]
      rw [hy _ le_rfl, hzero, mul_zero, zero_add, zero_add, Nat.mod_eq_of_lt (by omega),
        DigitArray.store_of_lt hle, Option.bind_some, Nat.shiftRight_eq_div_pow,
        Nat.div_eq_of_lt hcl, mulRow, if_neg (by simp)]
      refine ⟨_, rfl, ?_, ?_⟩
      · rw [DigitArray.evalSum_update_succ, Nat.mod_eq_of_lt hcl, hsum]
        rfl
      · intro k hk
        rw [DigitArray.digit_update_of_ne _ (by omega), hinv.above k (by omega),
          hbefore k (by omega)]
  | succ n ih =>
    obtain ⟨fuel, rfl⟩ := Nat.exists_eq_add_of_le hfuel
    obtain ⟨hlt, hstep⟩ := hinv.step rfl
    rw [show n + 1 + 2 + fuel = n + 2 + fuel + 1 by omega, mulRow, if_pos (.inl (by omega)),
      DigitArray.load_of_lt (by omega), DigitArray.load_of_lt (by omega)]
    simp only [Option.bind_eq_bind, Option.bind_some]
    rw [Nat.mod_eq_of_lt hlt, DigitArray.store_of_lt (by omega), Option.bind_some]
    exact ih _ (by omega) (by omega) hstep

lemma mulLoop_spec (hy : y.Clean) (hle : x.length + y.length < maxDigits) (n : ℕ)
    {result : DigitArray} (hi : i + n = x.length)
    (hsum : evalSum result.digit (i + y.length) (2 ^ 32) =
      evalSum x.digit i (2 ^ 32) * y.value)
    (habove : ∀ k, i + y.length ≤ k → result.digit k = 0) :
    ∃ r, mulLoop x y n i result = some r ∧
      evalSum r.digit (x.length + y.length) (2 ^ 32) = x.value * y.value ∧
      ∀ k, x.length + y.length ≤ k → r.digit k = 0 := by
  induction n generalizing i result with
  | zero =>
    obtain rfl : i = x.length := hi
    exact ⟨result, rfl, hsum, habove⟩
  | succ n ih =>
    have hinit : RowInv x y result i 0 0 result :=
      ⟨by simp, by norm_num, fun _ _ => rfl⟩
    obtain ⟨r, hr, hrow, hzero⟩ := mulRow_spec hy habove (by omega) y.length (maxDigits + 1)
      (Nat.zero_add _) (by omega) hinit
    have hnext : i + 1 + y.length = i + y.length + 1 := by omega
    simp only [mulLoop, hr, Option.bind_eq_bind, Option.bind_some]
    apply ih (by omega)
    · rw [hnext, hrow, hsum, evalSum_succ]
      ring
    · rwa [hnext]

lemma mul_spec (hy : y.Clean) (hlen : x.isZero = true ∨ y.isZero = true ∨ x.isOne = true ∨
      y.isOne = true ∨ x.length + y.length < maxDigits) :
    ∃ r, x.mul y = some r ∧ r.value = x.value * y.value ∧
      ((x.isZero || y.isZero) = true ∧ r = zero ∨
        (x.isZero || y.isZero) = false ∧ (r = x ∨ r = y ∨ r.Trimmed)) := by
  unfold mul
  split_ifs with hzero hone hone'
  · refine ⟨zero, rfl, ?_, .inl ⟨hzero, rfl⟩⟩
    have hz : zero.value = 0 := by decide
    rcases Bool.or_eq_true_iff.mp hzero with h | h
    · rw [hz, value_of_isZero h, zero_mul]
    · rw [hz, value_of_isZero h, mul_zero]
  · exact ⟨y, rfl, by rw [value_of_isOne hone, one_mul], .inr ⟨by simpa using hzero, .inr (.inl rfl)⟩⟩
  · exact ⟨x, rfl, by rw [value_of_isOne hone', mul_one], .inr ⟨by simpa using hzero, .inl rfl⟩⟩
  · have hfit : x.length + y.length < maxDigits := by
      rw [Bool.or_eq_true_iff, not_or] at hzero
      rcases hlen with h | h | h | h | h
      · exact absurd h hzero.1
      · exact absurd h hzero.2
      · exact absurd h hone
      · exact absurd h hone'
      · exact h
    have hsum : evalSum DigitArray.init.digit (0 + y.length) (2 ^ 32) =
        evalSum x.digit 0 (2 ^ 32) * y.value := by
      rw [evalSum_zero, zero_mul]
      exact Finset.sum_eq_zero fun i _ => by simp
    obtain ⟨d, hd, hprod, habove⟩ := mulLoop_spec hy hfit x.length (Nat.zero_add _) hsum
      fun _ _ => rfl
    obtain ⟨r, hr, hvalue, htrim⟩ := trim_spec (n := x.length + y.length + 1) hfit
      fun i hi => habove i (by omega)
    refine ⟨r, ?_, ?_, .inr ⟨by simpa using hzero, .inr (.inr htrim)⟩⟩
    · simp only [Option.bind_eq_bind, hd, Option.bind_some, hr]
    · rw [hvalue, evalSum_succ, hprod, habove _ le_rfl, zero_mul, add_zero]

/-! ### Shifts -/

/-- The digits below `i + wordShift` and the carry hold the shifted digits below `i`. -/
structure ShlInv (x : BigUint) (wordShift bitShift i carry : ℕ) (result : DigitArray) : Prop where
  sum_eq : evalSum result.digit (i + wordShift) (2 ^ 32) + carry * (2 ^ 32) ^ (i + wordShift) =
    evalSum x.digit i (2 ^ 32) * (2 ^ bitShift * (2 ^ 32) ^ wordShift)
  carry_lt : carry < 2 ^ bitShift
  above : ∀ k, i + wordShift ≤ k → result.digit k = 0

variable {wordShift bitShift : ℕ}

lemma ShlInv.step {carry temp : ℕ} {result : DigitArray}
    (h : ShlInv x wordShift bitShift i carry result)
    (htemp : temp = x.digit i <<< bitShift ||| carry) :
    ShlInv x wordShift bitShift (i + 1) (temp >>> 32) (result.update (i + wordShift) temp) := by
  have hadd : temp = x.digit i * 2 ^ bitShift + carry := by
    rw [htemp, ← Nat.shiftLeft_add_eq_or_of_lt h.carry_lt, Nat.shiftLeft_eq]
  have hnext : i + 1 + wordShift = i + wordShift + 1 := by omega
  refine ⟨?_, ?_, ?_⟩
  · have hdiv := Nat.mod_add_div temp (2 ^ 32)
    rw [hnext, DigitArray.evalSum_update_succ, Nat.shiftRight_eq_div_pow, evalSum_succ]
    calc _ = evalSum result.digit (i + wordShift) (2 ^ 32) +
          (temp % 2 ^ 32 + 2 ^ 32 * (temp / 2 ^ 32)) * (2 ^ 32) ^ (i + wordShift) := by ring
      _ = evalSum result.digit (i + wordShift) (2 ^ 32) + carry * (2 ^ 32) ^ (i + wordShift) +
          x.digit i * 2 ^ bitShift * (2 ^ 32) ^ (i + wordShift) := by
        rw [hdiv, hadd]; ring
      _ = _ := by rw [h.sum_eq, pow_add]; ring
  · rw [Nat.shiftRight_eq_div_pow]
    apply Nat.div_lt_of_lt_mul
    have hdigit : (x.digit i + 1) * 2 ^ bitShift ≤ 2 ^ 32 * 2 ^ bitShift :=
      Nat.mul_le_mul_right _ (x.digit_lt i)
    have hcarry := h.carry_lt
    rw [add_mul, one_mul] at hdigit
    omega
  · intro k hk
    rw [DigitArray.digit_update_of_ne _ (by omega)]
    exact h.above k (by omega)

lemma shlLoop_spec (hle : x.length + wordShift ≤ maxDigits) (n : ℕ) {carry : ℕ}
    {result : DigitArray} (hi : i + n = x.length)
    (hinv : ShlInv x wordShift bitShift i carry result) :
    ∃ r carry', shlLoop x wordShift bitShift n i carry result = some (r, carry') ∧
      ShlInv x wordShift bitShift x.length carry' r := by
  induction n generalizing i carry result with
  | zero =>
    obtain rfl : i = x.length := hi
    exact ⟨result, carry, rfl, hinv⟩
  | succ n ih =>
    simp only [shlLoop, DigitArray.store_of_lt (show i + wordShift < maxDigits by omega),
      Option.bind_eq_bind, Option.bind_some]
    exact ih (by omega) (hinv.step rfl)

lemma two_pow_mod_mul_div (shift : ℕ) :
    2 ^ (shift % 32) * (2 ^ 32) ^ (shift / 32) = 2 ^ shift := by
  rw [← pow_mul, ← pow_add]
  congr 1
  omega

lemma shl_spec {shift : ℕ} (hlen : shift = 0 ∨ x.length + shift / 32 < maxDigits) :
    ∃ r, x.shl shift = some r ∧ r.value = x.value * 2 ^ shift ∧
      (shift = 0 ∧ r = x ∨ shift ≠ 0 ∧ r.Trimmed) := by
  unfold shl
  split_ifs with hshift
  · exact ⟨x, rfl, by rw [hshift, pow_zero, mul_one], .inl ⟨hshift, rfl⟩⟩
  · have hfit : x.length + shift / 32 < maxDigits := hlen.resolve_left hshift
    have hinit : ShlInv x (shift / 32) (shift % 32) 0 0 .init := by
      refine ⟨?_, by positivity, fun _ _ => rfl⟩
      rw [evalSum_zero, zero_mul, zero_mul, add_zero]
      exact Finset.sum_eq_zero fun i _ => by simp
    obtain ⟨d, carry, hd, hinv⟩ := shlLoop_spec hfit.le x.length (Nat.zero_add _) hinit
    have hsum := hinv.sum_eq
    rw [two_pow_mod_mul_div] at hsum
    have hcarry : carry < 2 ^ 32 :=
      hinv.carry_lt.trans_le (Nat.pow_le_pow_right (by norm_num) (by omega))
    simp only [Option.bind_eq_bind, hd, Option.bind_some]
    by_cases hzero : carry = 0
    · obtain ⟨r, hr, hvalue, htrim⟩ := trim_spec (n := x.length + shift / 32 + 1) hfit
        fun k hk => hinv.above k (by omega)
      refine ⟨r, ?_, ?_, .inr ⟨hshift, htrim⟩⟩
      · rw [if_neg (by simpa using hzero)]
        exact hr
      · rw [hzero, zero_mul, add_zero] at hsum
        rw [hvalue, evalSum_succ, hinv.above _ le_rfl, zero_mul, add_zero]
        exact hsum
    · obtain ⟨r, hr, hvalue, htrim⟩ := trim_spec (d := d.update (x.length + shift / 32) carry)
        (n := x.length + shift / 32 + 1) hfit
        fun k hk => by rw [DigitArray.digit_update_of_ne _ (by omega)]; exact hinv.above k (by omega)
      refine ⟨r, ?_, ?_, .inr ⟨hshift, htrim⟩⟩
      · rw [if_pos hzero, DigitArray.store_of_lt hfit, Option.bind_some, hr]
      · rw [hvalue, DigitArray.evalSum_update_succ, Nat.mod_eq_of_lt hcarry]
        exact hsum

/-- A digit of the shifted number: the low bits of the digit above it and its own high bits. -/
lemma shr_digit {carry digit : ℕ} (hbit : bitShift < 32) (hdigit : digit < 2 ^ 32) :
    (carry <<< 32 ||| digit) >>> bitShift % 2 ^ 32 =
      (carry % 2 ^ bitShift * 2 ^ 32 + digit) / 2 ^ bitShift := by
  have hdvd : 2 ^ 32 = 2 ^ bitShift * 2 ^ (32 - bitShift) := by
    rw [← pow_add]
    congr 1
    omega
  have hpos : 0 < 2 ^ bitShift := by positivity
  rw [← Nat.shiftLeft_add_eq_or_of_lt hdigit, Nat.shiftLeft_eq, Nat.shiftRight_eq_div_pow]
  have hsplit : carry * 2 ^ 32 + digit =
      2 ^ bitShift * (carry / 2 ^ bitShift * 2 ^ 32) +
        (carry % 2 ^ bitShift * 2 ^ 32 + digit) := by
    conv_lhs => rw [← Nat.div_add_mod carry (2 ^ bitShift)]
    ring
  rw [hsplit, Nat.mul_add_div hpos, Nat.mul_add_mod_self_right, Nat.mod_eq_of_lt]
  apply Nat.div_lt_of_lt_mul
  have hmod := Nat.mod_lt carry hpos
  have hmul : (carry % 2 ^ bitShift + 1) * 2 ^ 32 ≤ 2 ^ bitShift * 2 ^ 32 :=
    Nat.mul_le_mul_right _ hmod
  rw [add_mul, one_mul] at hmul
  omega

lemma shrLoop_spec (x : BigUint) (wordShift : ℕ) (hbit : bitShift < 32) (n carry : ℕ)
    (result : DigitArray) :
    evalSum (shrLoop x wordShift bitShift n carry result).digit n (2 ^ 32) =
        (carry % 2 ^ bitShift * (2 ^ 32) ^ n +
          evalSum (fun k => x.digit (k + wordShift)) n (2 ^ 32)) / 2 ^ bitShift ∧
      ∀ k, n ≤ k → (shrLoop x wordShift bitShift n carry result).digit k = result.digit k := by
  induction n generalizing carry result with
  | zero =>
    refine ⟨?_, fun _ _ => rfl⟩
    rw [evalSum_zero, evalSum_zero, pow_zero, mul_one, add_zero,
      Nat.div_eq_of_lt (Nat.mod_lt _ (by positivity))]
  | succ n ih =>
    rw [shrLoop]
    set temp := carry <<< 32 ||| x.digit (n + wordShift) with htemp
    obtain ⟨hlow, habove⟩ := ih (temp % 2 ^ 32) (result.update n (temp >>> bitShift))
    refine ⟨?_, ?_⟩
    · have hdigit := x.digit_lt (n + wordShift)
      have hdvd : 2 ^ bitShift ∣ 2 ^ 32 := Nat.pow_dvd_pow 2 hbit.le
      have hcarry : temp % 2 ^ 32 % 2 ^ bitShift = x.digit (n + wordShift) % 2 ^ bitShift := by
        rw [htemp, ← Nat.shiftLeft_add_eq_or_of_lt hdigit, Nat.shiftLeft_eq, Nat.mul_add_mod_self_right,
          Nat.mod_eq_of_lt hdigit]
      have hmod : (carry % 2 ^ bitShift * 2 ^ 32 + x.digit (n + wordShift)) % 2 ^ bitShift =
          x.digit (n + wordShift) % 2 ^ bitShift := by
        rw [Nat.add_mod, Nat.mod_eq_zero_of_dvd (hdvd.mul_left _), zero_add, Nat.mod_mod]
      have hdm := Nat.div_add_mod (carry % 2 ^ bitShift * 2 ^ 32 + x.digit (n + wordShift))
        (2 ^ bitShift)
      rw [hmod] at hdm
      rw [evalSum_succ, hlow, habove n le_rfl, DigitArray.digit_update_self, htemp,
        shr_digit hbit hdigit, ← htemp, hcarry, evalSum_succ]
      set quot := (carry % 2 ^ bitShift * 2 ^ 32 + x.digit (n + wordShift)) / 2 ^ bitShift
      have hsplit : carry % 2 ^ bitShift * (2 ^ 32) ^ (n + 1) +
          (evalSum (fun k => x.digit (k + wordShift)) n (2 ^ 32) +
            x.digit (n + wordShift) * (2 ^ 32) ^ n) =
          2 ^ bitShift * (quot * (2 ^ 32) ^ n) + (x.digit (n + wordShift) % 2 ^ bitShift *
            (2 ^ 32) ^ n + evalSum (fun k => x.digit (k + wordShift)) n (2 ^ 32)) := by
        calc _ = (carry % 2 ^ bitShift * 2 ^ 32 + x.digit (n + wordShift)) * (2 ^ 32) ^ n +
              evalSum (fun k => x.digit (k + wordShift)) n (2 ^ 32) := by ring
          _ = _ := by rw [← hdm]; ring
      rw [hsplit, Nat.mul_add_div (by positivity)]
      ring
    · intro k hk
      rw [habove k (by omega), DigitArray.digit_update_of_ne _ (by omega)]

/-- The digits above a word shift. -/
lemma value_div_pow (x : BigUint) {n : ℕ} (hn : n ≤ x.length) :
    x.value / (2 ^ 32) ^ n =
      evalSum (fun k => x.digit (k + n)) (x.length - n) (2 ^ 32) := by
  have hsplit := evalSum_add x.digit n (x.length - n) (2 ^ 32)
  rw [Nat.add_sub_cancel' hn] at hsplit
  have hlow : evalSum x.digit n (2 ^ 32) < (2 ^ 32) ^ n := evalSum_lt fun i _ => x.digit_lt i
  rw [value, hsplit, Nat.add_mul_div_left _ _ (by positivity), Nat.div_eq_of_lt hlow, zero_add]
  simp only [add_comm]

lemma value_zero : zero.value = 0 := by decide

lemma value_shr (x : BigUint) (shift : ℕ) : (x.shr shift).value = x.value / 2 ^ shift := by
  unfold shr
  split_ifs with hshift hlen
  · rw [hshift, pow_zero, Nat.div_one]
  · have hlt : x.value < 2 ^ shift := by
      calc x.value < (2 ^ 32) ^ x.length := x.value_lt
        _ ≤ (2 ^ 32) ^ (shift / 32) := Nat.pow_le_pow_right (by norm_num) hlen
        _ ≤ 2 ^ shift := by
          rw [← pow_mul]
          exact Nat.pow_le_pow_right (by norm_num) (Nat.mul_div_le shift 32)
    rw [value_zero, Nat.div_eq_of_lt hlt]
  · have hbit : shift % 32 < 32 := Nat.mod_lt _ (by norm_num)
    have hsum := (shrLoop_spec x (shift / 32) hbit (x.length - shift / 32) 0 .init).1
    rw [value]
    dsimp only
    rw [hsum, Nat.zero_mod, zero_mul, zero_add, ← x.value_div_pow (by omega),
      Nat.div_div_eq_div_mul, mul_comm, two_pow_mod_mul_div]

lemma Clean.shr (hx : x.Clean) (shift : ℕ) : (x.shr shift).Clean := by
  unfold BigUint.shr
  split_ifs with hshift hlen
  · exact hx
  · exact fun _ _ => rfl
  · intro k hk
    have hbit : shift % 32 < 32 := Nat.mod_lt _ (by norm_num)
    exact (shrLoop_spec x (shift / 32) hbit (x.length - shift / 32) 0 .init).2 k hk

/-- The top digit of a shifted number. -/
lemma digit_shr_top {shift n : ℕ} (hshift : shift ≠ 0) (hn : x.length = n + 1 + shift / 32) :
    (x.shr shift).length = n + 1 ∧
      (x.shr shift).digit n = x.digit (n + shift / 32) / 2 ^ (shift % 32) := by
  have hsub : x.length - shift / 32 = n + 1 := by omega
  unfold shr
  rw [if_neg hshift, if_neg (by omega)]
  refine ⟨hsub, ?_⟩
  dsimp only
  rw [hsub, shrLoop]
  have hbit : shift % 32 < 32 := Nat.mod_lt _ (by norm_num)
  rw [(shrLoop_spec x _ hbit n _ _).2 n le_rfl, DigitArray.digit_update_self,
    shr_digit hbit (x.digit_lt _), Nat.zero_mod, zero_mul, zero_add]

/-! ### Constructors -/

lemma value_one : one.value = 1 := by decide

lemma trimmed_one : one.Trimmed where
  clean := by
    intro i hi
    have : i ≠ 0 := by
      have : one.length = 1 := rfl
      omega
    exact DigitArray.digit_update_of_ne _ this _
  top_ne_zero := by
    intro n hn
    obtain rfl : n = 0 := by
      have : one.length = 1 := rfl
      omega
    decide

lemma limbDigits_spec (limbs : ℕ → ℕ) (n : ℕ) :
    evalSum (limbDigits limbs n).digit (2 * n) (2 ^ 32) =
        evalSum (fun i => limbs i % 2 ^ 64) n (2 ^ 64) ∧
      ∀ k, 2 * n ≤ k → (limbDigits limbs n).digit k = 0 := by
  induction n with
  | zero => exact ⟨by simp, fun _ _ => rfl⟩
  | succ n ih =>
    have hlimb : limbs n % 2 ^ 32 + 2 ^ 32 * ((limbs n % 2 ^ 64) >>> 32 % 2 ^ 32) =
        limbs n % 2 ^ 64 := by
      rw [Nat.shiftRight_eq_div_pow]
      omega
    refine ⟨?_, ?_⟩
    · rw [show 2 * (n + 1) = 2 * n + 1 + 1 by ring, limbDigits, DigitArray.evalSum_update_succ,
        DigitArray.evalSum_update_succ, ih.1, evalSum_succ,
        show ((2 ^ 64 : ℕ)) ^ n = (2 ^ 32) ^ (2 * n) by rw [pow_mul]; norm_num]
      calc _ = evalSum (fun i => limbs i % 2 ^ 64) n (2 ^ 64) + (limbs n % 2 ^ 32 +
            2 ^ 32 * ((limbs n % 2 ^ 64) >>> 32 % 2 ^ 32)) * (2 ^ 32) ^ (2 * n) := by ring
        _ = _ := by rw [hlimb]
    · intro k hk
      rw [limbDigits, DigitArray.digit_update_of_ne _ (by omega),
        DigitArray.digit_update_of_ne _ (by omega)]
      exact ih.2 k (by omega)

lemma ofLimbs_spec (limbs : ℕ → ℕ) :
    ∃ r, ofLimbs limbs = some r ∧
      r.value = evalSum (fun i => limbs i % 2 ^ 64) 4 (2 ^ 64) ∧ r.Trimmed := by
  obtain ⟨hsum, habove⟩ := limbDigits_spec limbs 4
  obtain ⟨r, hr, hvalue, htrim⟩ := trim_spec (n := 8) (by decide) habove
  exact ⟨r, hr, hvalue.trans hsum, htrim⟩

lemma ofU64_spec (v : ℕ) : ∃ r, ofU64 v = some r ∧ r.value = v % 2 ^ 64 ∧ r.Trimmed := by
  obtain ⟨hsum, habove⟩ := limbDigits_spec (fun _ => v) 1
  obtain ⟨r, hr, hvalue, htrim⟩ := trim_spec (n := 2) (by decide) habove
  refine ⟨r, hr, hvalue.trans (hsum.trans ?_), htrim⟩
  simp [evalSum]

lemma fromBytesLe_spec (bytes : ℕ → ℕ) :
    (fromBytesLe bytes).value = evalSum (fun i => byteLimb bytes i % 2 ^ 64) 4 (2 ^ 64) ∧
      (fromBytesLe bytes).Clean :=
  limbDigits_spec (byteLimb bytes) 4

end BigUint

end MegaZK
