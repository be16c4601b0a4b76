import MegaZK.BigUint.Division

/-! # Quotients and remainders

When `operator/`, `operator%` and `div_rem` return the quotient and the remainder. -/

namespace MegaZK

open Horner Radix LongDivision

namespace BigUint

variable {x y : BigUint} {u v quotient remainder : DigitArray} {n : ℕ}

/-- No window of the division loop below quotient digit `c` loses a carry. -/
def Lossless (n c V U : ℕ) : Prop :=
  ∀ j < c, ¬ Loses (2 ^ 32) n V (U / (2 ^ 32) ^ j % (V * 2 ^ 32))

instance (n c V U : ℕ) : Decidable (Lossless n c V U) :=
  inferInstanceAs (Decidable (∀ j < c, _))

/-- The windows below `j` do not see a multiple of the divisor that is taken off at `j`. -/
lemma lossless_add {j V T q : ℕ} : Lossless n j V (T + q * V * (2 ^ 32) ^ j) ↔ Lossless n j V T := by
  apply forall₂_congr
  intro i hi
  obtain ⟨k, rfl⟩ := Nat.exists_eq_add_of_lt hi
  have hmul : q * V * (2 ^ 32) ^ (i + k + 1) = (2 ^ 32) ^ i * (V * 2 ^ 32 * (q * (2 ^ 32) ^ k)) := by
    ring
  rw [hmul, Nat.add_mul_div_left _ _ (by positivity), Nat.add_mul_mod_self_left]

lemma lossless_succ {j V T : ℕ} :
    Lossless n (j + 1) V T ↔
      ¬ Loses (2 ^ 32) n V (T / (2 ^ 32) ^ j % (V * 2 ^ 32)) ∧ Lossless n j V T := by
  constructor
  · intro h
    exact ⟨h j (Nat.lt_succ_self j), fun i hi => h i (Nat.lt_succ_of_lt hi)⟩
  · rintro ⟨hj, h⟩ i hi
    rcases Nat.lt_succ_iff_lt_or_eq.mp hi with hlt | rfl
    · exact h i hlt
    · exact hj

variable (quotient) in
/-- The division loop from quotient digit `c` down: what it makes of the number in the digits of
`u` is a quotient and a remainder of it, unless a carry is lost; then they are too small. -/
lemma divLoop_spec {V : ℕ} (hv : Normalized v n) (hV : V = window v 0 (n + 2)) (c : ℕ)
    (hc : c + n + 1 < maxDigits) (hu : window u c (n + 2) < V) :
    ∃ u' quotient', divLoop v (n + 2) c u quotient = some (u', quotient') ∧
      (∀ i, c ≤ i → quotient'.digit i = quotient.digit i) ∧
      window u' 0 (n + 2) < V ∧
      evalSum quotient'.digit c (2 ^ 32) * V + window u' 0 (n + 2) ≤ window u 0 (c + (n + 2)) ∧
      (evalSum quotient'.digit c (2 ^ 32) * V + window u' 0 (n + 2) = window u 0 (c + (n + 2)) ↔
        Lossless n c V (window u 0 (c + (n + 2)))) := by
  induction c generalizing u quotient with
  | zero =>
    refine ⟨u, quotient, rfl, fun _ _ => rfl, hu, ?_, iff_of_true ?_ fun _ hj => absurd hj (by omega)⟩
    · simp
    · simp
  | succ j ih =>
    have hVpos : 0 < V := by omega
    set W := window u j (n + 3) with hW
    have hWV : W < V * 2 ^ 32 := by
      have hdigit := u.digit_lt j
      rw [hW, window_succ]
      omega
    obtain ⟨u₁, hstep, hframe, hle, hiff⟩ := divStep_spec hv (by omega) hV hW hWV
    have hrem := Nat.mod_lt W hVpos
    obtain ⟨u', quotient', hrun, hkeep, hlt, hsum, hexact⟩ :=
      @ih u₁ (quotient.update j (W / V)) (by omega) (by omega)
    have hq : W / V < 2 ^ 32 := Nat.div_lt_of_lt_mul hWV
    have hdigit : quotient'.digit j = W / V := by
      rw [hkeep j le_rfl, DigitArray.digit_update_self, Nat.mod_eq_of_lt hq]
    have hlow : window u₁ 0 j = window u 0 j := window_congr fun i hi => by
      rw [zero_add, hframe i hi]
    have hT : window u 0 (j + 1 + (n + 2)) = window u 0 j + (2 ^ 32) ^ j * W := by
      rw [show j + 1 + (n + 2) = j + (n + 3) by omega, window_add, zero_add]
    have hT₁ : window u₁ 0 (j + (n + 2)) = window u 0 j + (2 ^ 32) ^ j * window u₁ j (n + 2) := by
      rw [window_add, hlow, zero_add]
    -- a pass takes off the multiple of the divisor and what the lost carries stood for
    obtain ⟨lost, hlost⟩ := Nat.exists_eq_add_of_le hle
    have hstepT : window u 0 (j + 1 + (n + 2)) =
        window u₁ 0 (j + (n + 2)) + W / V * V * (2 ^ 32) ^ j + (2 ^ 32) ^ j * lost := by
      have hdiv : W = W / V * V + (window u₁ j (n + 2) + lost) := by
        rw [← hlost, Nat.div_add_mod']
      rw [hT, hT₁]
      conv_lhs => rw [hdiv]
      ring
    have hQ : evalSum quotient'.digit (j + 1) (2 ^ 32) * V =
        evalSum quotient'.digit j (2 ^ 32) * V + W / V * V * (2 ^ 32) ^ j := by
      rw [evalSum_succ, hdigit]
      ring
    refine ⟨u', quotient', ?_, ?_, hlt, ?_, ?_⟩
    · rw [divLoop, hstep]
      dsimp only [Option.bind_eq_bind, Option.bind_some]
      rw [quotient.store_of_lt (by omega)]
      exact hrun
    · intro i hi
      rw [hkeep i (by omega), quotient.digit_update_of_ne (by omega)]
    · omega
    · have hwindow : window u 0 (j + 1 + (n + 2)) / (2 ^ 32) ^ j % (V * 2 ^ 32) = W := by
        rw [show j + 1 + (n + 2) = j + (n + 3) by omega, window_div_pow, zero_add,
          Nat.mod_eq_of_lt hWV]
      rw [lossless_succ, hwindow, ← hiff]
      constructor
      · intro heq
        have hzero : (2 ^ 32) ^ j * lost = 0 := by omega
        have hlost0 : lost = 0 := (Nat.mul_eq_zero.mp hzero).resolve_left (by positivity)
        refine ⟨by omega, ?_⟩
        rw [hstepT, hzero, add_zero, lossless_add]
        exact hexact.mp (by omega)
      · rintro ⟨hr, hlossless⟩
        have hlost0 : lost = 0 := by omega
        rw [hlost0, mul_zero, add_zero] at hstepT
        rw [hstepT, lossless_add] at hlossless
        have := hexact.mpr hlossless
        omega

/-! ### Normalization -/

lemma clz_spec {d : ℕ} (hd : d ≠ 0) (hlt : d < 2 ^ 32) :
    ∃ s ≤ 31, clz d = some s ∧ s = 31 - Nat.log2 d ∧ 2 ^ 31 ≤ d * 2 ^ s ∧
      (d + 1) * 2 ^ s ≤ 2 ^ 32 := by
  have hlog : Nat.log2 d < 32 := (Nat.log2_lt hd).mpr hlt
  have hle := Nat.log2_self_le hd
  have hgt : d + 1 ≤ 2 ^ (Nat.log2 d + 1) := Nat.lt_log2_self
  refine ⟨31 - Nat.log2 d, by omega, if_neg hd, rfl, ?_, ?_⟩
  · calc 2 ^ 31 = 2 ^ Nat.log2 d * 2 ^ (31 - Nat.log2 d) := by
          rw [← pow_add, Nat.add_sub_cancel' (by omega)]
      _ ≤ d * 2 ^ (31 - Nat.log2 d) := Nat.mul_le_mul_right _ hle
  · calc (d + 1) * 2 ^ (31 - Nat.log2 d)
        ≤ 2 ^ (Nat.log2 d + 1) * 2 ^ (31 - Nat.log2 d) := Nat.mul_le_mul_right _ hgt
      _ = 2 ^ 32 := by
          rw [← pow_add]
          congr 1
          omega

lemma Trimmed.length_le (hx : x.Trimmed) {n : ℕ} (hlt : x.value < (2 ^ 32) ^ n) :
    x.length ≤ n := by
  cases hlength : x.length with
  | zero => exact Nat.zero_le n
  | succ k =>
    have hpow := (hx.le_value hlength).trans_lt hlt
    exact (Nat.pow_lt_pow_iff_right (by norm_num)).mp hpow

/-- The digits of a number that is shifted by less than one digit. -/
lemma shl_digits (hx : x.Clean) (hlen : x.length < maxDigits) {s : ℕ} (hs : s < 32) {n : ℕ}
    (hn : x.length ≤ n) (hlt : x.value * 2 ^ s < (2 ^ 32) ^ n) :
    ∃ w, x.shl s = some w ∧ window w.toDigitArray 0 n = x.value * 2 ^ s := by
  have hfit : s = 0 ∨ x.length + s / 32 < maxDigits := by
    rw [Nat.div_eq_of_lt hs]
    exact .inr hlen
  obtain ⟨w, hw, hvalue, hform⟩ := shl_spec hfit
  refine ⟨w, hw, ?_⟩
  have hwindow : window w.toDigitArray 0 n = evalSum w.digit n (2 ^ 32) := by
    simp only [window, zero_add]
  rw [hwindow, ← hvalue]
  rcases hform with ⟨-, rfl⟩ | ⟨-, htrim⟩
  · exact hx.evalSum_eq hn
  · exact htrim.clean.evalSum_eq (htrim.length_le (hvalue ▸ hlt))

/-- The shift that normalizes a divisor. -/
def normShift (y : BigUint) : ℕ := 31 - Nat.log2 (y.digit (y.length - 1))

/-- The digits after normalization. -/
structure NormalForm (x y : BigUint) (n m : ℕ) (u v : DigitArray) : Prop where
  top : 2 ^ 31 ≤ v.digit n
  divisor : window v 0 (n + 1) = y.value * 2 ^ y.normShift
  dividend : window u 0 (m + 1 + (n + 1)) = x.value * 2 ^ y.normShift
  high_lt : window u (m + 1) (n + 1) < 2 ^ 31 * (2 ^ 32) ^ n

lemma exists_normalForm {m : ℕ} (hx : x.Clean) (hy : y.Clean) (hyl : y.length = n + 1)
    (hxl : x.length = m + (n + 1)) (hlen : x.length < maxDigits) (htop : y.digit n ≠ 0) :
    ∃ u v, clz (y.digit n) = some y.normShift ∧ y.shl y.normShift = some v ∧
      x.shl y.normShift = some u ∧ NormalForm x y n m u.toDigitArray v.toDigitArray := by
  obtain ⟨s, hs, hclz, hs', hlow, hhigh⟩ := clz_spec htop (y.digit_lt n)
  have hshift : y.normShift = s := by rw [normShift, hyl, Nat.add_sub_cancel, hs']
  rw [hshift]
  have hpow : 2 ^ s ≤ 2 ^ 31 := Nat.pow_le_pow_right (by norm_num) hs
  -- the divisor keeps its length
  have hysplit : y.value = evalSum y.digit n (2 ^ 32) + y.digit n * (2 ^ 32) ^ n := by
    rw [value, hyl, evalSum_succ]
  have hylow : evalSum y.digit n (2 ^ 32) < (2 ^ 32) ^ n := evalSum_lt fun i _ => y.digit_lt i
  have hylt : y.value * 2 ^ s < (2 ^ 32) ^ (n + 1) := by
    have hvalue : y.value < (y.digit n + 1) * (2 ^ 32) ^ n := by
      rw [hysplit, add_mul, one_mul]
      omega
    calc y.value * 2 ^ s < (y.digit n + 1) * (2 ^ 32) ^ n * 2 ^ s :=
          Nat.mul_lt_mul_of_pos_right hvalue (by positivity)
      _ = (y.digit n + 1) * 2 ^ s * (2 ^ 32) ^ n := by ring
      _ ≤ 2 ^ 32 * (2 ^ 32) ^ n := Nat.mul_le_mul_right _ hhigh
      _ = (2 ^ 32) ^ (n + 1) := (pow_succ' _ _).symm
  have hxlt : x.value * 2 ^ s < 2 ^ 31 * (2 ^ 32) ^ (m + (n + 1)) := by
    calc x.value * 2 ^ s ≤ x.value * 2 ^ 31 := Nat.mul_le_mul_left _ hpow
      _ < (2 ^ 32) ^ (m + (n + 1)) * 2 ^ 31 :=
          Nat.mul_lt_mul_of_pos_right (hxl ▸ x.value_lt) (by norm_num)
      _ = 2 ^ 31 * (2 ^ 32) ^ (m + (n + 1)) := mul_comm _ _
  have hxlt' : x.value * 2 ^ s < (2 ^ 32) ^ (m + 1 + (n + 1)) := by
    rw [show m + 1 + (n + 1) = m + (n + 1) + 1 by omega, pow_succ']
    exact hxlt.trans_le (Nat.mul_le_mul_right _ (by norm_num))
  have hs32 : s < 32 := by omega
  obtain ⟨v, hv, hV⟩ := shl_digits hy (by omega) hs32 hyl.le hylt
  obtain ⟨u, hu, hU⟩ := shl_digits hx hlen hs32 (by omega) hxlt'
  refine ⟨u, v, hclz, hv, hu, ?_, ?_, ?_, ?_⟩
  · have hge : 2 ^ 31 * (2 ^ 32) ^ n ≤ window v.toDigitArray 0 (n + 1) := by
      rw [hV, hysplit]
      calc 2 ^ 31 * (2 ^ 32) ^ n ≤ y.digit n * 2 ^ s * (2 ^ 32) ^ n := Nat.mul_le_mul_right _ hlow
        _ = y.digit n * (2 ^ 32) ^ n * 2 ^ s := by ring
        _ ≤ (evalSum y.digit n (2 ^ 32) + y.digit n * (2 ^ 32) ^ n) * 2 ^ s :=
          Nat.mul_le_mul_right _ (Nat.le_add_left _ _)
    have hlt : window v.toDigitArray 0 (n + 1) < (v.digit n + 1) * (2 ^ 32) ^ n := by
      have := window_lt v.toDigitArray 0 n
      rw [window_add, window_one, zero_add, add_mul, mul_comm]
      omega
    exact Nat.lt_succ_iff.mp (Nat.lt_of_mul_lt_mul_right (hge.trans_lt hlt))
  · rw [hV, hshift]
  · rw [hU, hshift]
  · have hmul : (2 ^ 32) ^ (m + 1) * window u.toDigitArray (m + 1) (n + 1) <
        (2 ^ 32) ^ (m + 1) * (2 ^ 31 * (2 ^ 32) ^ n) := by
      calc (2 ^ 32) ^ (m + 1) * window u.toDigitArray (m + 1) (n + 1)
          ≤ window u.toDigitArray 0 (m + 1 + (n + 1)) := by
            rw [window_add u.toDigitArray 0 (m + 1), zero_add]
            exact Nat.le_add_left _ _
        _ = x.value * 2 ^ s := hU
        _ < 2 ^ 31 * (2 ^ 32) ^ (m + (n + 1)) := hxlt
        _ = (2 ^ 32) ^ (m + 1) * (2 ^ 31 * (2 ^ 32) ^ n) := by ring
    exact Nat.lt_of_mul_lt_mul_left hmul

/-! ### Results -/

lemma exists_trim {d : DigitArray} (hn : n ≤ maxDigits) :
    ∃ r, trim d n = some r ∧ r.value = evalSum d.digit n (2 ^ 32) :=
  ⟨_, dif_pos hn, d.evalSum_trimLength n⟩

lemma digit_copyDigits (u remainder : DigitArray) {i : ℕ} (hi : i < n) :
    (copyDigits u n remainder).digit i = u.digit i := by
  induction n with
  | zero => cases hi
  | succ n ih =>
    rw [copyDigits]
    rcases Nat.lt_succ_iff_lt_or_eq.mp hi with hlt | rfl
    · rw [DigitArray.digit_update_of_ne _ hlt.ne, ih hlt]
    · rw [DigitArray.digit_update_self, Nat.mod_eq_of_lt (u.digit_lt i)]

/-- The remainder digits, shifted back. -/
lemma exists_remainder (u remainder : DigitArray) (hn : n ≤ maxDigits) (s : ℕ) :
    ∃ r, trim (copyDigits u n remainder) n = some r ∧
      (r.shr s).value = window u 0 n / 2 ^ s := by
  obtain ⟨r, hr, hvalue⟩ := exists_trim (d := copyDigits u n remainder) hn
  refine ⟨r, hr, ?_⟩
  rw [value_shr, hvalue]
  congr 1
  apply evalSum_congr
  intro i hi
  rw [digit_copyDigits u remainder hi, zero_add]

/-- When the three functions return the quotient and the remainder. -/
structure Divides (x y : BigUint) (quotient remainder : DigitArray) : Prop where
  div : ∃ q, x.div y = some q ∧ q.value = x.value / y.value
  mod : ∃ r, x.mod y = some r ∧ r.value = x.value % y.value
  divRem : ∃ q r, x.divRem y quotient remainder = some (q, r) ∧ q.value = x.value / y.value ∧
    r.value = x.value % y.value

/-- A dividend that is smaller by its length is smaller; otherwise the divisor has two digits or
more, its top digit is not zero, and no pass of the loop loses a carry. -/
def DivisionExact (x y : BigUint) : Prop :=
  if x.lt y then x.value < y.value
  else 2 ≤ y.length ∧ y.digit (y.length - 1) ≠ 0 ∧
    Lossless (y.length - 2) (x.length - y.length + 1) (y.value * 2 ^ y.normShift)
      (x.value * 2 ^ y.normShift)

instance (x y : BigUint) : Decidable (DivisionExact x y) := inferInstanceAs (Decidable (ite _ _ _))

/-- The shared part of the three functions for a divisor of two or more digits. -/
lemma divDigits_spec (hx : x.Clean) (hy : y.Clean) (hlen : x.length < maxDigits)
    (hyl : 2 ≤ y.length) (hle : y.length ≤ x.length) (htop : y.digit (y.length - 1) ≠ 0)
    (quotient : DigitArray) :
    ∃ u' quotient', divDigits x y quotient = some (y.normShift, u', quotient') ∧
      (∀ i, x.length - y.length + 1 ≤ i → quotient'.digit i = quotient.digit i) ∧
      window u' 0 y.length < y.value * 2 ^ y.normShift ∧
      evalSum quotient'.digit (x.length - y.length + 1) (2 ^ 32) * (y.value * 2 ^ y.normShift) +
        window u' 0 y.length ≤ x.value * 2 ^ y.normShift ∧
      (evalSum quotient'.digit (x.length - y.length + 1) (2 ^ 32) * (y.value * 2 ^ y.normShift) +
          window u' 0 y.length = x.value * 2 ^ y.normShift ↔
        Lossless (y.length - 2) (x.length - y.length + 1) (y.value * 2 ^ y.normShift)
          (x.value * 2 ^ y.normShift)) := by
  obtain ⟨n, hn⟩ : ∃ n, y.length = n + 1 + 1 := ⟨y.length - 2, by omega⟩
  obtain ⟨m, hm⟩ : ∃ m, x.length = m + (n + 1 + 1) := ⟨x.length - y.length, by omega⟩
  have hn1 : y.length - 1 = n + 1 := by omega
  rw [hn1] at htop
  obtain ⟨u, v, hclz, hv, hu, hnormal⟩ := exists_normalForm hx hy hn hm hlen htop
  have hnorm : Normalized v.toDigitArray n := ⟨hnormal.top⟩
  have hhigh : window u.toDigitArray (m + 1) (n + 2) < y.value * 2 ^ y.normShift := by
    rw [← hnormal.divisor]
    exact hnormal.high_lt.trans_le hnorm.le_window
  obtain ⟨u', quotient', hrun, hkeep, hlt, hsum, hexact⟩ :=
    divLoop_spec quotient hnorm hnormal.divisor.symm (m + 1) (by omega) hhigh
  rw [show m + 1 + (n + 2) = m + 1 + (n + 1 + 1) by rfl, hnormal.dividend] at hsum hexact
  have hsub : x.length - y.length = m := by omega
  refine ⟨u', quotient', ?_, hsub ▸ hkeep, ?_, ?_, ?_⟩
  · have hload := y.load_of_lt (i := n + 1) (by omega)
    have hloop : divLoop v.toDigitArray y.length (m + 1) u.toDigitArray quotient =
        some (u', quotient') := by
      rw [hn]
      exact hrun
    simp only [divDigits, hn1, hload, hsub, hclz, hv, hu, hloop, Option.bind_eq_bind,
      Option.bind_some, Option.pure_def]
  · rw [hn]
    exact hlt
  · rw [hsub, hn]
    exact hsum
  · rw [hsub, hn]
    exact hexact

lemma correctLoop_of_one {j v1 qhat : ℕ} (hqhat : qhat < 2 ^ 32) (fuel rhat : ℕ) :
    correctLoop u v 1 j v1 fuel qhat rhat = none := by
  cases fuel with
  | zero => rfl
  | succ fuel =>
    have htest : tooLarge u v 1 j qhat rhat = none := by
      rw [tooLarge, if_neg (by omega), if_pos (by norm_num)]
    rw [correctLoop, htest]
    rfl

lemma divStep_eq_none {N j a v1 : ℕ} (ha : uhat u N j = some a) (hv1 : v.load (N - 1) = some v1)
    (hloop : correctLoop u v N j v1 3 (a / v1) (a % v1) = none) : divStep v N j u = none := by
  simp only [divStep, ha, hv1, hloop, Option.bind_eq_bind, Option.bind_some, Option.bind_none]

/-- A divisor of one digit makes the correction loop read below the digit array. -/
lemma divDigits_of_length_one (hx : x.Clean) (hy : y.Clean) (hlen : x.length < maxDigits)
    (hyl : y.length = 1) (hle : 1 ≤ x.length) (htop : y.digit 0 ≠ 0) (quotient : DigitArray) :
    divDigits x y quotient = none := by
  obtain ⟨m, hm⟩ : ∃ m, x.length = m + 1 := ⟨x.length - 1, by omega⟩
  obtain ⟨u, v, hclz, hv, hu, hnormal⟩ := exists_normalForm (n := 0) hx hy hyl hm hlen htop
  have hnorm := hnormal.top
  have hhigh := hnormal.high_lt
  rw [window_one, pow_zero, mul_one] at hhigh
  have huhat : uhat u.toDigitArray 1 m = some (u.digit (m + 1) * 2 ^ 32 + u.digit m) := by
    rw [uhat, Nat.add_sub_cancel, u.load_of_lt (by omega), u.load_of_lt (by omega)]
    rfl
  -- the first estimate fits one digit, so the test reads `v.digits[n - 2]`
  have hqhat : (u.digit (m + 1) * 2 ^ 32 + u.digit m) / v.digit 0 < 2 ^ 32 := by
    have hdigit := u.digit_lt m
    have hmul : 2 ^ 31 * 2 ^ 32 ≤ v.digit 0 * 2 ^ 32 := Nat.mul_le_mul_right _ hnorm
    rw [Nat.div_lt_iff_lt_mul (by omega), mul_comm (2 ^ 32)]
    omega
  have hstep : divStep v.toDigitArray 1 m u.toDigitArray = none :=
    divStep_eq_none huhat (v.load_of_lt (by decide)) (correctLoop_of_one hqhat _ _)
  have hload := y.load_of_lt (i := 0) (by decide)
  have hsub : x.length - 1 = m := by omega
  simp only [divDigits, hyl, Nat.sub_self, hload, hsub, hclz, hv, hu, divLoop, hstep,
    Option.bind_eq_bind, Option.bind_some, Option.bind_none]

lemma divDigits_of_top_eq_zero (htop : y.digit (y.length - 1) = 0) (quotient : DigitArray) :
    divDigits x y quotient = none := by
  have hlength := y.length_le
  have hload := y.load_of_lt (i := y.length - 1) (by simp only [maxDigits] at *; omega)
  have hclz : clz 0 = none := rfl
  simp only [divDigits, hload, htop, hclz, Option.bind_eq_bind, Option.bind_some, Option.bind_none]

lemma divides_iff_of_lt (hy0 : y.value ≠ 0) (hzero : y.isZero = false) (hlt : x.lt y = true) :
    Divides x y quotient remainder ↔ x.value < y.value := by
  have hdiv : x.div y = some zero := by
    rw [BigUint.div, hzero, if_neg Bool.false_ne_true, if_pos hlt]
  have hmod : x.mod y = some x := by
    rw [BigUint.mod, hzero, if_neg Bool.false_ne_true, if_pos hlt]
  have hdivRem : x.divRem y quotient remainder = some (zero, x) := by
    rw [BigUint.divRem, hzero, if_neg Bool.false_ne_true, if_pos hlt]
  constructor
  · rintro ⟨-, ⟨r, hr, hvalue⟩, -⟩
    obtain rfl := Option.some.inj (hmod.symm.trans hr)
    rw [hvalue]
    exact Nat.mod_lt _ (Nat.pos_of_ne_zero hy0)
  · intro hvalue
    have hq : zero.value = x.value / y.value := by rw [value_zero, Nat.div_eq_of_lt hvalue]
    have hr : x.value = x.value % y.value := (Nat.mod_eq_of_lt hvalue).symm
    exact ⟨⟨zero, hdiv, hq⟩, ⟨x, hmod, hr⟩, ⟨zero, x, hdivRem, hq, hr⟩⟩

section Returned

variable {s : ℕ} {u' quotient' : DigitArray} (hzero : y.isZero = false) (hlt : x.lt y = false)

include hzero hlt

lemma exists_div (hlen : x.length < maxDigits)
    (hrun : divDigits x y .init = some (s, u', quotient')) :
    ∃ q, x.div y = some q ∧
      q.value = evalSum quotient'.digit (x.length - y.length + 1) (2 ^ 32) := by
  obtain ⟨q, hq, hvalue⟩ := exists_trim (d := quotient') (n := x.length - y.length + 1) (by omega)
  refine ⟨q, ?_, hvalue⟩
  simp only [BigUint.div, hzero, hlt, hrun, hq, Bool.false_eq_true, if_false, Option.bind_eq_bind,
    Option.bind_some]

lemma exists_mod (hrun : divDigits x y .init = some (s, u', quotient')) :
    ∃ r, x.mod y = some r ∧ r.value = window u' 0 y.length / 2 ^ s := by
  obtain ⟨r, hr, hvalue⟩ := exists_remainder u' .init y.length_le s
  refine ⟨r.shr s, ?_, hvalue⟩
  simp only [BigUint.mod, hzero, hlt, hrun, hr, Bool.false_eq_true, if_false, Option.bind_eq_bind,
    Option.bind_some, Option.pure_def]

variable (remainder) in
lemma exists_divRem (hlen : x.length < maxDigits)
    (hrun : divDigits x y quotient = some (s, u', quotient')) :
    ∃ q r, x.divRem y quotient remainder = some (q, r) ∧
      q.value = evalSum quotient'.digit (x.length - y.length + 1) (2 ^ 32) ∧
      r.value = window u' 0 y.length / 2 ^ s := by
  obtain ⟨q, hq, hquotient⟩ :=
    exists_trim (d := quotient') (n := x.length - y.length + 1) (by omega)
  obtain ⟨r, hr, hremainder⟩ := exists_remainder u' remainder y.length_le s
  refine ⟨q, r.shr s, ?_, hquotient, hremainder⟩
  simp only [BigUint.divRem, hzero, hlt, hrun, hq, hr, Bool.false_eq_true, if_false,
    Option.bind_eq_bind, Option.bind_some, Option.pure_def]

end Returned

/-- A quotient and a remainder of the shifted numbers. -/
lemma eq_div_and_div_pow_iff {X Y Q R s : ℕ} (hR : R < Y * 2 ^ s)
    (hsum : Q * (Y * 2 ^ s) + R ≤ X * 2 ^ s) :
    Q = X / Y ∧ R / 2 ^ s = X % Y ↔ Q * (Y * 2 ^ s) + R = X * 2 ^ s := by
  constructor
  · rintro ⟨rfl, hrem⟩
    have hdiv := Nat.div_add_mod' X Y
    have hX : X * 2 ^ s = X / Y * (Y * 2 ^ s) + R / 2 ^ s * 2 ^ s := by
      rw [hrem]
      conv_lhs => rw [← hdiv]
      ring
    have := Nat.div_mul_le_self R (2 ^ s)
    omega
  · intro heq
    have hunique := (Nat.div_mod_unique (Nat.zero_lt_of_lt hR)).mpr
      ⟨(by rw [← heq]; ring : R + Y * 2 ^ s * Q = X * 2 ^ s), hR⟩
    rw [Nat.mul_div_mul_right _ _ (by positivity), Nat.mul_mod_mul_right] at hunique
    obtain ⟨rfl, rfl⟩ := hunique
    exact ⟨rfl, Nat.mul_div_cancel _ (by positivity)⟩

/-- Division returns the quotient and the remainder exactly when the divisor has more than one
digit and no add back loses a carry. -/
theorem divides_iff (hx : x.Clean) (hy : y.Clean) (hlen : x.length < maxDigits)
    (hy0 : y.value ≠ 0) : Divides x y quotient remainder ↔ DivisionExact x y := by
  have hzero : y.isZero = false := by
    by_contra hne
    exact hy0 (value_of_isZero (Bool.eq_true_of_not_eq_false hne))
  unfold DivisionExact
  split_ifs with hlt
  · exact divides_iff_of_lt hy0 hzero hlt
  have hle : y.length ≤ x.length := by
    by_contra hgt
    apply hlt
    rw [lt, if_pos (by omega), decide_eq_true (by omega)]
  have hpos : 1 ≤ y.length := by
    by_contra hlength
    rw [value, show y.length = 0 by omega, evalSum_zero] at hy0
    exact hy0 rfl
  have hnone (h : divDigits x y .init = none) : ¬ Divides x y quotient remainder := by
    rintro ⟨⟨q, hq, -⟩, -, -⟩
    rw [BigUint.div, hzero, if_neg Bool.false_ne_true, if_neg hlt, h] at hq
    cases hq
  by_cases htop : y.digit (y.length - 1) = 0
  · exact iff_of_false (hnone (divDigits_of_top_eq_zero htop _)) fun h => h.2.1 htop
  by_cases hone : y.length = 1
  · rw [hone] at htop hle
    exact iff_of_false (hnone (divDigits_of_length_one hx hy hlen hone hle htop _))
      fun h => by omega
  have hlt' : x.lt y = false := Bool.eq_false_iff.mpr hlt
  obtain ⟨u', q', hrun, -, hR, hsum, hexact⟩ :=
    divDigits_spec hx hy hlen (by omega) hle htop .init
  have hunshift := eq_div_and_div_pow_iff hR hsum
  obtain ⟨q, hq, hqv⟩ := exists_div hzero hlt' hlen hrun
  obtain ⟨r, hr, hrv⟩ := exists_mod hzero hlt' hrun
  rw [← hqv, ← hrv] at hunshift
  constructor
  · rintro ⟨⟨q₁, hq₁, hquotient⟩, ⟨r₁, hr₁, hremainder⟩, -⟩
    obtain rfl := Option.some.inj (hq.symm.trans hq₁)
    obtain rfl := Option.some.inj (hr.symm.trans hr₁)
    refine ⟨by omega, htop, hexact.mp ?_⟩
    rw [← hqv]
    exact hunshift.mp ⟨hquotient, hremainder⟩
  · rintro ⟨-, -, hlossless⟩
    obtain ⟨u₂, q₂, hrun₂, -, hR₂, hsum₂, hexact₂⟩ :=
      divDigits_spec hx hy hlen (by omega) hle htop quotient
    obtain ⟨q₃, r₃, hdivRem, hq₃, hr₃⟩ :=
      exists_divRem remainder hzero hlt' hlen hrun₂
    have hvalues := hunshift.mpr (by rw [hqv]; exact hexact.mpr hlossless)
    have hvalues₂ := (eq_div_and_div_pow_iff hR₂ hsum₂).mpr (hexact₂.mpr hlossless)
    rw [← hq₃, ← hr₃] at hvalues₂
    exact ⟨⟨q, hq, hvalues.1⟩, ⟨r, hr, hvalues.2⟩, ⟨q₃, r₃, hdivRem, hvalues₂⟩⟩

/-- A divisor of two digits. -/
theorem divides_iff_two_digits :
    Divides ⟨limbDigits (fun _ => 7 * 2 ^ 32 + 5) 1, 2, by decide⟩
      ⟨limbDigits (fun _ => 2 ^ 32 + 3) 1, 2, by decide⟩ .init .init := by
  have hx : Clean ⟨limbDigits (fun _ => 7 * 2 ^ 32 + 5) 1, 2, by decide⟩ := (limbDigits_spec _ 1).2
  have hy : Clean ⟨limbDigits (fun _ => 2 ^ 32 + 3) 1, 2, by decide⟩ := (limbDigits_spec _ 1).2
  exact (divides_iff hx hy (by decide) (by decide)).mpr (by decide)

/-- One divided by one reads `digits[-1]`. -/
theorem divides_not_all :
    ¬ ∀ x y : BigUint, x.Clean → y.Clean → x.length < maxDigits → y.value ≠ 0 →
      Divides x y .init .init := by
  intro hall
  obtain ⟨q, hq, -⟩ := (hall one one trimmed_one.clean trimmed_one.clean (by decide)
    (by decide)).div
  have hnone : one.div one = none := by decide
  rw [hnone] at hq
  cases hq

/-- Divisors of three digits reach the lost carry: `2 ^ 95 + 3` by `2 ^ 93 + 1`. -/
example : ¬ DivisionExact
    ⟨limbDigits (fun i => if i = 0 then 3 else 2 ^ 31) 2, 3, by decide⟩
    ⟨limbDigits (fun i => if i = 0 then 1 else 2 ^ 29) 2, 3, by decide⟩ := by
  decide

end BigUint

end MegaZK
